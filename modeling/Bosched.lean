import Bosched.Lib.Progression
import Bosched.Lib.Threads
import Bosched.Runtime.LoopInit
import Bosched.Iter.Cas
import Bosched.Iter.CasInvariant
import Bosched.Iter.Signed
import Bosched.Runtime.Exact
import Bosched.Iter.CasExit
import Bosched.Iter.Unsigned
import Bosched.Iter.Dynamic
import Bosched.Iter.Css
import Bosched.Iter.Doacross
import Bosched.Iter.DoacrossChunks
import Bosched.Iter.DoacrossSafe
import Bosched.Iter.DoacrossRuns
import Bosched.Iter.Hss
import Bosched.Iter.Binlpt
import Bosched.Iter.TripCount
import Bosched.Iter.Batches
import Bosched.Iter.InFlight
import Bosched.State.File
import Bosched.State.Run
import Bosched.State.Preserve
import Bosched.State.LifeCycle
import Bosched.State.Sharing
import Bosched.State.Tuner
import Bosched.State.Purity
import Bosched.Team.Invariant
import Bosched.Team.Covered
import Bosched.Lib.Sessions
import Bosched.Team.Forest
import Bosched.Team.Pairing
import Bosched.Iter.Rules
import Bosched.Iter.HssFit
import Bosched.Iter.BinlptRuns
import Bosched.Lib.Folds
import Bosched.Packing.Stages
import Bosched.Lib.Loads
import Bosched.Packing.Quality
import Bosched.Iter.Divisors
import Bosched.Iter.Factoring
import Bosched.Iter.Trapezoid
import Bosched.Lib.Cuts
import Bosched.Packing.Julia
import Bosched.Packing.JuliaStages
import Bosched.Packing.Classic
import Bosched.Lib.Siblings
import Bosched.OmpExpand.Regions
import Bosched.OmpExpand.Trees
import Bosched.OmpExpand.RegionIds
import Bosched.OmpExpand.Reuse
import Bosched.Packing.Bounds
import Bosched.Packing.Cache
import Bosched.Packing.Sums
import Bosched.Packing.JuliaCover
import Bosched.Lib.Deal
import Bosched.Packing.Dealing
import Bosched.Packing.Agree
import Bosched.Packing.JuliaDealing
import Bosched.Runtime.CssRule
import Bosched.Labo.Preprocess
import Bosched.Labo.Quantize
import Bosched.Lib.Scan
import Bosched.Runtime.ParseSchedule
import Bosched.Iter.Profile
import Bosched.Iter.ProfileSound
import Bosched.Iter.ProfileRuns
import Bosched.Lib.Blocks
import Bosched.Iter.Static
import Bosched.Labo.ExpKernel
import Bosched.Labo.ParticleGp
import Bosched.Labo.Mcmc
import Bosched.Labo.Acquisition
import Bosched.Simulation.Simulate
import Bosched.Iter.Sequence
import Bosched.Iter.Recycled
import Bosched.Iter.Alone
import Bosched.Iter.Widths
import Bosched.Iter.Drains
import Bosched.Iter.RuntimeStart
import Bosched.Iter.RuntimeSides
import Bosched.Iter.RuntimeRuns
import Bosched.Iter.RuntimeFallback
import Bosched.Iter.RuntimeTogether
import Bosched.Iter.Guided
import Bosched.Lib.Line
import Bosched.Lib.Ring
import Bosched.Ordered.Finish
import Bosched.Ordered.Loops
import Bosched.Lib.Chains
import Bosched.Lib.Stutter
import Bosched.WorkShare.Model
import Bosched.WorkShare.Needs
import Bosched.WorkShare.Pool
import Bosched.WorkShare.Recycles
import Bosched.WorkShare.Refines
import Bosched.WorkShare.Safe
import Bosched.Lib.Futex
import Bosched.Sync.Mutex
import Bosched.Sync.Sem
import Bosched.Sync.PtrLock
import Bosched.Sync.Barrier
