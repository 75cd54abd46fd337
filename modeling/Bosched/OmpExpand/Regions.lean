/-
The region trees of `omp-expand.c`: how `build_omp_regions` allocates them, which GOMP calls with a region
id `expand_omp` emits, and how `omp_free_regions` releases them. The id of a region is its address. What
`XCNEW` returns is an input; reading or releasing a region that is not allocated is `none`.
-/
import Bosched.Runtime.Types

namespace Bosched.OmpExpand

/-- The address of a region; 0 is `NULL`. -/
abbrev Addr := RegionId

/-- `enum omp_clause_schedule_kind`. -/
inductive ScheduleKind
  | static | dynamic | guided | auto | runtime
  deriving DecidableEq

/-- `gimple_omp_for_kind`. -/
inductive ForKind
  | for | distribute | taskloop | oaccLoop | simd
  deriving DecidableEq

/-- A `GIMPLE_OMP_FOR` with its schedule clause and its ordered clause, `some 0` for one without an argument.
Only worksharing loops have such clauses. -/
structure GompFor where
  kind : ForKind
  schedule : Option ScheduleKind
  ordered : Option Nat
  clauses : kind ≠ .for → schedule = none ∧ ordered = none

namespace GompFor

variable (f : GompFor)

/-- `fd.sched_kind` after `omp_extract_for_data`. -/
def schedKind : ScheduleKind :=
  if f.kind = .taskloop then .runtime
  else
    match f.schedule with
    | none | some .auto => .static
    | some sched => sched

/-- `fd.have_ordered`. -/
def haveOrdered : Bool := f.ordered.isSome

/-- What `determine_parallel_type` asks of the clauses. -/
def combines : Bool :=
  match f.schedule with
  | none | some .static => false
  | some _ => !f.haveOrdered

/-- A loop with runtime schedule. -/
def isRuntime : Bool := decide (f.kind = .for ∧ f.schedKind = .runtime)

end GompFor

/-- The OMP statements. `combinable` stands for the conditions of `determine_parallel_type` on the blocks of a
parallel and the workshare in it; a stand-alone directive opens no region for what follows it. -/
inductive GimpleOmp
  | parallel (combinable : Bool)
  | task | sections | sectionsSwitch | section | single | master | taskgroup | critical | teams
  | for (stmt : GompFor)
  | ordered (standAlone : Bool)
  | target (standAlone : Bool)
  | atomicLoad | atomicStore | continue | return

def GimpleOmp.standAlone : GimpleOmp → Bool
  | .ordered b | .target b => b
  | _ => false

/-- `struct omp_region`; `type` is the statement at the end of `entry`. -/
structure OmpRegion where
  outer : Addr
  inner : Addr
  next : Addr
  entry : Nat
  exit : Option Nat
  cont : Option Nat
  type : GimpleOmp
  schedKind : ScheduleKind
  isCombinedParallel : Bool

inductive Callee
  | parallelLoopRuntime | loopRuntimeStart | loopEnd
  deriving DecidableEq

/-- An emitted call with a region id: the loop it is for is the one of block `loop` in the function `fn`. -/
structure GompCall where
  callee : Callee
  fn : Nat
  loop : Nat
  sched : ScheduleKind
  regionId : Addr
  deriving DecidableEq

/-- The state of the compiler: the allocated regions, `root_omp_region`, the addresses `XCNEW` will return, the
calls emitted so far, and the number of the function. -/
structure Compiler where
  heap : Addr → Option OmpRegion
  root : Addr
  supply : List Addr
  calls : List GompCall
  fn : Nat

namespace Compiler

variable (s : Compiler)

/-- `*a = r`. -/
def write (a : Addr) (r : OmpRegion) : Compiler := { s with heap := Function.update s.heap a (some r) }

/-- A call with the id of a region. -/
def emit (callee : Callee) (loop : Nat) (sched : ScheduleKind) (id : Addr) : Compiler :=
  { s with calls := s.calls ++ [⟨callee, s.fn, loop, sched, id⟩] }

/-- `XCNEW`: the allocator returns an address that is not allocated. -/
def malloc : Option (Addr × Compiler) :=
  match s.supply with
  | [] => none
  | a :: supply => if a = 0 ∨ (s.heap a).isSome then none else some (a, { s with supply := supply })

/-- `new_omp_region`. -/
def newOmpRegion (bb : Nat) (type : GimpleOmp) (parent : Addr) : Option (Addr × Compiler) := do
  let (region, s) ← s.malloc
  let r : OmpRegion := ⟨parent, 0, 0, bb, none, none, type, .static, false⟩
  if parent ≠ 0 then
    let p ← s.heap parent
    return (region, (s.write region { r with next := p.inner }).write parent { p with inner := region })
  else return (region, { s.write region { r with next := s.root } with root := region })

end Compiler

/-! ## `build_omp_regions` -/

/-- A list of dominator trees: a block with the OMP statement that ends it, its first son, and its next
sibling. -/
inductive Dom
  | nil
  | node (bb : Nat) (last : Option GimpleOmp) (son next : Dom)

/-- The number of blocks. -/
def Dom.size : Dom → Nat
  | .nil => 0
  | .node _ _ son next => son.size + next.size + 1

namespace Compiler

/-- `*parent`, after `gcc_assert (parent)`. -/
def enclosing (parent : Addr) (s : Compiler) : Option OmpRegion := if parent = 0 then none else s.heap parent

/-- What `build_omp_regions_1` does at one block; the first component is the parent for the blocks below. -/
def visitBlock (bb : Nat) (last : Option GimpleOmp) (parent : Addr) (s : Compiler) : Option (Addr × Compiler) :=
  match last with
  | none => some (parent, s)
  | some .return => do
    let p ← s.enclosing parent
    return (p.outer, s.write parent { p with exit := some bb })
  | some .atomicStore => do
    let p ← s.enclosing parent
    match p.type with
    | .atomicLoad => return (p.outer, s.write parent { p with exit := some bb })
    | _ => none
  | some .continue => do
    let p ← s.enclosing parent
    return (parent, s.write parent { p with cont := some bb })
  | some .sectionsSwitch => some (parent, s)
  | some type => do
    let (region, s) ← s.newOmpRegion bb type parent
    return (if type.standAlone then parent else region, s)

/-- `build_omp_regions_1` for a block and its siblings. -/
def buildOmpRegions1 : Dom → Addr → Compiler → Option Compiler
  | .nil, _, s => some s
  | .node bb last son next, parent, s => do
    let (below, s) ← visitBlock bb last parent s
    let s ← buildOmpRegions1 son below s
    buildOmpRegions1 next parent s

/-- `build_omp_regions`. -/
def buildOmpRegions (f : Dom) (s : Compiler) : Option Compiler := if s.root = 0 then buildOmpRegions1 f 0 s else none

/-! ## `expand_omp` -/

/-- `determine_parallel_type`; it does nothing for a region that is no parallel. -/
def determineParallelType (s : Compiler) (region : Addr) : Option Compiler := do
  let r ← s.heap region
  if r.inner = 0 then return s
  else
    let i ← s.heap r.inner
    if r.exit = none ∨ i.exit = none ∨ i.cont = none then return s
    else
      let mark (b : Bool) :=
        (s.write region { r with isCombinedParallel := b }).write r.inner { i with isCombinedParallel := b }
      match r.type, i.type with
      | .parallel true, .for f => return mark f.combines
      | .parallel true, .sections => return mark true
      | _, _ => return s

/-- `expand_parallel_call`: the call of a combined parallel loop carries the address of the parallel region. -/
def expandParallelCall (s : Compiler) (region : Addr) : Option Compiler := do
  let r ← s.heap region
  if r.isCombinedParallel then
    let i ← s.heap r.inner
    match i.type with
    | .for _ =>
      return if i.schedKind = .runtime then s.emit .parallelLoopRuntime i.entry .runtime region else s
    | .sections => return s
    | _ => none
  else return s

/-- `expand_omp_for`, and `expand_omp_for_generic` for the loops that are not open-coded. -/
def expandOmpFor (s : Compiler) (region : Addr) (f : GompFor) : Option Compiler := do
  let r ← s.heap region
  let s := s.write region { r with schedKind := f.schedKind }
  if f.kind ≠ .for ∨ (f.schedKind = .static ∧ !f.haveOrdered) then return s
  else
    -- a doacross loop passes no id to its start function
    let s := if !r.isCombinedParallel && f.ordered.getD 0 = 0 && f.schedKind = .runtime then
        s.emit .loopRuntimeStart r.entry .runtime region else s
    return s.emit .loopEnd r.entry f.schedKind region

/-- The `switch` of `expand_omp`. -/
def expandRegion (s : Compiler) (region : Addr) : Option Compiler := do
  match (← s.heap region).type with
  | .parallel _ => expandParallelCall s region
  | .for f => expandOmpFor s region f
  | _ => return s

/-- `expand_omp` for a region and its siblings. -/
def expandOmp : Nat → Compiler → Addr → Option Compiler
  | 0, s, region => if region = 0 then some s else none
  | fuel + 1, s, region =>
    if region = 0 then some s
    else do
      let s ← determineParallelType s region
      let s ← expandOmp fuel s (← s.heap region).inner
      let s ← expandRegion s region
      expandOmp fuel s (← s.heap region).next

/-! ## `omp_free_regions` -/

/-- `free`. -/
def free (h : Addr → Option OmpRegion) (a : Addr) : Option (Addr → Option OmpRegion) :=
  if (h a).isSome then some (Function.update h a none) else none

mutual

/-- `free_omp_region_1`. -/
def freeOmpRegion1 : Nat → (Addr → Option OmpRegion) → Addr → Option (Addr → Option OmpRegion)
  | 0, _, _ => none
  | fuel + 1, h, region => do
    let h ← freeSiblings fuel h (← h region).inner
    free h region

/-- The loops `for (i = …; i; i = n)` of `free_omp_region_1` and `omp_free_regions`. -/
def freeSiblings : Nat → (Addr → Option OmpRegion) → Addr → Option (Addr → Option OmpRegion)
  | 0, h, i => if i = 0 then some h else none
  | fuel + 1, h, i =>
    if i = 0 then some h
    else do
      let n := (← h i).next
      let h ← freeOmpRegion1 fuel h i
      freeSiblings fuel h n

end

/-- `omp_free_regions`. -/
def ompFreeRegions (fuel : Nat) (s : Compiler) : Option Compiler := do
  return { s with heap := ← freeSiblings fuel s.heap s.root, root := 0 }

/-! ## A compiler run -/

/-- `execute_expand_omp`, then on to the next function. -/
def executeExpandOmp (s : Compiler) (f : Dom) : Option Compiler := do
  let s ← buildOmpRegions f s
  if s.root = 0 then return { s with fn := s.fn + 1 }
  else
    let s ← expandOmp (2 * f.size + 1) s s.root
    let s ← ompFreeRegions (2 * f.size + 1) s
    return { s with fn := s.fn + 1 }

/-- Before the first function. -/
def start (supply : List Addr) : Compiler := ⟨fun _ => none, 0, supply, [], 0⟩

/-- The functions of a translation unit. -/
def compile (fns : List Dom) (s : Compiler) : Option Compiler := fns.foldlM executeExpandOmp s

end Compiler

end Bosched.OmpExpand
