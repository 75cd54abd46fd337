/-
`gomp_sem_t` of `config/linux`: a futex of which the low 31 bits are the count, and the top bit is a flag set when some
threads may be waiting. The count is what was posted and not yet taken, and nobody is left asleep while it is not zero.
-/
import Bosched.Lib.Futex

namespace Bosched

open Lib

variable {ι : Type} [DecidableEq ι]

/-- The low 31 bits of a semaphore, and its top bit. -/
structure SemWord where
  count : Nat
  waiting : Bool
  deriving DecidableEq, Repr

/-- Where a thread is: outside; in `gomp_sem_wait`, with the value it has read; in the first loop of
`gomp_sem_wait_slow`, spinning, about to set the flag, about to read the semaphore, or about to take one; in the
second, about to compare and swap, or spinning; about to call `futex_wait`, asleep, or about to read the semaphore
after that; in `gomp_sem_post`, with the value it has read; in `gomp_sem_post_slow`. -/
inductive SemAt
  | out | fast (count : SemWord) | spin | flag | look | take (count : SemWord) | second (count : SemWord)
    | respin | wait
  | asleep | reload | post (count : SemWord) | wake
  deriving DecidableEq, Repr

/-- A thread that will read the semaphore again, or wake somebody. -/
def SemAt.Busy : SemAt → Prop
  | .second _ | .respin | .wait | .reload | .wake => True
  | _ => False

end Bosched
