import Mathlib.Algebra.Group.Int.Defs
import Mathlib.Algebra.Group.Nat.Defs
import Mathlib.Logic.Basic
/-!
# Tasks, promises and errors

The data that threads share: what `task.hpp`, `future.hpp` and `error.hpp`
declare. A pointer is the number of the object it points to.

Time points are counts of clock ticks. `system_clock::time_point::min()` and
`max()` are the ends of the signed 64-bit range; the scheduler uses both as
sentinels.
-/

namespace BoostCmt

/-- `system_clock::time_point::min()`. -/
def timePointMin : Int := -2 ^ 63

/-- `system_clock::time_point::max()`: no deadline. -/
def timePointMax : Int := 2 ^ 63 - 1

abbrev ThreadId := Nat
/-- A `cmt_context*` of one thread. -/
abbrev CtxId := Nat
/-- A `promise_base*`. -/
abbrev PromId := Nat

/-- The exceptions of `boost::cmt::error`, and what a functor may throw. -/
inductive Error where
  | nullFuture
  | futureValueNotReady
  | futureWaitTimeout
  | brokenPromise
  | taskCanceled
  | threadQuit
  | other (n : Nat)
  deriving DecidableEq, Repr

/-- How a promise is settled and how a `wait` ends. -/
inductive Outcome (V : Type) where
  | value (v : V)
  | error (e : Error)
  deriving DecidableEq, Repr

/-- What `run()` calls: `rtask` sets its promise, `vtask` has no result. The
`vtask` that `thread::notify` posts to another thread is kept apart, since its
functor is known. -/
inductive TaskBody where
  | rtask (p : PromId)
  | notify (p : PromId)
  | vtask
  deriving DecidableEq, Repr

/-- The fields of a `task` that never change once it is constructed.
`postedNum` comes from the global task count and names the task. -/
structure Task where
  postedNum : Nat
  when : Int := timePointMin
  prio : Int := 0
  body : TaskBody
  deriving DecidableEq, Repr

/-- The fields of a `task` that change: `canceled`, `active_context` (with the
thread it belongs to), and `m_ref_count`. -/
structure TaskCell where
  canceled : Bool := false
  activeContext : Option (ThreadId × CtxId) := none
  refCount : Int := 1
  deriving DecidableEq, Repr

/-- `promise<V>`. -/
structure Promise (V : Type) where
  error : Option Error := none
  value : Option V := none
  blockedThread : Option ThreadId := none
  task : Option Nat := none
  /-- The promise is a local of `thread::sync`, which no other code can name. -/
  onStack : Bool := false
  deriving DecidableEq, Repr

/-- `promise::ready`. -/
def Promise.ready {V : Type} (p : Promise V) : Bool := p.error.isSome || p.value.isSome

end BoostCmt
