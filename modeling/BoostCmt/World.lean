import BoostCmt.Thread
/-!
# Threads, contexts and promises together

`World` is every OS thread with its scheduler state, the stack it executes, the
stacks of its suspended contexts, and the promises and tasks that all threads
share. `World.step` is one step of one thread, at the grain at which threads
interfere: each locked section of a promise is one step, and so is everything a
thread does to its own state between two of them. Which thread goes next, what the code outside
the library calls, and what the clock reads is the action's choice.

The code outside the library (`main`, the functors of tasks, callbacks) is
`Frame.user` or `Frame.task` on top of a stack: it may make any call. The frames
of the library below it hold where it goes on.

Assertions have no effect here. A lock that is found taken is the action
`contend`: `cmt::mutex::lock` then yields and tries again.
-/

namespace BoostCmt

/-- Where `process_tasks` is. -/
inductive ProcPc where
  /-- Before the first `dequeue`. -/
  | start
  /-- At the head of the outer loop, with `next == 0`. -/
  | top
  /-- Inside `next->run()`. -/
  | running (next : Task)
  /-- After `set_active_context(0)`, before `release()`. -/
  | release (next : Task)
  /-- After `release()`, at `check_for_timeouts` and `dequeue` of the inner loop. -/
  | again
  /-- The inner loop has ended. -/
  | tests
  /-- Inside `start_next_task(true)`. -/
  | switched
  /-- At the lock of `task_ready_mutex`. -/
  | lock
  /-- Inside `task_ready.wait` or `task_ready.timed_wait`. -/
  | sleeping
  deriving DecidableEq, Repr

/-- Where `promise::wait` or `wait_until` is. -/
inductive WaitPc where
  /-- Before the locked check of `m_error` and `m_value`. -/
  | check
  /-- After `enqueue_thread`, before the `ready()` of `thread::wait`. -/
  | ready
  /-- After `ready()` was false. -/
  | block
  /-- Inside the `start_next_task()` of `thread::wait`. -/
  | resumed
  /-- `thread::wait` has returned; the unlocked reads are next. -/
  | finish
  deriving DecidableEq, Repr

/-- Where `set_value` or `set_exception` is. -/
inductive SetPc where
  /-- Before the locked store. -/
  | store
  /-- In `promise_base::notify`, before `m_blocked_thread` is read. -/
  | notify
  /-- In `promise_base::notify`, about to call `notify` of the thread that was read. -/
  | post (t : ThreadId)
  deriving DecidableEq, Repr

/-- The three `thread::sync`. -/
inductive SyncOverload where
  | withPrio
  | plain
  | void
  deriving DecidableEq, Repr

/-- How often `sync` calls `retain` on its task. -/
def SyncOverload.retains : SyncOverload → Int
  | .withPrio => 1
  | .plain => 2
  | .void => 1

/-- One activation on a stack. -/
inductive Frame (V : Type) where
  /-- Code outside the library. -/
  | user
  /-- The functor of a task. -/
  | task (t : Task)
  | processTasks (pc : ProcPc) (timeoutTime : Int)
  /-- `promise::wait`; the deadline is `time_point::max()` when there is none. -/
  | wait (pc : WaitPc) (p : PromId) (timeout : Int)
  /-- `set_value` or `set_exception`; `caught` marks the call in the catch clause of `rtask::run`. -/
  | set (pc : SetPc) (p : PromId) (o : Outcome V) (caught : Bool)
  /-- Inside the `start_next_task()` of `sleep_until`. -/
  | sleep
  /-- Inside the `start_next_task(true)` of `yield`. -/
  | yield
  /-- `thread::sync` with its promise and its task. -/
  | sync (p : PromId) (t : Task)
  deriving DecidableEq, Repr

structure World (V : Type) where
  thr : ThreadId → ThreadPrivate := fun _ => {}
  /-- The stack a thread executes, the innermost call first. -/
  cpu : ThreadId → List (Frame V) := fun _ => [.user]
  /-- `my_context`: where `jump_fcontext` resumes a context. -/
  myContext : ThreadId → CtxId → List (Frame V) := fun _ _ => []
  prom : PromId → Promise V := fun _ => {}
  cell : Nat → TaskCell := fun _ => {}
  /-- `global_task_count`. -/
  taskCount : Nat := 0
  promCount : Nat := 0
  now : Int := 0

/-- Calls the code outside the library makes on its own thread. -/
inductive Call (V : Type) where
  /-- `new promise<V>()`. -/
  | newPromise
  /-- `async<T>` and `schedule<T>` on thread `j`. -/
  | async (j : ThreadId) (when : Int) (prio : Int)
  /-- `async` of a `void()` functor on thread `j`. -/
  | asyncVoid (j : ThreadId) (prio : Int)
  /-- `schedule` of a `void()` functor on thread `j`. -/
  | scheduleVoid (j : ThreadId) (when : Int) (prio : Int)
  /-- `wait` and `wait_until` on a future. -/
  | wait (p : PromId) (timeout : Int)
  /-- `set_value` and `set_exception`. -/
  | set (p : PromId) (o : Outcome V)
  /-- `future::cancel`. -/
  | cancel (p : PromId)
  | sleepUntil (tp : Int)
  | yield
  | exec
  | quit
  | sync (overload : SyncOverload) (j : ThreadId) (prio : Int) (timeout : Int)
  deriving DecidableEq, Repr

/-- What happens next. Clock readings are part of the choice. -/
inductive Action (V : Type) where
  | tick (t : Int)
  /-- The code outside the library on thread `i` makes a call. -/
  | call (i : ThreadId) (t : Int) (c : Call V)
  /-- The functor of the task that thread `i` runs returns or throws. -/
  | finish (i : ThreadId) (o : Outcome V)
  /-- The library code on thread `i` goes on, with up to three clock readings. -/
  | run (i : ThreadId) (t₁ t₂ t₃ : Int)
  /-- The library code on thread `i` finds a promise mutex taken. -/
  | contend (i : ThreadId) (t : Int)
  deriving DecidableEq, Repr

/-- What can be observed of a step. -/
inductive Event (V : Type) where
  | waitStart (i : ThreadId) (p : PromId) (timeout : Int)
  /-- A `wait` ends. `slow` says that it got past its locked check. -/
  | waitDone (i : ThreadId) (p : PromId) (timeout : Int) (slow : Bool) (o : Outcome V)
  /-- `set_value` or `set_exception` is called. -/
  | setStart (p : PromId) (o : Outcome V)
  /-- `set_value` or `set_exception` stores its argument. -/
  | stored (p : PromId) (o : Outcome V)
  /-- `set_value` or `set_exception` returns. -/
  | setDone (p : PromId) (o : Outcome V)
  /-- `check_for_timeouts` of thread `i` finds the deadline of context `c` passed while `c` waits on `p`. -/
  | expired (i : ThreadId) (c : CtxId) (p : PromId)
  /-- `task_canceled` is thrown at the context `c` that was switched to. -/
  | raised (i : ThreadId) (c : CtxId)
  /-- `process_tasks` reaches `task_ready.wait` (`none`) or `timed_wait`. -/
  | parked (i : ThreadId) (deadline : Option Int)
  /-- `sync` returns or throws. -/
  | syncDone (i : ThreadId) (p : PromId) (t : Task)
  /-- `quit` is called. -/
  | quitted (i : ThreadId)
  deriving DecidableEq, Repr

/-- `to_system_time`, in whole microseconds. -/
def toSystemTime (t : Int) : Int := Int.tdiv t 1000

namespace World

variable {V : Type}

def setThr (w : World V) (i : ThreadId) (s : ThreadPrivate) : World V :=
  { w with thr := fun j => if j = i then s else w.thr j }

def setCpu (w : World V) (i : ThreadId) (k : List (Frame V)) : World V :=
  { w with cpu := fun j => if j = i then k else w.cpu j }

def setMyContext (w : World V) (i : ThreadId) (c : CtxId) (k : List (Frame V)) : World V :=
  { w with myContext := fun j x => if j = i ∧ x = c then k else w.myContext j x }

def modProm (w : World V) (p : PromId) (f : Promise V → Promise V) : World V :=
  { w with prom := fun q => if q = p then f (w.prom q) else w.prom q }

def modCell (w : World V) (n : Nat) (f : TaskCell → TaskCell) : World V :=
  { w with cell := fun m => if m = n then f (w.cell m) else w.cell m }

def setNow (w : World V) (t : Int) : World V := { w with now := t }

/-! ## Posting -/

/-- The constructor of `task`; `refs` is the reference count it is handed over with. -/
def newTask (w : World V) (when : Int) (prio : Int) (body : TaskBody) (refs : Int) : Task × World V :=
  let n := w.taskCount + 1
  ({ postedNum := n, when, prio, body }, { w with taskCount := n }.modCell n (fun _ => { refCount := refs }))

/-- `thread::async(task::ptr)` on thread `j`, once its compare-exchange has succeeded. -/
def async (w : World V) (j : ThreadId) (t : Task) : World V :=
  w.setThr j { w.thr j with taskInQueue := t :: (w.thr j).taskInQueue }

/-- The constructors of `promise` and, when `t` is given, of `rtask`. -/
def newPromise (w : World V) (t : Option Nat) (onStack : Bool) : PromId × World V :=
  (w.promCount, { w with promCount := w.promCount + 1 }.modProm w.promCount (fun _ => { task := t, onStack }))

/-! ## Notifying -/

/-- `thread::notify` of thread `t`, called on thread `i`. -/
def notify (w : World V) (i t : ThreadId) (p : PromId) : Option (World V) :=
  if t = i then ((w.thr i).notify p).map (w.setThr i)
  else
    let (tsk, w) := w.newTask timePointMin 0 (.notify p) 1
    some (w.async t tsk)

/-- `promise_base::notify`, called on thread `i`. -/
def notifyBase (w : World V) (i : ThreadId) (p : PromId) : Option (World V) :=
  match (w.prom p).blockedThread with
  | none => some w
  | some t => w.notify i t p

/-- `promise::set_exception`, called by the scheduler of thread `i`. -/
def setException (w : World V) (i : ThreadId) (p : PromId) (e : Error) : Option (World V) :=
  (w.modProm p (fun q => { q with error := some e })).notifyBase i p

/-! ## The scheduler -/

/-- The loop of `check_for_timeouts`. -/
def expire (i : ThreadId) : Nat → World V → Option (World V × List (Event V))
  | 0, _ => none
  | fuel + 1, w =>
    match (w.thr i).sleepPqueue with
    | [] => some (w, [])
    | c :: _ =>
      if w.now ≥ ((w.thr i).ctx c).resumeTime then
        let w₁ := w.setThr i (w.thr i).sleepPop
        match ((w.thr i).ctx c).prom with
        | some p => do
          let w₂ ← w₁.setException i p .futureWaitTimeout
          let (w₃, es) ← expire i fuel w₂
          return (w₃, .expired i c p :: es)
        | none => expire i fuel (w₁.setThr i ((w₁.thr i).readyPushBack c))
      else some (w, [])

/-- The earliest time point `check_for_timeouts` has to care about: the fronts of both queues. -/
def nextDeadline (s : ThreadPrivate) : Int :=
  let next := timePointMax
  let next := match s.taskSchQueue with
    | t :: _ => if next > t.when then t.when else next
    | [] => next
  match s.sleepPqueue with
  | c :: _ => if next > (s.ctx c).resumeTime then (s.ctx c).resumeTime else next
  | [] => next

/-- `check_for_timeouts` of thread `i`. -/
def checkForTimeouts (w : World V) (i : ThreadId) : Option (Int × World V × List (Event V)) :=
  let s := w.thr i
  if s.sleepPqueue = [] ∧ s.taskSchQueue = [] then some (timePointMax, w, [])
  else if w.now < nextDeadline s then some (nextDeadline s, w, [])
  else do
    let (w, es) ← expire i (s.sleepPqueue.length + 1) w
    return (timePointMin, w, es)

/-- The switch of `start_next_task`: `saved` is the stack of the context that is switched away from. -/
def switch (w : World V) (i : ThreadId) (reschedule : Bool) (saved : List (Frame V)) : World V :=
  let (cur, s) := (w.thr i).ensureCurrent
  let push (s : ThreadPrivate) := if reschedule then s.readyPushBack cur else s
  match s.readyPopFront with
  | (some next, s) =>
    let w := (w.setMyContext i cur saved).setThr i { push s with current := some next }
    w.setCpu i (w.myContext i next)
  | (none, s) =>
    let (next, s) := (push s).newContext
    let start : List (Frame V) := [.processTasks .start 0]
    let w := ((w.setMyContext i cur saved).setMyContext i next start).setThr i { s with current := some next }
    w.setCpu i start

/-- `start_next_task`, up to the point where another context runs. -/
def startNextTask (w : World V) (i : ThreadId) (reschedule : Bool) (saved : List (Frame V)) :
    Option (World V × List (Event V)) := do
  let (_, w, es) ← w.checkForTimeouts i
  return (w.switch i reschedule saved, es)

/-- The body of the inner loop of `process_tasks` for the task `t`, up to where
code outside the library takes over. A posted `notify` runs to its end. -/
def runTask (w : World V) (i : ThreadId) (t : Task) (timeoutTime : Int) (k : List (Frame V)) :
    Option (World V × List (Event V)) :=
  let w := w.modCell t.postedNum (fun c => { c with activeContext := (w.thr i).current.map (i, ·) })
  let k := .processTasks (.running t) timeoutTime :: k
  match t.body with
  | .rtask p =>
    if (w.cell t.postedNum).canceled then
      some (w.setCpu i (.set .store p (.error .taskCanceled) false :: k), [.setStart p (.error .taskCanceled)])
    else some (w.setCpu i (.task t :: k), [])
  | .notify p => ((w.thr i).notify p).map (fun s => ((w.setThr i s).setCpu i k, []))
  | .vtask => some (w.setCpu i (.task t :: k), [])

/-- From `next = dequeue()` with a task to the start of its `run()`: back to the
head of the outer loop, and `check_for_timeouts` on the way. -/
def loopWith (w : World V) (i : ThreadId) (t : Task) (k : List (Frame V)) : Option (World V × List (Event V)) :=
  if (w.thr i).done then some (w.setCpu i k, [])
  else do
    let (timeoutTime, w, es) ← w.checkForTimeouts i
    let (w, es') ← w.runTask i t timeoutTime k
    return (w, es ++ es')

/-- `dequeue` on thread `i`. -/
def dequeue (w : World V) (i : ThreadId) (t₁ t₂ : Int) : Option Task × World V :=
  let (next, s) := (w.thr i).dequeue t₁ t₂
  (next, w.setThr i s)

/-- `release()` on a task; the last release runs `~rtask`. -/
def release (w : World V) (t : Task) : World V :=
  let last := (w.cell t.postedNum).refCount = 1
  let w := w.modCell t.postedNum (fun c => { c with refCount := c.refCount - 1 })
  match t.body with
  | .rtask p => if last then w.modProm p (fun q => { q with task := none }) else w
  | _ => w

/-- `canceled` of the context that thread `i` runs. -/
def currentCanceled (w : World V) (i : ThreadId) : Bool :=
  match (w.thr i).current with
  | some c => ((w.thr i).ctx c).canceled
  | none => false

/-- The event of `task_canceled` being thrown on thread `i`. -/
def raise (w : World V) (i : ThreadId) : List (Event V) :=
  match (w.thr i).current with
  | some c => [.raised i c]
  | none => []

/-- Where an exception goes that leaves the `yield` of a contended lock: out of
`wait`, or out of `set_value`, which `rtask::run` catches. -/
def unwind (i : ThreadId) : List (Frame V) → List (Frame V) × List (Event V)
  | .wait pc p d :: k => (k, [.waitDone i p d (pc != .check) (.error .taskCanceled)])
  | .set _ p _ false :: .processTasks (.running t) tm :: k =>
    (.set .store p (.error .taskCanceled) true :: .processTasks (.running t) tm :: k,
      [.setStart p (.error .taskCanceled)])
  | .set _ _ _ _ :: k => (k, [])
  | k => (k, [])

/-! ## One step of `process_tasks` -/

def stepProcessTasks (w : World V) (i : ThreadId) (t₁ t₂ t₃ : Int) (tm : Int) (k : List (Frame V)) :
    ProcPc → Option (World V × List (Event V))
  | .start =>
    match w.dequeue i t₁ t₂ with
    | (some t, w) => (w.setNow t₃).loopWith i t k
    | (none, w) => some ((w.setNow t₃).setCpu i (.processTasks .top tm :: k), [])
  | .top =>
    if (w.thr i).done then some ((w.setNow t₃).setCpu i k, [])
    else do
      let (tm, w, es) ← (w.setNow t₁).checkForTimeouts i
      return ((w.setNow t₃).setCpu i (.processTasks .tests tm :: k), es)
  | .running t =>
    let w := w.modCell t.postedNum (fun c => { c with activeContext := none })
    some ((w.setNow t₃).setCpu i (.processTasks (.release t) tm :: k), [])
  | .release t => some (((w.release t).setNow t₃).setCpu i (.processTasks .again tm :: k), [])
  | .again => do
    let (tm, w, es) ← (w.setNow t₁).checkForTimeouts i
    match w.dequeue i t₂ t₃ with
    | (some t, w) =>
      let (w, es') ← (w.setNow t₃).runTask i t tm k
      return (w, es ++ es')
    | (none, w) => return ((w.setNow t₃).setCpu i (.processTasks .tests tm :: k), es)
  | .tests =>
    if (w.thr i).blocked = none ∧ (w.thr i).done = true then some ((w.setNow t₃).setCpu i k, [])
    else if tm = timePointMin then some ((w.setNow t₃).setCpu i (.processTasks .top tm :: k), [])
    else if (w.thr i).readyHead = none then some ((w.setNow t₃).setCpu i (.processTasks .lock tm :: k), [])
    else (w.setNow t₃).startNextTask i true (.processTasks .switched tm :: k)
  | .switched =>
    if w.currentCanceled i then some ((w.setNow t₃).setCpu i k, w.raise i)
    else
      match w.dequeue i t₁ t₂ with
      | (some t, w) => (w.setNow t₃).loopWith i t k
      | (none, w) => some ((w.setNow t₃).setCpu i (.processTasks .lock tm :: k), [])
  | .lock =>
    match w.dequeue i t₁ t₂ with
    | (some t, w) => (w.setNow t₃).loopWith i t k
    | (none, w) =>
      some ((w.setNow t₃).setCpu i (.processTasks .sleeping tm :: k),
        [.parked i (if tm = timePointMax then none else some (toSystemTime tm))])
  | .sleeping => some ((w.setNow t₃).setCpu i (.processTasks .top tm :: k), [])

/-! ## One step of `wait`, `set_value` and `set_exception` -/

def stepWait (w : World V) (i : ThreadId) (t₁ t₂ : Int) (p : PromId) (d : Int) (k : List (Frame V)) :
    WaitPc → Option (World V × List (Event V))
  | .check =>
    match (w.prom p).error, (w.prom p).value with
    | some e, _ => some (w.setCpu i k, [.waitDone i p d false (.error e)])
    | none, some v => some (w.setCpu i k, [.waitDone i p d false (.value v)])
    | none, none =>
      let w := w.modProm p (fun q => { q with blockedThread := some i })
      some (w.setCpu i (.wait .ready p d :: k), [])
  | .ready =>
    if (w.prom p).ready then some (w.setCpu i (.wait .finish p d :: k), [])
    else some (w.setCpu i (.wait .block p d :: k), [])
  | .block =>
    if d < t₁ then some (w.setCpu i k, [.waitDone i p d true (.error .futureWaitTimeout)])
    else
      let (cur, s) := (w.thr i).ensureCurrent
      ((w.setThr i (s.waitOn cur p d)).setNow t₂).startNextTask i false (.wait .resumed p d :: k)
  | .resumed =>
    if w.currentCanceled i then
      some (w.setCpu i k, w.raise i ++ [.waitDone i p d true (.error .taskCanceled)])
    else
      let (cur, s) := (w.thr i).ensureCurrent
      some ((w.setThr i (s.modCtx cur (fun c => { c with prom := none }))).setCpu i (.wait .finish p d :: k), [])
  | .finish =>
    match (w.prom p).error, (w.prom p).value with
    | some e, _ =>
      let w := w.modProm p (fun q => { q with error := none })
      some (w.setCpu i k, [.waitDone i p d true (.error e)])
    | none, some v => some (w.setCpu i k, [.waitDone i p d true (.value v)])
    | none, none => some (w.setCpu i k, [.waitDone i p d true (.error .futureValueNotReady)])

def stepSet (w : World V) (i : ThreadId) (p : PromId) (o : Outcome V) (caught : Bool) (k : List (Frame V)) :
    SetPc → Option (World V × List (Event V))
  | .store =>
    match o with
    | .value v =>
      if (w.prom p).error.isSome then some (w.setCpu i k, [.setDone p o])
      else
        let w := w.modProm p (fun q => { q with value := some v })
        some (w.setCpu i (.set .notify p o caught :: k), [.stored p o])
    | .error e =>
      let w := w.modProm p (fun q => { q with error := some e })
      some (w.setCpu i (.set .notify p o caught :: k), [.stored p o])
  | .notify =>
    match (w.prom p).blockedThread with
    | none => some (w.setCpu i k, [.setDone p o])
    | some t => some (w.setCpu i (.set (.post t) p o caught :: k), [])
  | .post t => (w.notify i t p).map (fun w => (w.setCpu i k, [.setDone p o]))

/-! ## Quitting -/

/-- The first loop of `quit`: it follows `next`, and gives `none` at a null `prom`. -/
def quitBlocked (i : ThreadId) : Nat → World V → Option CtxId → Option (World V)
  | 0, _, _ => none
  | _ + 1, w, none => some w
  | fuel + 1, w, some c =>
    match ((w.thr i).ctx c).prom with
    | none => none
    | some p => do
      let w ← w.setException i p .threadQuit
      quitBlocked i fuel w ((w.thr i).ctx c).next

/-- The second loop of `quit`. -/
def quitReady : Nat → ThreadPrivate → Option CtxId → Option ThreadPrivate
  | 0, _, _ => none
  | _ + 1, s, none => some s
  | fuel + 1, s, some c => quitReady fuel (s.modCtx c (fun k => { k with canceled := true })) (s.ctx c).next

/-- `thread::quit` on its own thread. -/
def quit (w : World V) (i : ThreadId) : Option (World V) := do
  let w ← quitBlocked i ((w.thr i).nctx + 1) w (w.thr i).blocked
  let s ← quitReady ((w.thr i).nctx + 1) (w.thr i) (w.thr i).readyHead
  let s := s.sleepPqueue.foldl
    (fun s c => (s.modCtx c (fun k => { k with canceled := true })).readyPushFront c) s
  return w.setThr i { s with sleepPqueue := [], done := true }

/-! ## The code outside the library -/

/-- `task::cancel` of an `rtask`. -/
def cancelTask (w : World V) (n : Nat) : World V :=
  match (w.cell n).activeContext with
  | some (j, c) =>
    let w := w.modCell n (fun k => { k with canceled := true, activeContext := none })
    w.setThr j ((w.thr j).modCtx c (fun k => { k with canceled := true }))
  | none => w.modCell n (fun k => { k with canceled := true })

/-- A promise that the code outside the library can name. -/
def shared (w : World V) (p : PromId) : Bool := p < w.promCount && !(w.prom p).onStack

/-- The functor of `t` returns or throws: `rtask::run` settles its promise. -/
def finish (w : World V) (i : ThreadId) (o : Outcome V) (t : Task) (k : List (Frame V)) :
    World V × List (Event V) :=
  match t.body with
  | .rtask p => (w.setCpu i (.set .store p o (o matches .error _) :: k), [.setStart p o])
  | _ => (w.setCpu i k, [])

/-- A call made by the code outside the library, whose stack is `k`. The posting functions are members of the
thread that is posted to, and so is the `current_priority` they call. -/
def stepCall (w : World V) (i : ThreadId) (t : Int) (k : List (Frame V)) :
    Call V → Option (World V × List (Event V))
  | .newPromise => some ((w.newPromise none false).2, [])
  | .async j when prio =>
    let prio := max (w.thr j).currentPriority prio
    let (tsk, w) := w.newTask when prio (.rtask w.promCount) 1
    let (_, w) := w.newPromise (some tsk.postedNum) false
    some (w.async j tsk, [])
  | .asyncVoid j prio =>
    let (tsk, w) := w.newTask timePointMin prio .vtask 1
    some (w.async j tsk, [])
  | .scheduleVoid j when prio =>
    let (tsk, w) := w.newTask when (max (w.thr j).currentPriority prio) .vtask 1
    some (w.async j tsk, [])
  | .wait p d => if w.shared p then some (w.setCpu i (.wait .check p d :: k), [.waitStart i p d]) else none
  | .set p o => if w.shared p then some (w.setCpu i (.set .store p o false :: k), [.setStart p o]) else none
  | .cancel p =>
    if w.shared p then
      match (w.prom p).ready, (w.prom p).task with
      | false, some n => some (w.cancelTask n, [])
      | _, _ => some (w, [])
    else none
  | .sleepUntil tp =>
    if (w.thr i).done then some (w, [])
    else
      let (cur, s) := (w.thr i).ensureCurrent
      ((w.setThr i (s.sleepOn cur tp)).setNow t).startNextTask i false (.sleep :: k)
  | .yield => (w.setNow t).startNextTask i true (.yield :: k)
  | .exec => some (w.setCpu i (.processTasks .start 0 :: k), [])
  | .quit => (w.quit i).map (·, [.quitted i])
  | .sync ov j prio d =>
    let cur := (w.thr j).currentPriority
    let prio := match ov with
      | .withPrio => max cur prio
      | _ => cur
    let (tsk, w) := w.newTask timePointMin prio (.rtask w.promCount) (1 + ov.retains)
    let (p, w) := w.newPromise (some tsk.postedNum) true
    some ((w.async j tsk).setCpu i (.wait .check p d :: .sync p tsk :: k), [.waitStart i p d])

/-- The library code on thread `i` goes on. -/
def stepRun (w : World V) (i : ThreadId) (t₁ t₂ t₃ : Int) : Option (World V × List (Event V)) :=
  match w.cpu i with
  | .processTasks pc tm :: k => w.stepProcessTasks i t₁ t₂ t₃ tm k pc
  | .wait pc p d :: k => (w.setNow t₁).stepWait i t₁ t₂ p d k pc
  | .set pc p o caught :: k => w.stepSet i p o caught k pc
  | .sleep :: k =>
    if w.currentCanceled i then some (w.setCpu i k, w.raise i)
    else
      let (cur, s) := (w.thr i).ensureCurrent
      some ((w.setThr i (s.modCtx cur (fun c => { c with resumeTime := timePointMax }))).setCpu i k, [])
  | .yield :: k =>
    if w.currentCanceled i then
      let (k, es) := unwind i k
      some (w.setCpu i k, w.raise i ++ es)
    else some (w.setCpu i k, [])
  | .sync p t :: k => some (w.setCpu i k, [.syncDone i p t])
  | .user :: _ => none
  | .task _ :: _ => none
  | [] => none

/-- Whether the library code on thread `i` is about to lock a promise. The lock of the
catch clause of `rtask::run` is taken to be free. -/
def locks : List (Frame V) → Bool
  | .wait .check _ _ :: _ => true
  | .wait .ready _ _ :: _ => true
  | .set .store _ _ false :: _ => true
  | _ => false

/-- One step. Clock readings do not go back, and a reading is a time point. -/
def step (w : World V) : Action V → Option (World V × List (Event V))
  | .tick t => if w.now ≤ t ∧ t ≤ timePointMax then some (w.setNow t, []) else none
  | .call i t c =>
    if w.now ≤ t ∧ t ≤ timePointMax then
      match w.cpu i with
      | .user :: _ => w.stepCall i t (w.cpu i) c
      | .task _ :: _ => w.stepCall i t (w.cpu i) c
      | _ => none
    else none
  | .finish i o =>
    match w.cpu i with
    | .task t :: k => some (w.finish i o t k)
    | _ => none
  | .run i t₁ t₂ t₃ =>
    if w.now ≤ t₁ ∧ t₁ ≤ t₂ ∧ t₂ ≤ t₃ ∧ t₃ ≤ timePointMax then w.stepRun i t₁ t₂ t₃ else none
  | .contend i t =>
    if w.now ≤ t ∧ t ≤ timePointMax ∧ locks (w.cpu i) then (w.setNow t).startNextTask i true (.yield :: w.cpu i) else none

/-- Before anything runs. -/
def init : World V := {}

end World

end BoostCmt
