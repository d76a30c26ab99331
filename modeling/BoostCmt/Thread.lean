import BoostCmt.Lib.Heap
import BoostCmt.Types
/-!
# The scheduler state of one thread

`thread_private` and the functions of `thread.cpp` that only touch it. Contexts
are linked through their own fields, as in the source: `next` for the ready list
and `next_blocked` for the blocked list. A walk over a linked list takes fuel and
gives `none` when it does not end within it; the fuel is the number of contexts,
which any list without a cycle fits in.
-/

namespace BoostCmt

open StdHeap

/-- The fields of `cmt_context` that the scheduler reads. `my_context`, the saved
machine state, is kept by `World.myContext`. -/
structure CmtContext where
  prio : Int := 0
  prom : Option PromId := none
  resumeTime : Int := 0
  nextBlocked : Option CtxId := none
  next : Option CtxId := none
  canceled : Bool := false
  deriving DecidableEq, Repr

/-- `thread_private`, with the heap of its contexts: `ctx` their contents, `nctx`
how many `new cmt_context` has made. -/
structure ThreadPrivate where
  /-- The chain that hangs from `task_in_queue`, the last posted task first. -/
  taskInQueue : List Task := []
  taskPqueue : List Task := []
  taskSchQueue : List Task := []
  sleepPqueue : List CtxId := []
  done : Bool := false
  current : Option CtxId := none
  readyHead : Option CtxId := none
  readyTail : Option CtxId := none
  blocked : Option CtxId := none
  ctx : CtxId → CmtContext := fun _ => {}
  nctx : Nat := 0

namespace ThreadPrivate

/-- Writes fields of one context. -/
def modCtx (s : ThreadPrivate) (c : CtxId) (f : CmtContext → CmtContext) : ThreadPrivate :=
  { s with ctx := fun x => if x = c then f (s.ctx x) else s.ctx x }

/-! ## The ready and blocked lists -/

def addToBlocked (s : ThreadPrivate) (c : CtxId) : ThreadPrivate :=
  { s.modCtx c (fun k => { k with nextBlocked := s.blocked }) with blocked := some c }

def readyPopFront (s : ThreadPrivate) : Option CtxId × ThreadPrivate :=
  match s.readyHead with
  | none => (none, s)
  | some tmp =>
    let head := (s.ctx tmp).next
    let tail := if head = none then none else s.readyTail
    (some tmp, { s.modCtx tmp (fun k => { k with next := none }) with readyHead := head, readyTail := tail })

def readyPushFront (s : ThreadPrivate) (c : CtxId) : ThreadPrivate :=
  let tail := if s.readyTail = none then some c else s.readyTail
  { s.modCtx c (fun k => { k with next := s.readyHead }) with readyHead := some c, readyTail := tail }

def readyPushBack (s : ThreadPrivate) (c : CtxId) : ThreadPrivate :=
  match s.readyTail with
  | some t =>
    let s := s.modCtx c (fun k => { k with next := none })
    { s.modCtx t (fun k => { k with next := some c }) with readyTail := some c }
  | none => { s.modCtx c (fun k => { k with next := none }) with readyHead := some c, readyTail := some c }

/-! ## The task queues -/

def taskPriorityLess (a b : Task) : Bool :=
  if a.prio < b.prio then true else if a.prio > b.prio then false else a.postedNum > b.postedNum

def taskWhenLess (a b : Task) : Bool := a.when < b.when

/-- One turn of the loop of `enqueue`: the task goes to the queue of its date. -/
def enqueue1 (now : Int) (s : ThreadPrivate) (cur : Task) : ThreadPrivate :=
  if cur.when > now then
    { s with taskSchQueue := pushHeap taskWhenLess (s.taskSchQueue ++ [cur]) }
  else
    { s with taskPqueue := pushHeap taskPriorityLess (s.taskPqueue ++ [cur]) }

/-- `enqueue` of a chain, at the clock reading `now`. -/
def enqueue (now : Int) (s : ThreadPrivate) (chain : List Task) : ThreadPrivate :=
  chain.foldl (enqueue1 now) s

/-- The part of `dequeue` after the chain is drained: a scheduled task that is
due, or else the first of `task_pqueue`. -/
def takeNext (now : Int) (s : ThreadPrivate) : Option Task × ThreadPrivate :=
  let fromPqueue : Option Task × ThreadPrivate :=
    match s.taskPqueue with
    | [] => (none, s)
    | p :: _ => (some p, { s with taskPqueue := (popHeap taskPriorityLess s.taskPqueue).dropLast })
  match s.taskSchQueue with
  | [] => fromPqueue
  | p :: _ =>
    if p.when ≤ now then (some p, { s with taskSchQueue := (popHeap taskWhenLess s.taskSchQueue).dropLast })
    else fromPqueue

/-- `dequeue`: `now₁` is the clock reading of `enqueue` and `now₂` its own. -/
def dequeue (now₁ now₂ : Int) (s : ThreadPrivate) : Option Task × ThreadPrivate :=
  takeNext now₂ (enqueue now₁ { s with taskInQueue := [] } s.taskInQueue)

/-! ## Sleeping and waking -/

def sleepPriorityLess (s : ThreadPrivate) (a b : CtxId) : Bool := (s.ctx a).resumeTime > (s.ctx b).resumeTime

/-- `push_back` and `push_heap` on `sleep_pqueue`. -/
def sleepPush (s : ThreadPrivate) (c : CtxId) : ThreadPrivate :=
  { s with sleepPqueue := pushHeap s.sleepPriorityLess (s.sleepPqueue ++ [c]) }

/-- `pop_heap` and `pop_back` on `sleep_pqueue`. -/
def sleepPop (s : ThreadPrivate) : ThreadPrivate :=
  { s with sleepPqueue := (popHeap s.sleepPriorityLess s.sleepPqueue).dropLast }

/-- `notify` unlinks `cur`, which stands behind `prev` in the blocked list, and makes it ready. -/
def unblock (s : ThreadPrivate) (prev : Option CtxId) (cur : CtxId) : ThreadPrivate :=
  let link := (s.ctx cur).nextBlocked
  let s := match prev with
    | some q => s.modCtx q (fun k => { k with nextBlocked := link })
    | none => { s with blocked := link }
  (s.modCtx cur (fun k => { k with nextBlocked := none })).readyPushFront cur

/-- The walk of `notify` over the blocked list. After `unblock` it goes on from the
link of `cur`, which has just been cleared. -/
def notifyBlocked (p : PromId) : Nat → ThreadPrivate → Option CtxId → Option CtxId → Option ThreadPrivate
  | 0, _, _, _ => none
  | _ + 1, s, _, none => some s
  | fuel + 1, s, prev, some cur =>
    if (s.ctx cur).prom = some p then
      let s := s.unblock prev cur
      notifyBlocked p fuel s prev (s.ctx cur).nextBlocked
    else notifyBlocked p fuel s (some cur) (s.ctx cur).nextBlocked

/-- The loop of `notify` over `sleep_pqueue`: the first entry that waits on `p`
is overwritten with the last one, and the heap is built again. -/
def notifySleep (p : PromId) (s : ThreadPrivate) : ThreadPrivate :=
  match s.sleepPqueue.findIdx? (fun c => (s.ctx c).prom = some p), s.sleepPqueue.getLast? with
  | some i, some back =>
    match s.sleepPqueue[i]? with
    | some c =>
      let s := s.modCtx c (fun k => { k with prom := none })
      { s with sleepPqueue := makeHeap s.sleepPriorityLess (s.sleepPqueue.set i back).dropLast }
    | none => s
  | _, _ => s

/-- `thread::notify` on its own thread. -/
def notify (s : ThreadPrivate) (p : PromId) : Option ThreadPrivate :=
  (notifyBlocked p (s.nctx + 1) s none s.blocked).map (notifySleep p)

/-- `new cmt_context`. -/
def newContext (s : ThreadPrivate) : CtxId × ThreadPrivate :=
  (s.nctx, { s.modCtx s.nctx (fun _ => {}) with nctx := s.nctx + 1 })

/-- `if( !my->current ) my->current = new cmt_context()`. -/
def ensureCurrent (s : ThreadPrivate) : CtxId × ThreadPrivate :=
  match s.current with
  | some c => (c, s)
  | none => let (c, s) := s.newContext; (c, { s with current := some c })

/-- What `thread::wait` writes before it calls `start_next_task`: context `cur` waits on `p` until `timeout`. -/
def waitOn (s : ThreadPrivate) (cur : CtxId) (p : PromId) (timeout : Int) : ThreadPrivate :=
  let s := s.modCtx cur (fun k => { k with prom := some p })
  let s := if timeout ≠ timePointMax then
      (s.modCtx cur (fun k => { k with resumeTime := timeout })).sleepPush cur
    else s
  s.addToBlocked cur

/-- What `thread::sleep_until` writes before it calls `start_next_task`. -/
def sleepOn (s : ThreadPrivate) (cur : CtxId) (tp : Int) : ThreadPrivate :=
  (s.modCtx cur (fun k => { k with resumeTime := tp, prom := none })).sleepPush cur

/-- `thread::current_priority`. -/
def currentPriority (s : ThreadPrivate) : Int :=
  match s.current with
  | some c => (s.ctx c).prio
  | none => 0

end ThreadPrivate

end BoostCmt
