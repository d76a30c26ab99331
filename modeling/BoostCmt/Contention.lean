import BoostCmt.Lib.Runs
import BoostCmt.World
/-!
# Contended locks inside the scheduler

`World` takes the locks that the scheduler itself takes to be free. Here is one
thread at the grain of single lock attempts: `check_for_timeouts` calls
`set_exception`, which locks the promise, and so do the two `ready()` assertions on
the way to `thread::notify`. A lock that is found taken calls `yield`, which enters
`start_next_task` again, on top of whatever the context is doing.

Every activation is a frame. `user` stands for `process_tasks` and for the code
outside the library, which may make any of the calls. Other threads may change a promise
and hold its mutex at any time.
-/

namespace BoostCmt.Contention

open Runs

inductive Frame where
  /-- `process_tasks`, or code outside the library. -/
  | user
  | wait (pc : WaitPc) (p : PromId) (timeout : Int)
  /-- Inside the `start_next_task()` of `sleep_until`. -/
  | sleep
  /-- Inside the `start_next_task(true)` of `yield`. -/
  | yield
  /-- `start_next_task`, up to the switch. -/
  | startNextTask (reschedule : Bool)
  /-- At the entry of `check_for_timeouts`. -/
  | checkForTimeouts
  /-- In the loop of `check_for_timeouts`, which has read the clock. -/
  | expire (now : Int)
  /-- `set_value` or `set_exception`, at its lock. -/
  | set (p : PromId) (o : Outcome Unit)
  /-- `promise_base::notify`, at its `ready()`. -/
  | notifyBase (p : PromId)
  /-- `thread::notify` of thread `t`, at its `ready()`. -/
  | notify (t : ThreadId) (p : PromId)
  /-- The first loop of `quit`, inside `set_exception` on the promise of `cur`. -/
  | quit (cur : CtxId)
  deriving DecidableEq, Repr

/-- One thread, number 0. `locked` says that another thread holds the mutex of a promise. -/
structure State where
  thr : ThreadPrivate := {}
  prom : PromId → Promise Unit := fun _ => {}
  locked : PromId → Bool := fun _ => false
  /-- The activations of the running context, the innermost first. -/
  stack : List Frame := [.user]
  myContext : CtxId → List Frame := fun _ => []
  now : Int := 0

/-- Calls that `process_tasks`, tasks and callbacks make. -/
inductive Call where
  | wait (p : PromId) (timeout : Int)
  | sleepUntil (tp : Int)
  /-- `yield`, and the `start_next_task(true)` of `process_tasks`. -/
  | yield
  | set (p : PromId) (o : Outcome Unit)
  /-- A posted `thread::notify` is run. -/
  | notify (p : PromId)
  | checkForTimeouts
  | dequeue (t₁ t₂ : Int)
  | quit
  deriving DecidableEq, Repr

inductive Act where
  /-- Other threads change a promise, and lock or unlock it. -/
  | other (p : PromId) (x : Promise Unit) (lk : Bool)
  /-- Some thread posts a task. -/
  | post (t : Task)
  /-- `task::cancel` reaches a context. -/
  | cancel (c : CtxId)
  | tick (t : Int)
  | call (c : Call)
  /-- The library code goes on. -/
  | run
  deriving DecidableEq, Repr

namespace State

def setThr (s : State) (t : ThreadPrivate) : State := { s with thr := t }

def setStack (s : State) (k : List Frame) : State := { s with stack := k }

def modProm (s : State) (p : PromId) (f : Promise Unit → Promise Unit) : State :=
  { s with prom := fun q => if q = p then f (s.prom q) else s.prom q }

/-- A call of `start_next_task` from the top of `k`. -/
def startNextTask (s : State) (reschedule : Bool) (k : List Frame) : State :=
  s.setStack (.checkForTimeouts :: .startNextTask reschedule :: k)

/-- `mutex::lock`: a taken mutex calls `yield` and is tried again. -/
def lock (s : State) (p : PromId) (f : State → Option State) : Option State :=
  if s.locked p then some (s.startNextTask true (.yield :: s.stack)) else f s

/-- `task_canceled` leaves everything up to `rtask::run`. -/
def unwind (k : List Frame) : List Frame := k.dropWhile (· ≠ .user)

def currentCanceled (s : State) : Bool :=
  match s.thr.current with
  | some c => (s.thr.ctx c).canceled
  | none => false

/-- The switch of `start_next_task`. -/
def switch (s : State) (reschedule : Bool) (saved : List Frame) : State :=
  let (cur, t) := s.thr.ensureCurrent
  let push (t : ThreadPrivate) := if reschedule then t.readyPushBack cur else t
  let s := { s with myContext := fun c => if c = cur then saved else s.myContext c }
  match t.readyPopFront with
  | (some next, t) => (s.setThr { push t with current := some next }).setStack (s.myContext next)
  | (none, t) =>
    let (next, t) := (push t).newContext
    (s.setThr { t with current := some next }).setStack [.user]

/-- The loops of `quit`, from context `cur` of the blocked list on. -/
def quitFrom (s : State) (k : List Frame) : Option CtxId → Option State
  | some c =>
    match (s.thr.ctx c).prom with
    | none => none
    | some p => some (s.setStack (.set p (.error .threadQuit) :: .quit c :: k))
  | none => do
    let t ← World.quitReady (s.thr.nctx + 1) s.thr s.thr.readyHead
    let t := t.sleepPqueue.foldl (fun t c => (t.modCtx c (fun x => { x with canceled := true })).readyPushFront c) t
    return (s.setThr { t with sleepPqueue := [], done := true }).setStack k

/-- A call made by the code at the bottom of the stack. -/
def stepCall (s : State) (k : List Frame) : Call → Option State
  | .wait p d => some (s.setStack (.wait .check p d :: k))
  | .sleepUntil tp =>
    if s.thr.done then some s
    else
      let (cur, t) := s.thr.ensureCurrent
      some ((s.setThr (t.sleepOn cur tp)).startNextTask false (.sleep :: k))
  | .yield => some (s.startNextTask true (.yield :: k))
  | .set p o => some (s.setStack (.set p o :: k))
  | .notify p => some (s.setStack (.notify 0 p :: k))
  | .checkForTimeouts => some (s.setStack (.checkForTimeouts :: k))
  | .dequeue t₁ t₂ => some (s.setThr (s.thr.dequeue t₁ t₂).2)
  | .quit => s.quitFrom k s.thr.blocked

def stepWait (s : State) (p : PromId) (d : Int) (k : List Frame) : WaitPc → Option State
  | .check => s.lock p fun s =>
    match (s.prom p).error, (s.prom p).value with
    | none, none =>
      some ((s.modProm p (fun q => { q with blockedThread := some 0 })).setStack (.wait .ready p d :: k))
    | _, _ => some (s.setStack k)
  | .ready => s.lock p fun s =>
    if (s.prom p).ready then some (s.setStack (.wait .finish p d :: k))
    else some (s.setStack (.wait .block p d :: k))
  | .block =>
    if d < s.now then some (s.setStack k)
    else
      let (cur, t) := s.thr.ensureCurrent
      some ((s.setThr (t.waitOn cur p d)).startNextTask false (.wait .resumed p d :: k))
  | .resumed =>
    if s.currentCanceled then some (s.setStack (unwind k))
    else
      let (cur, t) := s.thr.ensureCurrent
      some ((s.setThr (t.modCtx cur (fun c => { c with prom := none }))).setStack (.wait .finish p d :: k))
  | .finish => some ((s.modProm p (fun q => { q with error := none })).setStack k)

/-- One turn of the loop of `check_for_timeouts`. -/
def stepExpire (s : State) (now : Int) (k : List Frame) : State :=
  match s.thr.sleepPqueue with
  | [] => s.setStack k
  | c :: _ =>
    if now ≥ (s.thr.ctx c).resumeTime then
      let t := s.thr.sleepPop
      match (s.thr.ctx c).prom with
      | some p => (s.setThr t).setStack (.set p (.error .futureWaitTimeout) :: .expire now :: k)
      | none => s.setThr (t.readyPushBack c)
    else s.setStack k

/-- The library code goes on. -/
def stepRun (s : State) : Option State :=
  match s.stack with
  | .wait pc p d :: k => s.stepWait p d k pc
  | .sleep :: k =>
    if s.currentCanceled then some (s.setStack (unwind k))
    else
      let (cur, t) := s.thr.ensureCurrent
      some ((s.setThr (t.modCtx cur (fun c => { c with resumeTime := timePointMax }))).setStack k)
  | .yield :: k => if s.currentCanceled then some (s.setStack (unwind k)) else some (s.setStack k)
  | .startNextTask r :: k => some (s.switch r k)
  | .checkForTimeouts :: k =>
    if s.thr.sleepPqueue = [] ∧ s.thr.taskSchQueue = [] then some (s.setStack k)
    else if s.now < World.nextDeadline s.thr then some (s.setStack k)
    else some (s.setStack (.expire s.now :: k))
  | .expire now :: k => some (s.stepExpire now k)
  | .set p o :: k => s.lock p fun s =>
    match o with
    | .value v =>
      if (s.prom p).error.isSome then some (s.setStack k)
      else some ((s.modProm p (fun q => { q with value := some v })).setStack (.notifyBase p :: k))
    | .error e => some ((s.modProm p (fun q => { q with error := some e })).setStack (.notifyBase p :: k))
  | .notifyBase p :: k => s.lock p fun s =>
    match (s.prom p).blockedThread with
    | none => some (s.setStack k)
    | some t => some (s.setStack (.notify t p :: k))
  | .notify t p :: k => s.lock p fun s =>
    if t = 0 then (s.thr.notify p).map fun t => (s.setThr t).setStack k else some (s.setStack k)
  | .quit c :: k => s.quitFrom k (s.thr.ctx c).next
  | .user :: _ => none
  | [] => none

/-- What an action does. -/
def act (s : State) : Act → Option State
  | .other p x lk => some { s.modProm p (fun _ => x) with locked := fun q => if q = p then lk else s.locked q }
  | .post t => some (s.setThr { s.thr with taskInQueue := t :: s.thr.taskInQueue })
  | .cancel c => some (s.setThr (s.thr.modCtx c (fun k => { k with canceled := true })))
  | .tick t => if s.now ≤ t then some { s with now := t } else none
  | .call c =>
    match s.stack with
    | .user :: _ => s.stepCall s.stack c
    | _ => none
  | .run => s.stepRun

/-- One step. -/
def step (s : State) (a : Act) : Option (State × List Empty) := (s.act a).map (·, [])

/-! ## What stands on what -/

/-- The frames that a frame is called from. -/
def standsOn : Frame → Frame → Bool
  | .wait _ _ _, y => y = .user
  | .sleep, y => y = .user
  | .quit _, y => y = .user
  | .yield, y =>
    match y with
    | .wait .check _ _ => true
    | .wait .ready _ _ => true
    | .set _ _ => true
    | .notifyBase _ => true
    | .notify _ _ => true
    | .user => true
    | _ => false
  | .startNextTask true, y => y = .yield
  | .startNextTask false, y =>
    match y with
    | .wait .resumed _ _ => true
    | .sleep => true
    | _ => false
  | .checkForTimeouts, y => y = .user || (y matches .startNextTask _)
  | .expire _, y => y = .user || (y matches .startNextTask _)
  | .set _ _, y => y = .user || (y matches .expire _) || (y matches .quit _)
  | .notifyBase _, y => y = .user || (y matches .expire _) || (y matches .quit _)
  | .notify _ _, y => y = .user || (y matches .expire _) || (y matches .quit _)
  | .user, _ => false

/-- A stack of calls with `user` at its bottom; a context that has never run has none. -/
def shaped : List Frame → Bool
  | [] => true
  | [x] => x = .user
  | x :: y :: k => standsOn x y && shaped (y :: k)

/-- `wait` or `sleep_until` has put the running context on a list, and it has not been switched away from yet:
their `start_next_task` is still in `check_for_timeouts`. -/
def suspending (k : List Frame) : Bool := .startNextTask false ∈ k

/-- No `yield` inside a suspension. -/
def clean : List Frame → Bool
  | [] => true
  | .yield :: k => !suspending k && clean k
  | _ :: k => clean k

/-- The promise that the scheduler locks next. -/
def lockWanted : List Frame → Option PromId
  | .set p _ :: _ => some p
  | .notifyBase p :: _ => some p
  | .notify _ p :: _ => some p
  | _ => none

/-- A context that is being suspended finds the promises free whose waiters `check_for_timeouts` expires. -/
def timeoutLocksFree (s : State) : Bool :=
  match suspending s.stack, lockWanted s.stack with
  | true, some p => !s.locked p
  | _, _ => true

/-- A stack that may be run or saved. -/
def Sound (k : List Frame) : Prop := shaped k = true ∧ clean k = true

theorem Sound.tail {x : Frame} {k : List Frame} (h : Sound (x :: k)) : k = [] ∨ Sound k := by
  cases k with
  | nil => exact .inl rfl
  | cons y k =>
    obtain ⟨hs, hc⟩ := h
    simp only [shaped, Bool.and_eq_true] at hs
    refine .inr ⟨hs.2, ?_⟩
    cases x with
    | yield =>
      simp only [clean, Bool.and_eq_true] at hc
      exact hc.2
    | _ => exact hc

theorem sound_nil : Sound [] := ⟨rfl, rfl⟩

theorem Sound.tail' {x : Frame} {k : List Frame} (h : Sound (x :: k)) : Sound k :=
  h.tail.elim (fun e => e ▸ sound_nil) id

/-- Below `user` there is nothing. -/
theorem Sound.user {k : List Frame} (h : Sound (.user :: k)) : k = [] := by
  cases k with
  | nil => rfl
  | cons y k =>
    have := h.1
    simp [shaped, standsOn] at this

section Sound
variable {x y : Frame} {k : List Frame}

theorem clean_cons (hx : x ≠ .yield) : clean (x :: k) = clean k := by
  cases x with
  | yield => exact absurd rfl hx
  | _ => rfl

/-- A call of anything but `yield`. -/
theorem Sound.call (h : Sound (y :: k)) (hx : standsOn x y = true) (hne : x ≠ .yield) :
    Sound (x :: y :: k) :=
  ⟨by simp [shaped, hx, h.1], (clean_cons hne).trans h.2⟩

/-- A frame goes on as another one that the same frames call. -/
theorem Sound.become (h : Sound (x :: k)) (hu : x ≠ .user) (hxy : ∀ z, standsOn x z = true → standsOn y z = true)
    (hx : x ≠ .yield) (hy : y ≠ .yield) : Sound (y :: k) := by
  obtain ⟨hs, hc⟩ := h
  rw [clean_cons hx] at hc
  refine ⟨?_, (clean_cons hy).trans hc⟩
  cases k with
  | nil => exact absurd (by simpa [shaped] using hs) hu
  | cons z k =>
    simp only [shaped, Bool.and_eq_true] at hs ⊢
    exact ⟨hxy z hs.1, hs.2⟩

/-- A contended lock outside of a suspension. -/
theorem Sound.yield (h : Sound (x :: k)) (hx : standsOn .yield x = true) (hn : suspending (x :: k) = false) :
    Sound (.checkForTimeouts :: .startNextTask true :: .yield :: x :: k) := by
  have hy : Sound (.yield :: x :: k) := by
    refine ⟨by simp [shaped, hx, h.1], ?_⟩
    simp only [clean, hn, Bool.not_false, Bool.true_and]
    exact h.2
  refine ⟨by simpa [shaped, standsOn] using hy.1, ?_⟩
  rw [clean_cons (by simp), clean_cons (by simp)]
  exact hy.2

theorem Sound.unwind (h : Sound k) : Sound (unwind k) := by
  induction k with
  | nil => exact h
  | cons x k ih =>
    simp only [State.unwind, List.dropWhile_cons]
    split
    · exact ih h.tail'
    · exact h

/-- `promise::wait` is called from outside of any suspension. -/
theorem Sound.wait {pc : WaitPc} {p : PromId} {d : Int} (h : Sound (.wait pc p d :: k)) : k = [.user] := by
  cases k with
  | nil => simp [Sound, shaped] at h
  | cons y k =>
    have hy : y = .user := by
      have := h.1
      simp only [shaped, standsOn, Bool.and_eq_true, decide_eq_true_eq] at this
      exact this.1
    subst hy
    rw [h.tail'.user]

theorem sound_user : Sound [.user] := ⟨rfl, rfl⟩

theorem clean_append {k₁ : List Frame} (h : clean (k₁ ++ .yield :: k) = true) : .startNextTask false ∉ k := by
  induction k₁ with
  | nil =>
    simp only [List.nil_append, clean, Bool.and_eq_true, Bool.not_eq_true', suspending, decide_eq_false_iff_not] at h
    exact h.1
  | cons x k₁ ih =>
    by_cases hx : x = .yield
    · subst hx
      simp only [List.cons_append, clean, Bool.and_eq_true] at h
      exact ih h.2
    · rw [List.cons_append, clean_cons hx] at h
      exact ih h

end Sound

/-- Every stack of the thread is sound. -/
structure Inv (s : State) : Prop where
  stack : Sound s.stack
  saved : ∀ c, Sound (s.myContext c)

section Step
variable {s s' : State} {x : Frame} {k : List Frame}

theorem Inv.setStack (h : Inv s) (hk : Sound k) : Inv (s.setStack k) := ⟨hk, h.saved⟩

theorem Inv.of_eq (h : Inv s) (hk : s'.stack = s.stack) (hm : s'.myContext = s.myContext) : Inv s' :=
  ⟨hk ▸ h.stack, hm ▸ h.saved⟩

/-- A lock attempt, with what follows when it succeeds. -/
theorem Inv.lock {p : PromId} {f : State → Option State} (h : Inv s) (hk : s.stack = x :: k)
    (hx : standsOn .yield x = true) (hn : s.locked p = true → suspending s.stack = false)
    (hf : ∀ s', f s = some s' → Inv s') (hs : s.lock p f = some s') : Inv s' := by
  simp only [State.lock] at hs
  split at hs
  · next hl =>
    obtain rfl := Option.some.inj hs
    refine ⟨?_, h.saved⟩
    have hS := h.stack
    have hn := hn hl
    rw [hk] at hS hn
    simp only [State.startNextTask, State.setStack, hk]
    exact hS.yield hx hn
  · exact hf s' hs

theorem Inv.switch (h : Inv s) (hk : Sound k) (r : Bool) : Inv (s.switch r k) := by
  have hm : ∀ c cur, Sound (if c = cur then k else s.myContext c) := by
    intro c cur
    split
    · exact hk
    · exact h.saved c
  simp only [State.switch]
  split
  · exact ⟨hm _ _, fun c => hm c _⟩
  · exact ⟨sound_user, fun c => hm c _⟩

theorem Inv.quitFrom {c : Option CtxId} (h : Inv s) (hs : s.quitFrom [.user] c = some s') : Inv s' := by
  cases c with
  | some c =>
    simp only [State.quitFrom] at hs
    split at hs
    · cases hs
    · obtain rfl := Option.some.inj hs
      exact ⟨⟨rfl, rfl⟩, h.saved⟩
  | none =>
    simp only [State.quitFrom, Option.bind_eq_bind, Option.bind_eq_some_iff] at hs
    obtain ⟨t, -, hs⟩ := hs
    obtain rfl := Option.some.inj hs
    exact ⟨sound_user, h.saved⟩

theorem Inv.stepCall {c : Call} (h : Inv s) (hs : s.stepCall [.user] c = some s') : Inv s' := by
  cases c with
  | sleepUntil tp =>
    simp only [State.stepCall] at hs
    split at hs
    · obtain rfl := Option.some.inj hs
      exact h
    · obtain rfl := Option.some.inj hs
      exact ⟨⟨rfl, rfl⟩, h.saved⟩
  | dequeue t₁ t₂ =>
    obtain rfl := Option.some.inj hs
    exact ⟨h.stack, h.saved⟩
  | quit => exact h.quitFrom hs
  | _ =>
    obtain rfl := Option.some.inj hs
    exact ⟨⟨rfl, rfl⟩, h.saved⟩

theorem Inv.stepWait {p : PromId} {d : Int} {pc : WaitPc} (h : Inv s) (hk : s.stack = .wait pc p d :: k)
    (hs : s.stepWait p d k pc = some s') : Inv s' := by
  have hS := h.stack
  rw [hk] at hS
  have hu := hS.wait
  subst hu
  have hn : ∀ q, s.locked q = true → suspending s.stack = false := fun _ _ => by rw [hk]; rfl
  have hw : ∀ (pc : WaitPc) (t : State), Inv t → Inv (t.setStack [.wait pc p d, .user]) := fun _ _ ht =>
    ht.setStack ⟨rfl, rfl⟩
  cases pc with
  | check =>
    simp only [State.stepWait] at hs
    refine h.lock hk rfl (hn p) (fun s' hs => ?_) hs
    split at hs <;> obtain rfl := Option.some.inj hs
    · exact hw _ _ (h.of_eq rfl rfl)
    · exact h.setStack sound_user
  | ready =>
    simp only [State.stepWait] at hs
    refine h.lock hk rfl (hn p) (fun s' hs => ?_) hs
    split at hs <;> obtain rfl := Option.some.inj hs
    · exact hw _ _ h
    · exact hw _ _ h
  | block =>
    simp only [State.stepWait] at hs
    split at hs <;> obtain rfl := Option.some.inj hs
    · exact h.setStack sound_user
    · exact ⟨⟨rfl, rfl⟩, h.saved⟩
  | resumed =>
    simp only [State.stepWait] at hs
    split at hs <;> obtain rfl := Option.some.inj hs
    · exact h.setStack sound_user
    · exact hw _ _ (h.of_eq rfl rfl)
  | finish =>
    obtain rfl := Option.some.inj hs
    exact ⟨sound_user, h.saved⟩

theorem Inv.stepExpire {now : Int} (h : Inv s) (hk : s.stack = .expire now :: k) : Inv (s.stepExpire now k) := by
  have hS := h.stack
  rw [hk] at hS
  simp only [State.stepExpire]
  split
  · exact h.setStack hS.tail'
  · split
    · split
      · exact ⟨hS.call rfl (by simp), h.saved⟩
      · exact h.of_eq rfl rfl
    · exact h.setStack hS.tail'

theorem Inv.stepRun (h : Inv s) (hl : s.timeoutLocksFree = true) (hs : s.stepRun = some s') : Inv s' := by
  have hS := h.stack
  -- a lock of the scheduler that is found taken is not inside a suspension
  have hfree : ∀ p, lockWanted s.stack = some p → s.locked p = true → suspending s.stack = false := by
    intro p hp hlk
    cases hsus : suspending s.stack with
    | false => rfl
    | true =>
      simp only [timeoutLocksFree, hsus, hp, hlk] at hl
      cases hl
  simp only [State.stepRun] at hs
  split at hs
  · next pc p d k hk => exact h.stepWait hk hs
  · next k hk =>
    rw [hk] at hS
    split at hs <;> obtain rfl := Option.some.inj hs
    · exact h.setStack hS.tail'.unwind
    · exact ⟨hS.tail', h.saved⟩
  · next k hk =>
    rw [hk] at hS
    split at hs <;> obtain rfl := Option.some.inj hs
    · exact h.setStack hS.tail'.unwind
    · exact h.setStack hS.tail'
  · next r k hk =>
    rw [hk] at hS
    obtain rfl := Option.some.inj hs
    exact h.switch hS.tail' r
  · next k hk =>
    rw [hk] at hS
    split at hs
    · obtain rfl := Option.some.inj hs
      exact h.setStack hS.tail'
    · split at hs <;> obtain rfl := Option.some.inj hs
      · exact h.setStack hS.tail'
      · exact h.setStack (hS.become (by simp) (fun z hz => hz) (by simp) (by simp))
  · next now k hk =>
    obtain rfl := Option.some.inj hs
    exact h.stepExpire hk
  · next p o k hk =>
    rw [hk] at hS
    have hb : Sound (.notifyBase p :: k) := hS.become (by simp) (fun z hz => hz) (by simp) (by simp)
    refine h.lock hk rfl (hfree p (by rw [hk]; rfl)) (fun s' hs => ?_) hs
    split at hs
    · split at hs <;> obtain rfl := Option.some.inj hs
      · exact h.setStack hS.tail'
      · exact ⟨hb, h.saved⟩
    · obtain rfl := Option.some.inj hs
      exact ⟨hb, h.saved⟩
  · next p k hk =>
    rw [hk] at hS
    refine h.lock hk rfl (hfree p (by rw [hk]; rfl)) (fun s' hs => ?_) hs
    split at hs <;> obtain rfl := Option.some.inj hs
    · exact h.setStack hS.tail'
    · exact h.setStack (hS.become (by simp) (fun z hz => hz) (by simp) (by simp))
  · next t p k hk =>
    rw [hk] at hS
    refine h.lock hk rfl (hfree p (by rw [hk]; rfl)) (fun s' hs => ?_) hs
    split at hs
    · obtain ⟨t, -, rfl⟩ := Option.map_eq_some_iff.1 hs
      exact ⟨hS.tail', h.saved⟩
    · obtain rfl := Option.some.inj hs
      exact h.setStack hS.tail'
  · next c k hk =>
    rw [hk] at hS
    have hu : k = [.user] := by
      cases k with
      | nil => simp [Sound, shaped] at hS
      | cons y k =>
        have := hS.1
        simp only [shaped, standsOn, Bool.and_eq_true, decide_eq_true_eq] at this
        obtain ⟨rfl, -⟩ := this
        rw [hS.tail'.user]
    subst hu
    exact h.quitFrom hs
  · cases hs
  · cases hs

theorem Inv.step {a : Act} {e : List Empty} (h : Inv s) (hl : s.timeoutLocksFree = true)
    (hs : s.step a = some (s', e)) : Inv s' := by
  obtain ⟨s₁, hact, heq⟩ := Option.map_eq_some_iff.1 hs
  obtain ⟨rfl, -⟩ := Prod.mk.inj heq
  clear hs heq
  cases a with
  | tick t =>
    simp only [State.act] at hact
    split at hact
    · obtain rfl := Option.some.inj hact
      exact h.of_eq rfl rfl
    · cases hact
  | call c =>
    simp only [State.act] at hact
    split at hact
    · next k hk =>
      have hS := h.stack
      rw [hk] at hS
      have hu := hS.user
      subst hu
      rw [hk] at hact
      exact h.stepCall hact
    · cases hact
  | run => exact h.stepRun hl hact
  | _ =>
    obtain rfl := Option.some.inj hact
    exact h.of_eq rfl rfl

end Step

/-- While contexts that are being suspended find the promises free whose waiters have expired, no context is inside
`yield` and on the way to be suspended by `wait` or `sleep_until`: neither the running one, nor one that was
switched away from. -/
theorem no_yield_while_suspending {s : State} {es : List Empty}
    (h : Run step (fun _ s _ _ => s.timeoutLocksFree = true) {} s es) (k₁ k : List Frame)
    (hk : s.stack = k₁ ++ .yield :: k ∨ ∃ c, s.myContext c = k₁ ++ .yield :: k) : .startNextTask false ∉ k := by
  have hI : Inv s := h.inv (fun _ s => Inv s) ⟨sound_user, fun _ => sound_nil⟩
    (fun _ _ _ _ _ hI hl hs => hI.step hl hs)
  rcases hk with hk | ⟨c, hk⟩
  · exact clean_append (hk ▸ hI.stack.2)
  · exact clean_append (hk ▸ (hI.saved c).2)

/-- Another context calls `check_for_timeouts` and finds the promise of an expired waiter taken. -/
theorem no_yield_while_suspending_contended : ∃ (s : State) (es : List Empty) (k : List Frame),
    (Run step (fun _ s _ _ => s.timeoutLocksFree = true) {} s es ∧
      s.stack = [.checkForTimeouts, .startNextTask true] ++ .yield :: k) ∧ .startNextTask false ∉ k := by
  obtain ⟨s, es, hrun, hf⟩ := run_of_check step (fun _ s _ _ => s.timeoutLocksFree = true)
    (fun _ s _ _ => s.timeoutLocksFree) ({} : State)
    (fun s _ => s.stack ==
      [.checkForTimeouts, .startNextTask true, .yield, .set 0 (.error .futureWaitTimeout), .expire 15, .user])
    [.call (.wait 0 10), .run, .run, .run, .run, .run, .tick 15, .call .checkForTimeouts, .run, .run,
      .other 0 { blockedThread := some 0 } true, .run]
    (fun _ _ _ _ h => h) (by decide)
  have hstack := beq_iff_eq.1 hf
  exact ⟨s, es, [.set 0 (.error .futureWaitTimeout), .expire 15, .user], ⟨hrun, hstack⟩,
    no_yield_while_suspending hrun [.checkForTimeouts, .startNextTask true] _ (.inl hstack)⟩

/-- Context 1 is in the blocked list already when its `check_for_timeouts` finds the promise of context 0 taken: it
yields, and is then in the ready list and in the blocked list. -/
theorem yield_inside_wait : (∃ (s : State) (es : List Empty) (k₁ k : List Frame), Run step (fun _ _ _ _ => True) {} s es ∧
    s.stack = k₁ ++ .yield :: k ∧ .startNextTask false ∈ k ∧ s.thr.blocked = some 1) ∧
    ∃ (s : State) (es : List Empty), Run step (fun _ _ _ _ => True) {} s es ∧
      s.thr.readyHead = some 1 ∧ s.thr.blocked = some 1 := by
  constructor
  · obtain ⟨s, es, hrun, hf⟩ := run_of_check step (fun _ _ _ _ => True) (fun _ _ _ _ => true) ({} : State)
      (fun s _ => s.stack == [.checkForTimeouts, .startNextTask true, .yield, .set 0 (.error .futureWaitTimeout), .expire 15,
        .startNextTask false, .wait .resumed 1 timePointMax, .user] && s.thr.blocked == some 1)
      [.call (.wait 0 10), .run, .run, .run, .run, .run, .call (.wait 1 timePointMax), .run, .run, .tick 15, .run, .run, .run,
        .other 0 { blockedThread := some 0 } true, .run]
      (fun _ _ _ _ _ => trivial) (by decide)
    simp only [Bool.and_eq_true, beq_iff_eq] at hf
    exact ⟨s, es, [.checkForTimeouts, .startNextTask true], _, hrun, hf.1, by simp, hf.2⟩
  · obtain ⟨s, es, hrun, hf⟩ := run_of_check step (fun _ _ _ _ => True) (fun _ _ _ _ => true) ({} : State)
      (fun s _ => s.thr.readyHead == some 1 && s.thr.blocked == some 1)
      [.call (.wait 0 10), .run, .run, .run, .run, .run, .call (.wait 1 timePointMax), .run, .run, .tick 15, .run, .run, .run,
        .other 0 { blockedThread := some 0 } true, .run, .run, .run]
      (fun _ _ _ _ _ => trivial) (by decide)
    simp only [Bool.and_eq_true, beq_iff_eq] at hf
    exact ⟨s, es, hrun, hf.1, hf.2⟩

end State

end BoostCmt.Contention
