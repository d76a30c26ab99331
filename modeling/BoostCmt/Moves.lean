import BoostCmt.Lists
import BoostCmt.Queues
import BoostCmt.World
/-!
# What a step can do

A step of a thread is a sequence of moves. Each move rewrites the top of the stack
the thread executes, or changes one piece of the scheduler state, a promise or a
task. `step_moves` takes every step apart into moves, so that an invariant is
proved by looking at each kind of move once.

`Phase` says where in a step a thread is. What the top of its stack asks for comes
first, at the state the step starts from. After that a thread can be in a state
that no other thread sees: its running context has put itself on a list and is
not switched away from yet, or it holds a task that it has taken from its queues
and not started.
-/

namespace BoostCmt

open ThreadPrivate

variable {V : Type}

/-- Where a thread is between two moves of one step. -/
inductive Phase where
  /-- Only the clock has moved. -/
  | start
  | out
  /-- The running context is on a list already. -/
  | suspended
  /-- `next` is the task `t`. -/
  | hand (t : Task)
  deriving DecidableEq

/-- Whose step an action is. -/
def Action.thread : Action V → ThreadId
  | .tick _ => 0
  | .call i _ _ => i
  | .finish i _ => i
  | .run i _ _ _ => i
  | .contend i _ => i

namespace World

@[simp] theorem setThr_thr (w : World V) (i j : ThreadId) (s : ThreadPrivate) :
    (w.setThr i s).thr j = if j = i then s else w.thr j := rfl

@[simp] theorem setCpu_cpu (w : World V) (i j : ThreadId) (k : List (Frame V)) :
    (w.setCpu i k).cpu j = if j = i then k else w.cpu j := rfl

@[simp] theorem setThr_setThr (w : World V) (i : ThreadId) (s s' : ThreadPrivate) :
    (w.setThr i s).setThr i s' = w.setThr i s' := by
  simp only [setThr, World.mk.injEq, and_true]
  funext j
  split <;> rfl

@[simp] theorem setCpu_setCpu (w : World V) (i : ThreadId) (k k' : List (Frame V)) :
    (w.setCpu i k).setCpu i k' = w.setCpu i k' := by
  simp only [setCpu, World.mk.injEq, true_and, and_true]
  funext j
  split <;> rfl

/-- The context whose stack thread `i` executes. The first context of a thread is number 0. -/
def cur (w : World V) (i : ThreadId) : CtxId := (w.thr i).current.getD 0

/-- The stack of a context, running or suspended. -/
def stack (w : World V) (i : ThreadId) (c : CtxId) : List (Frame V) :=
  if c = w.cur i then w.cpu i else w.myContext i c

/-- Only the clock has moved since `w₀`. -/
def AtStart (w₀ w : World V) : Prop := ∃ t, w₀.now ≤ t ∧ w = w₀.setNow t

/-- Code outside the library is on top of the stack. -/
def external : List (Frame V) → Prop
  | .user :: _ => True
  | .task _ :: _ => True
  | _ => False

/-- Moves that only rewrite the running stack. -/
inductive Local (w : World V) (i : ThreadId) : List (Frame V) → List (Frame V) → List (Event V) → Prop
  | callWait {p d k} : external k → w.shared p → Local w i k (.wait .check p d :: k) [.waitStart i p d]
  | callSet {p o k} : external k → w.shared p → Local w i k (.set .store p o false :: k) [.setStart p o]
  | callExec {k} : external k → Local w i k (.processTasks .start 0 :: k) []
  | startYield {k} : external k ∨ locks k → Local w i k (.yield :: k) []
  | finishSet {t p o b k} : t.body = .rtask p → Local w i (.task t :: k) (.set .store p o b :: k) [.setStart p o]
  | finishTask {t k} : (∀ p, t.body ≠ .rtask p) → Local w i (.task t :: k) k []
  | exit {pc tm k} : pc = .top ∨ pc = .tests → (w.thr i).done = true → Local w i (.processTasks pc tm :: k) k []
  | again {tm k} : tm = timePointMin → Local w i (.processTasks .tests tm :: k) (.processTasks .top tm :: k) []
  | toLock {tm k} : tm ≠ timePointMin → (w.thr i).readyHead = none →
      Local w i (.processTasks .tests tm :: k) (.processTasks .lock tm :: k) []
  | toSwitch {tm k} : tm ≠ timePointMin → (w.thr i).readyHead ≠ none →
      Local w i (.processTasks .tests tm :: k) (.processTasks .switched tm :: k) []
  | wakeup {tm k} : Local w i (.processTasks .sleeping tm :: k) (.processTasks .top tm :: k) []
  | raiseSwitched {tm k} : w.currentCanceled i → Local w i (.processTasks .switched tm :: k) k (w.raise i)
  | checkError {p d k e} : (w.prom p).error = some e →
      Local w i (.wait .check p d :: k) k [.waitDone i p d false (.error e)]
  | checkValue {p d k v} : (w.prom p).error = none → (w.prom p).value = some v →
      Local w i (.wait .check p d :: k) k [.waitDone i p d false (.value v)]
  | isReady {p d k} : (w.prom p).ready = true → Local w i (.wait .ready p d :: k) (.wait .finish p d :: k) []
  | notReady {p d k} : (w.prom p).ready = false → Local w i (.wait .ready p d :: k) (.wait .block p d :: k) []
  | late {p d k} : d < w.now →
      Local w i (.wait .block p d :: k) k [.waitDone i p d true (.error .futureWaitTimeout)]
  | raiseWait {p d k} : w.currentCanceled i →
      Local w i (.wait .resumed p d :: k) k (w.raise i ++ [.waitDone i p d true (.error .taskCanceled)])
  | finishValue {p d k v} : (w.prom p).error = none → (w.prom p).value = some v →
      Local w i (.wait .finish p d :: k) k [.waitDone i p d true (.value v)]
  | finishNone {p d k} : (w.prom p).error = none → (w.prom p).value = none →
      Local w i (.wait .finish p d :: k) k [.waitDone i p d true (.error .futureValueNotReady)]
  | drop {p v b k} : (w.prom p).error.isSome = true →
    Local w i (.set .store p (.value v) b :: k) k [.setDone p (.value v)]
  | notifyNone {p o b k} : (w.prom p).blockedThread = none → Local w i (.set .notify p o b :: k) k [.setDone p o]
  | notifyRead {p o b k t} : (w.prom p).blockedThread = some t →
      Local w i (.set .notify p o b :: k) (.set (.post t) p o b :: k) []
  | raiseSleep {k} : w.currentCanceled i → Local w i (.sleep :: k) k (w.raise i)
  | raiseYield {k} : w.currentCanceled i → Local w i (.yield :: k) (unwind i k).1 (w.raise i ++ (unwind i k).2)
  | yielded {k} : w.currentCanceled i = false → Local w i (.yield :: k) k []
  | syncDone {p t k} : Local w i (.sync p t :: k) k [.syncDone i p t]

/-- What `check_for_timeouts` returns once the expired sleepers are gone. -/
def Checked (w : World V) (i : ThreadId) (tm : Int) : Prop :=
  tm = timePointMin ∨ (w.now < nextDeadline (w.thr i) ∧ tm = nextDeadline (w.thr i)) ∨
    ((w.thr i).sleepPqueue = [] ∧ (w.thr i).taskSchQueue = [] ∧ tm = timePointMax)

/-- `process_tasks` looks at `done` after the `dequeue` that is next, and `done` is set. -/
def SeesDone (w : World V) (i : ThreadId) : Prop :=
  (w.thr i).done = true ∧
    ∃ pc tm k, w.cpu i = .processTasks pc tm :: k ∧ (pc = .start ∨ pc = .switched ∨ pc = .lock)

/-- The moves of thread `i` in a step from `w₀`. -/
inductive Move (w₀ : World V) (i : ThreadId) : Phase → World V → Phase → World V → List (Event V) → Prop
  | clock {ph w t} : w.now ≤ t → t ≤ timePointMax → Move w₀ i ph w ph (w.setNow t) []
  | go {w} : Move w₀ i .start w .out w []
  | stackTop {w k' es} : AtStart w₀ w → Local w i (w.cpu i) k' es → Move w₀ i .start w .out (w.setCpu i k') es
  | newPromise {w} : Move w₀ i .start w .out (w.newPromise none false).2 []
  | async {w} (j : ThreadId) (when prio : Int) : AtStart w₀ w →
      Move w₀ i .start w .out
        (((w.newTask when prio (.rtask w.promCount) 1).2.newPromise
          (some (w.newTask when prio (.rtask w.promCount) 1).1.postedNum) false).2.async j
            (w.newTask when prio (.rtask w.promCount) 1).1) []
  | asyncVoid {w} (j : ThreadId) (when prio : Int) : AtStart w₀ w →
      Move w₀ i .start w .out ((w.newTask when prio .vtask 1).2.async j (w.newTask when prio .vtask 1).1) []
  | cancel {w n p} : external (w.cpu i) → w.shared p → (w.prom p).ready = false → (w.prom p).task = some n →
      Move w₀ i .start w .out (w.cancelTask n) []
  | quit {w w'} : w.quit i = some w' → Move w₀ i .start w .out w' [.quitted i]
  | sync {w} (ov : SyncOverload) (j : ThreadId) (prio d : Int) : AtStart w₀ w → external (w.cpu i) →
      Move w₀ i .start w .out
        ((((w.newTask timePointMin prio (.rtask w.promCount) (1 + ov.retains)).2.newPromise
          (some (w.newTask timePointMin prio (.rtask w.promCount) (1 + ov.retains)).1.postedNum) true).2.async j
            (w.newTask timePointMin prio (.rtask w.promCount) (1 + ov.retains)).1).setCpu i
              (.wait .check w.promCount d ::
                .sync w.promCount (w.newTask timePointMin prio (.rtask w.promCount) (1 + ov.retains)).1 :: w.cpu i))
        [.waitStart i w.promCount d]
  | sleepOn {w} (tp : Int) : AtStart w₀ w → external (w.cpu i) →
      Move w₀ i .start w .suspended
        ((w.setThr i ((w.thr i).ensureCurrent.2.sleepOn (w.thr i).ensureCurrent.1 tp)).setCpu i (.sleep :: w.cpu i)) []
  | waitOn {w p d k} : AtStart w₀ w → w.cpu i = .wait .block p d :: k → ¬ d < w.now →
      Move w₀ i .start w .suspended
        ((w.setThr i ((w.thr i).ensureCurrent.2.waitOn (w.thr i).ensureCurrent.1 p d)).setCpu i
          (.wait .resumed p d :: k)) []
  | expireSleep {ph w c v} : ph ≠ .start → (w.thr i).sleepPqueue = c :: v → ((w.thr i).ctx c).resumeTime ≤ w.now →
      ((w.thr i).ctx c).prom = none →
      Move w₀ i ph w ph (w.setThr i ((w.thr i).sleepPop.readyPushBack c)) []
  | expireWait {ph w w' c v p} : ph ≠ .start → (w.thr i).sleepPqueue = c :: v →
    ((w.thr i).ctx c).resumeTime ≤ w.now →
      ((w.thr i).ctx c).prom = some p →
      (w.setThr i (w.thr i).sleepPop).setException i p .futureWaitTimeout = some w' →
      Move w₀ i ph w ph w' [.expired i c p]
  | switch {w} : Move w₀ i .suspended w .out (w.switch i false (w.cpu i)) []
  | reschedule {w k f} : w.cpu i = f :: k → f = .yield ∨ (∃ tm, f = .processTasks .switched tm) →
      w.cur i = w₀.cur i → Move w₀ i .out w .out (w.switch i true (w.cpu i)) []
  | dequeue {w pc tm k t₁ t₂ t s} : w.cpu i = .processTasks pc tm :: k →
      pc = .start ∨ pc = .again ∨ pc = .switched ∨ pc = .lock → w.now ≤ t₁ → t₁ ≤ t₂ →
      (w.thr i).dequeue t₁ t₂ = (some t, s) → Move w₀ i .out w (.hand t) (w.setThr i s) []
  | drain {w pc pc' tm k t₁ t₂ s es} : w.cpu i = .processTasks pc tm :: k →
      (pc = .start ∧ pc' = .top ∧ es = []) ∨ (pc = .again ∧ pc' = .tests ∧ es = []) ∨
        (pc = .switched ∧ pc' = .lock ∧ es = []) ∨
        (pc = .lock ∧ pc' = .sleeping ∧
          es = [.parked i (if tm = timePointMax then none else some (toSystemTime tm))]) →
      w.now ≤ t₁ → t₁ ≤ t₂ → (w.thr i).dequeue t₁ t₂ = (none, s) →
      Move w₀ i .out w .out ((w.setThr i s).setCpu i (.processTasks pc' tm :: k)) es
  | check {ph w pc pc' tm tm' k} : w.cpu i = .processTasks pc tm :: k →
      (ph = .out ∧ pc = .top ∧ pc' = .tests) ∨ (pc' = pc ∧ ((ph = .out ∧ pc = .again) ∨ ∃ t, ph = .hand t)) →
      Checked w i tm' →
      Move w₀ i ph w ph (w.setCpu i (.processTasks pc' tm' :: k)) []
  | abandon {w t pc tm k} : w.cpu i = .processTasks pc tm :: k → (w.thr i).done = true → SeesDone w₀ i →
      Move w₀ i (.hand t) w .out (w.setCpu i k) []
  | runTask {w w' t pc tm k es} : w.cpu i = .processTasks pc tm :: k → w.runTask i t tm k = some (w', es) →
      Move w₀ i (.hand t) w .out w' es
  | ran {w t tm k} : w.cpu i = .processTasks (.running t) tm :: k →
      Move w₀ i .start w .out ((w.modCell t.postedNum (fun c => { c with activeContext := none })).setCpu i
        (.processTasks (.release t) tm :: k)) []
  | release {w t tm k} : w.cpu i = .processTasks (.release t) tm :: k →
      Move w₀ i .start w .out ((w.release t).setCpu i (.processTasks .again tm :: k)) []
  | enqueueThread {w p d k} : AtStart w₀ w → w.cpu i = .wait .check p d :: k → (w.prom p).error = none →
      (w.prom p).value = none →
      Move w₀ i .start w .out ((w.modProm p (fun q => { q with blockedThread := some i })).setCpu i
        (.wait .ready p d :: k)) []
  | resumeWait {w p d k} : AtStart w₀ w → w.cpu i = .wait .resumed p d :: k → w.currentCanceled i = false →
      Move w₀ i .start w .out ((w.setThr i ((w.thr i).ensureCurrent.2.modCtx (w.thr i).ensureCurrent.1
        (fun c => { c with prom := none }))).setCpu i (.wait .finish p d :: k)) []
  | finishError {w p d k e} : AtStart w₀ w → w.cpu i = .wait .finish p d :: k → (w.prom p).error = some e →
      Move w₀ i .start w .out ((w.modProm p (fun q => { q with error := none })).setCpu i k)
        [.waitDone i p d true (.error e)]
  | storeValue {w p v b k} : AtStart w₀ w → w.cpu i = .set .store p (.value v) b :: k → (w.prom p).error = none →
      Move w₀ i .start w .out ((w.modProm p (fun q => { q with value := some v })).setCpu i
        (.set .notify p (.value v) b :: k)) [.stored p (.value v)]
  | storeError {w p e b k} : AtStart w₀ w → w.cpu i = .set .store p (.error e) b :: k →
      Move w₀ i .start w .out ((w.modProm p (fun q => { q with error := some e })).setCpu i
        (.set .notify p (.error e) b :: k)) [.stored p (.error e)]
  | post {w w' p o b k t} : AtStart w₀ w → w.cpu i = .set (.post t) p o b :: k → w.notify i t p = some w' →
      Move w₀ i .start w .out (w'.setCpu i k) [.setDone p o]
  | resumeSleep {w k} : w.cpu i = .sleep :: k → w.currentCanceled i = false →
      Move w₀ i .start w .out ((w.setThr i ((w.thr i).ensureCurrent.2.modCtx (w.thr i).ensureCurrent.1
        (fun c => { c with resumeTime := timePointMax }))).setCpu i k) []

/-- Sequences of moves. -/
inductive Moves (w₀ : World V) (i : ThreadId) : Phase → World V → Phase → World V → List (Event V) → Prop
  | nil {ph w} : Moves w₀ i ph w ph w []
  | cons {ph w ph₁ w₁ ph₂ w₂ e es} : Move w₀ i ph w ph₁ w₁ e → Moves w₀ i ph₁ w₁ ph₂ w₂ es →
      Moves w₀ i ph w ph₂ w₂ (e ++ es)

theorem Moves.single {w₀ w w' : World V} {i : ThreadId} {ph ph' : Phase} {e : List (Event V)}
    (h : Move w₀ i ph w ph' w' e) : Moves w₀ i ph w ph' w' e := by
  simpa using Moves.cons h .nil

theorem Moves.append {w₀ w w₁ w₂ : World V} {i : ThreadId} {ph ph₁ ph₂ : Phase} {e₁ e₂ : List (Event V)}
    (h₁ : Moves w₀ i ph w ph₁ w₁ e₁) (h₂ : Moves w₀ i ph₁ w₁ ph₂ w₂ e₂) : Moves w₀ i ph w ph₂ w₂ (e₁ ++ e₂) := by
  induction h₁ with
  | nil => simpa using h₂
  | cons h _ ih => rw [List.append_assoc]; exact .cons h (ih h₂)

/-- A property of phases and states that every move keeps holds after every sequence of moves. -/
theorem Moves.inv {w₀ w w' : World V} {i : ThreadId} {ph ph' : Phase} {es : List (Event V)}
    (I : Phase → World V → Prop)
    (hI : ∀ ph w ph' w' e, Move w₀ i ph w ph' w' e → (∀ x ∈ e, x ∈ es) → I ph w → I ph' w')
    (h : Moves w₀ i ph w ph' w' es) (h₀ : I ph w) : I ph' w' := by
  induction h with
  | nil => exact h₀
  | cons hm _ ih =>
    refine ih (fun ph w ph' w' e hm' he => hI ph w ph' w' e hm' (fun x hx => ?_)) (hI _ _ _ _ _ hm ?_ h₀)
    · exact List.mem_append_right _ (he x hx)
    · exact fun x hx => List.mem_append_left _ hx

/-- The same for properties that also speak of the events of the step so far. -/
theorem Moves.inv_events {w₀ w w' : World V} {i : ThreadId} {ph ph' : Phase} {es : List (Event V)}
    (es₀ : List (Event V)) (I : List (Event V) → Phase → World V → Prop)
    (hI : ∀ es₀ ph w ph' w' e, Move w₀ i ph w ph' w' e → (∀ x ∈ e, x ∈ es) → I es₀ ph w → I (es₀ ++ e) ph' w')
    (h : Moves w₀ i ph w ph' w' es) (h₀ : I es₀ ph w) : I (es₀ ++ es) ph' w' := by
  induction h generalizing es₀ with
  | nil => rwa [List.append_nil]
  | cons hm _ ih =>
    rw [← List.append_assoc]
    refine ih _ (fun es₀ ph w ph' w' e hm' he => hI es₀ ph w ph' w' e hm' (fun x hx => ?_))
      (hI _ _ _ _ _ _ hm ?_ h₀)
    · exact List.mem_append_right _ (he x hx)
    · exact fun x hx => List.mem_append_left _ hx

/-- Each event belongs to a move. -/
theorem Moves.mem {w₀ w w' : World V} {i : ThreadId} {ph ph' : Phase} {es : List (Event V)} {x : Event V}
    (h : Moves w₀ i ph w ph' w' es) (hx : x ∈ es) : ∃ ph₁ w₁ ph₂ w₂ e, Move w₀ i ph₁ w₁ ph₂ w₂ e ∧ x ∈ e := by
  induction h with
  | nil => cases hx
  | cons hm _ ih =>
    rcases List.mem_append.1 hx with hx | hx
    · exact ⟨_, _, _, _, _, hm, hx⟩
    · exact ih hx

/-! ## Taking the functions of the scheduler apart -/

section Parts
variable {w₀ w w' : World V} {i : ThreadId} {ph : Phase} {es : List (Event V)}

theorem expire_moves {fuel : Nat} (hph : ph ≠ .start) (h : expire i fuel w = some (w', es)) :
    Moves w₀ i ph w ph w' es := by
  induction fuel generalizing w es with
  | zero => simp [expire] at h
  | succ fuel ih =>
    simp only [expire] at h
    split at h
    · obtain ⟨rfl, rfl⟩ : w = w' ∧ [] = es := by simpa using h
      exact .nil
    · next c v hq =>
      split at h
      · next hnow =>
        split at h
        · next p hp =>
          simp only [Option.bind_eq_bind, Option.bind_eq_some_iff] at h
          obtain ⟨w₂, hw₂, ⟨w₃, es₃⟩, h₃, he⟩ := h
          obtain ⟨rfl, rfl⟩ : w₃ = w' ∧ Event.expired i c p :: es₃ = es := by simpa using he
          exact .cons (.expireWait hph hq hnow hp hw₂) (ih h₃)
        · next hp =>
          refine .cons (.expireSleep hph hq hnow hp) (ih ?_)
          rw [setThr_setThr, setThr_thr, if_pos rfl] at h
          exact h
      · obtain ⟨rfl, rfl⟩ : w = w' ∧ [] = es := by simpa using h
        exact .nil

theorem checkForTimeouts_moves (w₀ : World V) {tm : Int} (hph : ph ≠ .start)
    (h : w.checkForTimeouts i = some (tm, w', es)) :
    Moves w₀ i ph w ph w' es ∧ Checked w' i tm := by
  simp only [checkForTimeouts] at h
  split at h
  · next hq =>
    obtain ⟨rfl, rfl, rfl⟩ : timePointMax = tm ∧ w = w' ∧ [] = es := by simpa using h
    exact ⟨.nil, .inr (.inr ⟨hq.1, hq.2, rfl⟩)⟩
  · split at h
    · next hn =>
      obtain ⟨rfl, rfl, rfl⟩ : nextDeadline (w.thr i) = tm ∧ w = w' ∧ [] = es := by simpa using h
      exact ⟨.nil, .inr (.inl ⟨hn, rfl⟩)⟩
    · simp only [Option.bind_eq_bind, Option.bind_eq_some_iff] at h
      obtain ⟨⟨w₁, e₁⟩, h₁, he⟩ := h
      obtain ⟨rfl, rfl, rfl⟩ : timePointMin = tm ∧ w₁ = w' ∧ e₁ = es := by simpa using he
      exact ⟨expire_moves hph h₁, .inl rfl⟩

theorem setException_setCpu (w : World V) (i j : ThreadId) (p : PromId) (e : Error) (k : List (Frame V)) :
    (w.setCpu j k).setException i p e = (w.setException i p e).map (·.setCpu j k) := by
  have hb : ((w.setCpu j k).modProm p (fun q => { q with error := some e })).prom =
      (w.modProm p (fun q => { q with error := some e })).prom := rfl
  simp only [setException, notifyBase, hb]
  split
  · rfl
  · next t _ =>
    simp only [notify]
    split
    · show Option.map _ ((w.thr i).notify p) = Option.map _ (Option.map _ ((w.thr i).notify p))
      rw [Option.map_map]
      rfl
    · rfl

theorem expire_setCpu (w : World V) (i j : ThreadId) (k : List (Frame V)) (fuel : Nat) :
    expire i fuel (w.setCpu j k) = (expire i fuel w).map (fun r => (r.1.setCpu j k, r.2)) := by
  induction fuel generalizing w with
  | zero => rfl
  | succ fuel ih =>
    have ht : (w.setCpu j k).thr = w.thr := rfl
    have hn : (w.setCpu j k).now = w.now := rfl
    have hs : ∀ s, (w.setCpu j k).setThr i s = (w.setThr i s).setCpu j k := fun _ => rfl
    simp only [expire, ht, hn, hs]
    split
    · rfl
    · split
      · split
        · simp only [setException_setCpu, Option.bind_eq_bind]
          cases (w.setThr i (w.thr i).sleepPop).setException i _ .futureWaitTimeout with
          | none => rfl
          | some w₂ =>
            simp only [Option.map_some, Option.bind_some, ih]
            cases expire i fuel w₂ <;> rfl
        · exact ih ((w.setThr i (w.thr i).sleepPop).setThr i _)
      · rfl

theorem checkForTimeouts_setCpu (w : World V) (i j : ThreadId) (k : List (Frame V)) :
    (w.setCpu j k).checkForTimeouts i = (w.checkForTimeouts i).map (fun r => (r.1, r.2.1.setCpu j k, r.2.2)) := by
  have ht : (w.setCpu j k).thr = w.thr := rfl
  have hn : (w.setCpu j k).now = w.now := rfl
  simp only [checkForTimeouts, ht, hn, expire_setCpu]
  split
  · rfl
  · split
    · rfl
    · cases expire i ((w.thr i).sleepPqueue.length + 1) w <;> rfl

/-- What notifying leaves alone. -/
structure SameFrame (w w' : World V) : Prop where
  cpu : w'.cpu = w.cpu
  myContext : w'.myContext = w.myContext
  now : w'.now = w.now
  promCount : w'.promCount = w.promCount

theorem SameFrame.trans {w w₁ w₂ : World V} (h₁ : SameFrame w w₁) (h₂ : SameFrame w₁ w₂) : SameFrame w w₂ :=
  ⟨h₂.cpu.trans h₁.cpu, h₂.myContext.trans h₁.myContext, h₂.now.trans h₁.now, h₂.promCount.trans h₁.promCount⟩

theorem notify_frame {t : ThreadId} {p : PromId} (h : w.notify i t p = some w') : SameFrame w w' := by
  simp only [notify] at h
  split at h
  · simp only [Option.map_eq_some_iff] at h
    obtain ⟨s, -, rfl⟩ := h
    exact ⟨rfl, rfl, rfl, rfl⟩
  · obtain rfl := Option.some.inj h
    exact ⟨rfl, rfl, rfl, rfl⟩

theorem setException_frame {p : PromId} {e : Error} (h : w.setException i p e = some w') : SameFrame w w' := by
  simp only [setException, notifyBase] at h
  split at h
  · obtain rfl := Option.some.inj h
    exact ⟨rfl, rfl, rfl, rfl⟩
  · exact SameFrame.trans (show SameFrame w (w.modProm p _) from ⟨rfl, rfl, rfl, rfl⟩) (notify_frame h)

theorem quitBlocked_frame {fuel : Nat} {c : Option CtxId} (h : quitBlocked i fuel w c = some w') :
    SameFrame w w' := by
  induction fuel generalizing w c with
  | zero => cases h
  | succ fuel ih =>
    cases c with
    | none => obtain rfl := Option.some.inj h; exact ⟨rfl, rfl, rfl, rfl⟩
    | some c =>
      simp only [quitBlocked] at h
      split at h
      · cases h
      · simp only [Option.bind_eq_bind, Option.bind_eq_some_iff] at h
        obtain ⟨w₁, h₁, h⟩ := h
        exact (setException_frame h₁).trans (ih h)

theorem quit_frame (h : w.quit i = some w') : SameFrame w w' := by
  simp only [quit, Option.bind_eq_bind, Option.bind_eq_some_iff] at h
  obtain ⟨w₁, h₁, s, -, he⟩ := h
  obtain rfl := Option.some.inj he
  have hf := quitBlocked_frame h₁
  exact ⟨hf.1, hf.2, hf.3, hf.4⟩

theorem expire_frame {fuel : Nat} (h : expire i fuel w = some (w', es)) : SameFrame w w' := by
  induction fuel generalizing w es with
  | zero => simp [expire] at h
  | succ fuel ih =>
    simp only [expire] at h
    split at h
    · obtain ⟨rfl, rfl⟩ : w = w' ∧ [] = es := by simpa using h
      exact ⟨rfl, rfl, rfl, rfl⟩
    · split at h
      · split at h
        · simp only [Option.bind_eq_bind, Option.bind_eq_some_iff] at h
          obtain ⟨w₂, hw₂, ⟨w₃, es₃⟩, h₃, he⟩ := h
          obtain ⟨rfl, -⟩ : w₃ = w' ∧ _ = es := by simpa using he
          have hpop : SameFrame w (w.setThr i (w.thr i).sleepPop) := ⟨rfl, rfl, rfl, rfl⟩
          exact (hpop.trans (setException_frame hw₂)).trans (ih h₃)
        · have hpush := ih h
          exact ⟨hpush.1, hpush.2, hpush.3, hpush.4⟩
      · obtain ⟨rfl, rfl⟩ : w = w' ∧ [] = es := by simpa using h
        exact ⟨rfl, rfl, rfl, rfl⟩

theorem checkForTimeouts_frame {tm : Int} (h : w.checkForTimeouts i = some (tm, w', es)) : SameFrame w w' := by
  simp only [checkForTimeouts] at h
  split at h
  · obtain ⟨-, rfl, -⟩ : _ = tm ∧ w = w' ∧ [] = es := by simpa using h
    exact ⟨rfl, rfl, rfl, rfl⟩
  · split at h
    · obtain ⟨-, rfl, -⟩ : _ = tm ∧ w = w' ∧ [] = es := by simpa using h
      exact ⟨rfl, rfl, rfl, rfl⟩
    · simp only [Option.bind_eq_bind, Option.bind_eq_some_iff] at h
      obtain ⟨⟨w₁, e₁⟩, h₁, he⟩ := h
      obtain ⟨-, rfl, -⟩ : _ = tm ∧ w₁ = w' ∧ e₁ = es := by simpa using he
      exact expire_frame h₁

theorem runTask_setCpu (w : World V) (i : ThreadId) (t : Task) (tm : Int) (k k' : List (Frame V)) :
    (w.setCpu i k').runTask i t tm k = w.runTask i t tm k := by
  have ht : (w.setCpu i k').thr = w.thr := rfl
  have hm : ∀ n f, (w.setCpu i k').modCell n f = (w.modCell n f).setCpu i k' := fun _ _ => rfl
  have hs : ∀ (w : World V) s, (w.setCpu i k').setThr i s = (w.setThr i s).setCpu i k' := fun _ _ => rfl
  have hcell : ∀ w : World V, (w.setCpu i k').cell = w.cell := fun _ => rfl
  have hthr : ∀ w : World V, (w.setCpu i k').thr = w.thr := fun _ => rfl
  simp only [runTask, ht, hm, hs, hcell, hthr, setCpu_setCpu]

theorem switch_setCpu (w : World V) (i : ThreadId) (r : Bool) (k saved : List (Frame V)) :
    (w.setCpu i k).switch i r saved = w.switch i r saved := by
  have ht : (w.setCpu i k).thr = w.thr := rfl
  simp only [switch, ht]
  split
  · exact setCpu_setCpu ((w.setMyContext i _ saved).setThr i _) i k _
  · exact setCpu_setCpu (((w.setMyContext i _ saved).setMyContext i _ _).setThr i _) i k _

theorem cur_setThr {s : ThreadPrivate} (hs : s.current.getD 0 = w.cur i) (j : ThreadId) :
    (w.setThr i s).cur j = w.cur j := by
  simp only [cur, setThr_thr]
  split
  · next hj => rw [hj]; exact hs
  · rfl

theorem cur_async (w : World V) (t : Task) (i j : ThreadId) : (w.async i t).cur j = w.cur j :=
  cur_setThr (s := { w.thr i with taskInQueue := t :: (w.thr i).taskInQueue }) rfl j

theorem notify_cur {t : ThreadId} {p : PromId} (h : w.notify i t p = some w') (j : ThreadId) :
    w'.cur j = w.cur j := by
  simp only [notify] at h
  split at h
  · simp only [Option.map_eq_some_iff] at h
    obtain ⟨s, hs, rfl⟩ := h
    exact cur_setThr (by rw [(notify_core hs).current]; rfl) j
  · obtain rfl := Option.some.inj h
    exact cur_async _ _ _ _

theorem setException_cur {p : PromId} {e : Error} (h : w.setException i p e = some w') (j : ThreadId) :
    w'.cur j = w.cur j := by
  simp only [setException, notifyBase] at h
  split at h
  · obtain rfl := Option.some.inj h
    rfl
  · exact notify_cur (w := w.modProm p _) h j

theorem expire_cur {fuel : Nat} (h : expire i fuel w = some (w', es)) (j : ThreadId) : w'.cur j = w.cur j := by
  induction fuel generalizing w es with
  | zero => simp [expire] at h
  | succ fuel ih =>
    have hpop : (w.setThr i (w.thr i).sleepPop).cur j = w.cur j := cur_setThr (s := (w.thr i).sleepPop) rfl j
    simp only [expire] at h
    split at h
    · obtain ⟨rfl, -⟩ := Prod.mk.inj (Option.some.inj h)
      rfl
    · next c v hq =>
      split at h
      · split at h
        · simp only [Option.bind_eq_bind, Option.bind_eq_some_iff] at h
          obtain ⟨w₂, hw₂, ⟨w₃, es₃⟩, h₃, he⟩ := h
          obtain ⟨rfl, -⟩ := Prod.mk.inj (Option.some.inj he)
          exact ((ih h₃).trans (setException_cur hw₂ j)).trans hpop
        · refine (ih h).trans ?_
          rw [setThr_setThr]
          refine cur_setThr ?_ j
          rw [(readyPushBack_core _ c).1.current, setThr_thr, if_pos rfl]
          rfl
      · obtain ⟨rfl, -⟩ := Prod.mk.inj (Option.some.inj h)
        rfl

theorem checkForTimeouts_cur {tm : Int} (h : w.checkForTimeouts i = some (tm, w', es)) (j : ThreadId) :
    w'.cur j = w.cur j := by
  simp only [checkForTimeouts] at h
  split at h
  · obtain ⟨-, rfl, -⟩ : _ ∧ w = w' ∧ _ := by simpa using h
    rfl
  · split at h
    · obtain ⟨-, rfl, -⟩ : _ ∧ w = w' ∧ _ := by simpa using h
      rfl
    · simp only [Option.bind_eq_bind, Option.bind_eq_some_iff] at h
      obtain ⟨⟨w₁, e₁⟩, h₁, he⟩ := h
      obtain ⟨-, rfl, -⟩ : timePointMin = tm ∧ w₁ = w' ∧ e₁ = es := by simpa using he
      exact expire_cur h₁ j

/-- `start_next_task` as moves: the stack that is saved is the one the thread executes when it switches. -/
theorem startNextTask_moves (w₀ : World V) {r : Bool} {saved : List (Frame V)} (hph : ph ≠ .start)
    (h : w.startNextTask i r saved = some (w', es)) :
    ∃ w₁, Moves w₀ i ph (w.setCpu i saved) ph w₁ es ∧ w₁.cpu i = saved ∧ w₁.cur i = w.cur i ∧
      w' = w₁.switch i r (w₁.cpu i) := by
  simp only [startNextTask, Option.bind_eq_bind, Option.bind_eq_some_iff] at h
  obtain ⟨⟨tm, w₁, e₁⟩, h₁, he⟩ := h
  obtain ⟨rfl, rfl⟩ : w₁.switch i r saved = w' ∧ e₁ = es := by simpa using he
  have h₂ : (w.setCpu i saved).checkForTimeouts i = some (tm, w₁.setCpu i saved, e₁) := by
    rw [checkForTimeouts_setCpu, h₁]; rfl
  have hcpu : (w₁.setCpu i saved).cpu i = saved := by simp [setCpu]
  refine ⟨w₁.setCpu i saved, (checkForTimeouts_moves w₀ hph h₂).1, hcpu, checkForTimeouts_cur h₁ i, ?_⟩
  rw [hcpu, switch_setCpu]

/-- A task in hand: `check_for_timeouts` and the start of its `run()`. -/
theorem loopWith_moves {t : Task} {pc : ProcPc} {tm : Int} {k : List (Frame V)}
    (hcpu : w.cpu i = .processTasks pc tm :: k) (hsees : (w.thr i).done = true → SeesDone w₀ i)
    (h : w.loopWith i t k = some (w', es)) : Moves w₀ i (.hand t) w .out w' es := by
  simp only [loopWith] at h
  split at h
  · next hd =>
    obtain ⟨rfl, rfl⟩ : w.setCpu i k = w' ∧ [] = es := by simpa using h
    exact .single (.abandon hcpu hd (hsees hd))
  · simp only [Option.bind_eq_bind, Option.bind_eq_some_iff] at h
    obtain ⟨⟨tm', w₁, e₁⟩, h₁, ⟨w₂, e₂⟩, h₂, he⟩ := h
    obtain ⟨rfl, rfl⟩ : w₂ = w' ∧ e₁ ++ e₂ = es := by simpa using he
    obtain ⟨hm, hck⟩ := checkForTimeouts_moves w₀ (show Phase.hand t ≠ .start by simp) h₁
    have hcpu₁ := (congrFun (checkForTimeouts_frame h₁).cpu i).trans hcpu
    rw [← runTask_setCpu w₁ i t tm' k (.processTasks pc tm' :: k)] at h₂
    refine hm.append (.cons (.check hcpu₁ (.inr ⟨rfl, .inr ⟨t, rfl⟩⟩) hck) (.single (.runTask (show _ = .processTasks pc tm' :: k from ?_) h₂)))
    simp

end Parts

/-! ## Taking a step apart -/

section Steps
variable {w₀ w w' : World V} {i : ThreadId} {es : List (Event V)}

theorem atStart_refl (w : World V) : AtStart w w := ⟨w.now, Int.le_refl _, rfl⟩

theorem atStart_setNow {t : Int} (h : w.now ≤ t) : AtStart w (w.setNow t) := ⟨t, h, rfl⟩

theorem Move.atStart (hm : Move w₀ i ph w .start w' es) (h : ph = .start → AtStart w₀ w) : AtStart w₀ w' := by
  cases hm with
  | clock ht =>
    obtain ⟨t, ht', rfl⟩ := h rfl
    exact ⟨_, Int.le_trans ht' ht, rfl⟩
  | expireSleep hph => exact absurd rfl hph
  | expireWait hph => exact absurd rfl hph
  | check _ hpc => rcases hpc with ⟨h, -⟩ | ⟨-, ⟨h, -⟩ | ⟨t, h⟩⟩ <;> cases h

/-- A context that has put itself on a list and calls `start_next_task`. -/
theorem suspend_moves {saved : List (Frame V)} {t : Int} (ht : w.now ≤ t) (hmax : t ≤ timePointMax)
    (h : (w.setNow t).startNextTask i false saved = some (w', es)) :
    Moves w₀ i .suspended (w.setCpu i saved) .out w' es := by
  obtain ⟨w₁, hm, -, -, rfl⟩ := startNextTask_moves w₀ (show Phase.suspended ≠ .start by simp) h
  have hc : Move w₀ i .suspended (w.setCpu i saved) .suspended ((w.setNow t).setCpu i saved) [] := .clock ht hmax
  simpa using Moves.cons hc (hm.append (.single .switch))

/-- A context that stays ready and calls `start_next_task(true)`. -/
theorem reschedule_moves {f : Frame V} {k : List (Frame V)}
    (hf : f = .yield ∨ (∃ tm, f = .processTasks .switched tm)) (hl : Local w i (w.cpu i) (f :: k) [])
    (hs : AtStart w₀ w) (h : w.startNextTask i true (f :: k) = some (w', es)) : Moves w₀ i .start w .out w' es := by
  obtain ⟨w₁, hm, hcpu, hcur, rfl⟩ := startNextTask_moves w₀ (show Phase.out ≠ .start by simp) h
  have hcur₀ : w₁.cur i = w₀.cur i := by
    obtain ⟨t, -, rfl⟩ := hs
    exact hcur
  simpa using Moves.cons (.stackTop hs hl) (hm.append (.single (.reschedule hcpu hf hcur₀)))

/-- `dequeue` finds a task, and the loop goes on with it. -/
theorem dequeue_loop_moves {pc : ProcPc} {tm t₁ t₂ t₃ : Int} {k : List (Frame V)} {t : Task} {s : ThreadPrivate}
    (hcpu : w.cpu i = .processTasks pc tm :: k) (hpc : pc = .start ∨ pc = .switched ∨ pc = .lock)
    (h₁ : w.now ≤ t₁) (h₂ : t₁ ≤ t₂) (h₃ : t₂ ≤ t₃) (hmax : t₃ ≤ timePointMax)
    (hd : (w.thr i).dequeue t₁ t₂ = (some t, s))
    (h : ((w.setThr i s).setNow t₃).loopWith i t k = some (w', es)) : Moves w i .out w .out w' es := by
  have hc : Move w i (.hand t) (w.setThr i s) (.hand t) ((w.setThr i s).setNow t₃) [] :=
    .clock (by show w.now ≤ t₃; omega) hmax
  have hsees : (((w.setThr i s).setNow t₃).thr i).done = true → SeesDone w i := by
    intro hdone
    have hs : ((w.setThr i s).setNow t₃).thr i = s := by show (w.setThr i s).thr i = s; simp
    rw [hs, (dequeue_sched hd).done] at hdone
    exact ⟨hdone, pc, tm, k, hcpu, hpc⟩
  have hdeq : Move w i .out w (.hand t) (w.setThr i s) [] := .dequeue hcpu (by tauto) h₁ h₂ hd
  simpa using Moves.cons hdeq (.cons hc (loopWith_moves hcpu hsees h))

/-- `dequeue` finds nothing. -/
theorem dequeue_drain_moves {pc pc' : ProcPc} {tm t₁ t₂ t₃ : Int} {k : List (Frame V)} {s : ThreadPrivate}
    (hcpu : w.cpu i = .processTasks pc tm :: k)
    (hpc : (pc = .start ∧ pc' = .top ∧ es = []) ∨ (pc = .again ∧ pc' = .tests ∧ es = []) ∨
        (pc = .switched ∧ pc' = .lock ∧ es = []) ∨
        (pc = .lock ∧ pc' = .sleeping ∧
          es = [.parked i (if tm = timePointMax then none else some (toSystemTime tm))]))
    (h₁ : w.now ≤ t₁) (h₂ : t₁ ≤ t₂) (h₃ : t₂ ≤ t₃) (hmax : t₃ ≤ timePointMax)
    (hd : (w.thr i).dequeue t₁ t₂ = (none, s)) :
    Moves w₀ i .out w .out (((w.setThr i s).setNow t₃).setCpu i (.processTasks pc' tm :: k)) es := by
  have hc : Move w₀ i .out ((w.setThr i s).setCpu i (.processTasks pc' tm :: k)) .out
      (((w.setThr i s).setCpu i (.processTasks pc' tm :: k)).setNow t₃) [] :=
    .clock (by show w.now ≤ t₃; omega) hmax
  have := Moves.cons (.drain hcpu hpc h₁ h₂ hd) (.single hc)
  rwa [List.append_nil] at this

/-- `check_for_timeouts` in `process_tasks`. -/
theorem check_moves {pc pc' : ProcPc} {tm tm' t : Int} {k : List (Frame V)} {w₁ : World V}
    (hcpu : w.cpu i = .processTasks pc tm :: k) (ht : w.now ≤ t) (hmax : t ≤ timePointMax)
    (hpc : (pc = .top ∧ pc' = .tests) ∨ (pc' = pc ∧ pc = .again))
    (h : (w.setNow t).checkForTimeouts i = some (tm', w₁, es)) :
    Moves w₀ i .out w .out (w₁.setCpu i (.processTasks pc' tm' :: k)) es := by
  obtain ⟨hm, hck⟩ := checkForTimeouts_moves w₀ (show Phase.out ≠ .start by simp) h
  have hcpu₁ : w₁.cpu i = _ := (congrFun (checkForTimeouts_frame h).cpu i).trans hcpu
  have hpc' : (Phase.out = .out ∧ pc = .top ∧ pc' = .tests) ∨
      (pc' = pc ∧ ((Phase.out = .out ∧ pc = .again) ∨ ∃ t, Phase.out = .hand t)) :=
    hpc.imp (fun h => ⟨rfl, h⟩) (fun h => ⟨h.1, .inl ⟨rfl, h.2⟩⟩)
  simpa using Moves.cons (.clock ht hmax) (hm.append (.single (.check hcpu₁ hpc' hck)))

theorem stepProcessTasks_moves {pc : ProcPc} {tm t₁ t₂ t₃ : Int} {k : List (Frame V)}
    (hcpu : w.cpu i = .processTasks pc tm :: k) (h₁ : w.now ≤ t₁) (h₂ : t₁ ≤ t₂) (h₃ : t₂ ≤ t₃)
    (hmax : t₃ ≤ timePointMax)
    (h : w.stepProcessTasks i t₁ t₂ t₃ tm k pc = some (w', es)) : Moves w i .start w .out w' es := by
  have hnow : w.now ≤ t₃ := by omega
  have hmax₁ : t₁ ≤ timePointMax := by omega
  have hlocal : ∀ {k' e}, Local (w.setNow t₃) i (w.cpu i) k' e →
      Moves w i .start w .out ((w.setNow t₃).setCpu i k') e := by
    intro k' e hl
    simpa using Moves.cons (.clock hnow hmax) (.single (.stackTop (atStart_setNow hnow) hl))
  cases pc with
  | start =>
    simp only [stepProcessTasks, dequeue] at h
    split at h
    · next t s hd =>
      obtain ⟨hd₁, rfl⟩ : _ = some t ∧ w.setThr i _ = s := Prod.mk.inj hd
      exact .cons .go <| dequeue_loop_moves hcpu (.inl rfl) h₁ h₂ h₃ hmax (Prod.ext hd₁ rfl) h
    · next s hd =>
      obtain ⟨hd₁, rfl⟩ : _ = none ∧ w.setThr i _ = s := Prod.mk.inj hd
      obtain ⟨rfl, rfl⟩ : _ = w' ∧ [] = es := by simpa using h
      exact .cons .go <| dequeue_drain_moves hcpu (.inl ⟨rfl, rfl, rfl⟩) h₁ h₂ h₃ hmax (Prod.ext hd₁ rfl)
  | top =>
    simp only [stepProcessTasks] at h
    split at h
    · next hd =>
      obtain ⟨rfl, rfl⟩ : _ = w' ∧ [] = es := by simpa using h
      exact hlocal (hcpu ▸ .exit (.inl rfl) hd)
    · simp only [Option.bind_eq_bind, Option.bind_eq_some_iff] at h
      obtain ⟨⟨tm', w₁, e₁⟩, hc, he⟩ := h
      obtain ⟨rfl, rfl⟩ : _ = w' ∧ e₁ = es := by simpa using he
      have hm : Moves w i .out _ .out _ _ := check_moves hcpu h₁ hmax₁ (.inl ⟨rfl, rfl⟩) hc
      have hn : w₁.now = t₁ := (checkForTimeouts_frame hc).now
      have hall := hm.append (.single (.clock (t := t₃) (by show w₁.now ≤ t₃; omega) hmax))
      rw [List.append_nil] at hall
      exact .cons .go hall
  | running t =>
    obtain ⟨rfl, rfl⟩ : _ = w' ∧ [] = es := by simpa [stepProcessTasks] using h
    exact .cons (.ran hcpu) (.single (.clock hnow hmax))
  | release t =>
    obtain ⟨rfl, rfl⟩ : _ = w' ∧ [] = es := by simpa [stepProcessTasks] using h
    have hrel : (w.release t).now = w.now := by
      cases hb : t.body <;> simp only [World.release, hb] <;> [split; skip; skip] <;> rfl
    exact .cons (.release hcpu) (.single (.clock (by show (w.release t).now ≤ t₃; omega) hmax))
  | again =>
    simp only [stepProcessTasks, Option.bind_eq_bind, Option.bind_eq_some_iff] at h
    obtain ⟨⟨tm', w₁, e₁⟩, hc, h⟩ := h
    have hm : Moves w i .out _ .out _ _ := check_moves hcpu h₁ hmax₁ (.inr ⟨rfl, rfl⟩) hc
    have hn : w₁.now = t₁ := (checkForTimeouts_frame hc).now
    simp only [dequeue] at h
    split at h
    · next t s hd =>
      obtain ⟨hd₁, rfl⟩ : _ = some t ∧ w₁.setThr i _ = s := Prod.mk.inj hd
      obtain ⟨⟨w₂, e₂⟩, hr, he⟩ := Option.bind_eq_some_iff.1 h
      obtain ⟨rfl, rfl⟩ : w₂ = w' ∧ e₁ ++ e₂ = es := by simpa using he
      rw [← runTask_setCpu _ i t tm' k (.processTasks .again tm' :: k)] at hr
      have hcpu₁ : (w₁.setCpu i (.processTasks .again tm' :: k)).cpu i = .processTasks .again tm' :: k := by simp
      have hdeq : Move w i .out (w₁.setCpu i (.processTasks .again tm' :: k)) (.hand t) _ [] :=
        .dequeue hcpu₁ (.inr (.inl rfl)) (by show w₁.now ≤ t₂; omega) h₃ (Prod.ext hd₁ rfl)
      have hclk : Move w i (.hand t) ((w₁.setCpu i (.processTasks .again tm' :: k)).setThr i ((w₁.thr i).dequeue t₂ t₃).2)
          (.hand t) (((w₁.setCpu i (.processTasks .again tm' :: k)).setThr i ((w₁.thr i).dequeue t₂ t₃).2).setNow t₃) [] :=
        .clock (by show w₁.now ≤ t₃; omega) hmax
      exact .cons (e := []) .go <| hm.append (.cons hdeq (.cons hclk (.single (.runTask hcpu₁ hr))))
    · next s hd =>
      obtain ⟨hd₁, rfl⟩ : _ = none ∧ w₁.setThr i _ = s := Prod.mk.inj hd
      obtain ⟨rfl, rfl⟩ : _ = w' ∧ e₁ = es := by simpa using h
      have hcpu₁ : (w₁.setCpu i (.processTasks .again tm' :: k)).cpu i = .processTasks .again tm' :: k := by simp
      have hdr : Moves w i .out _ .out _ _ := dequeue_drain_moves hcpu₁ (.inr (.inl ⟨rfl, rfl, rfl⟩))
        (by show w₁.now ≤ t₂; omega) h₃ (Int.le_refl t₃) hmax (Prod.ext hd₁ rfl)
      have hall := hm.append hdr
      rw [List.append_nil] at hall
      have hcc := setCpu_setCpu ((w₁.setThr i ((w₁.thr i).dequeue t₂ t₃).2).setNow t₃) i
        (.processTasks .again tm' :: k) (.processTasks .tests tm' :: k)
      exact .cons .go (hcc ▸ hall)
  | tests =>
    simp only [stepProcessTasks] at h
    split at h
    · next hd =>
      obtain ⟨rfl, rfl⟩ : _ = w' ∧ [] = es := by simpa using h
      exact hlocal (hcpu ▸ .exit (.inr rfl) hd.2)
    · split at h
      · next htm =>
        obtain ⟨rfl, rfl⟩ : _ = w' ∧ [] = es := by simpa using h
        exact hlocal (hcpu ▸ .again htm)
      · next htm =>
        split at h
        · next hr =>
          obtain ⟨rfl, rfl⟩ : _ = w' ∧ [] = es := by simpa using h
          exact hlocal (hcpu ▸ .toLock htm hr)
        · next hr =>
          have hl : Local (w.setNow t₃) i ((w.setNow t₃).cpu i) (.processTasks .switched tm :: k) [] :=
            hcpu ▸ .toSwitch htm hr
          exact .cons (.clock hnow hmax) (reschedule_moves (.inr ⟨tm, rfl⟩) hl (atStart_setNow hnow) h)
  | switched =>
    simp only [stepProcessTasks, dequeue] at h
    split at h
    · next hc =>
      obtain ⟨rfl, rfl⟩ : _ = w' ∧ w.raise i = es := by simpa using h
      exact hlocal (hcpu ▸ .raiseSwitched hc)
    · split at h
      · next t s hd =>
        obtain ⟨hd₁, rfl⟩ : _ = some t ∧ w.setThr i _ = s := Prod.mk.inj hd
        exact .cons .go <| dequeue_loop_moves hcpu (.inr (.inl rfl)) h₁ h₂ h₃ hmax (Prod.ext hd₁ rfl) h
      · next s hd =>
        obtain ⟨hd₁, rfl⟩ : _ = none ∧ w.setThr i _ = s := Prod.mk.inj hd
        obtain ⟨rfl, rfl⟩ : _ = w' ∧ [] = es := by simpa using h
        exact .cons .go <| dequeue_drain_moves hcpu (.inr (.inr (.inl ⟨rfl, rfl, rfl⟩))) h₁ h₂ h₃ hmax
          (Prod.ext hd₁ rfl)
  | lock =>
    simp only [stepProcessTasks, dequeue] at h
    split at h
    · next t s hd =>
      obtain ⟨hd₁, rfl⟩ : _ = some t ∧ w.setThr i _ = s := Prod.mk.inj hd
      exact .cons .go <| dequeue_loop_moves hcpu (.inr (.inr rfl)) h₁ h₂ h₃ hmax (Prod.ext hd₁ rfl) h
    · next s hd =>
      obtain ⟨hd₁, rfl⟩ : _ = none ∧ w.setThr i _ = s := Prod.mk.inj hd
      obtain ⟨rfl, rfl⟩ := Prod.mk.inj (Option.some.inj h)
      exact .cons .go <| dequeue_drain_moves hcpu (.inr (.inr (.inr ⟨rfl, rfl, rfl⟩))) h₁ h₂ h₃ hmax
        (Prod.ext hd₁ rfl)
  | sleeping =>
    obtain ⟨rfl, rfl⟩ : _ = w' ∧ [] = es := by simpa [stepProcessTasks] using h
    exact hlocal (hcpu ▸ .wakeup)

theorem stepWait_moves {pc : WaitPc} {p : PromId} {d t₁ t₂ : Int} {k : List (Frame V)}
    (hcpu : w.cpu i = .wait pc p d :: k) (h₁ : w.now ≤ t₁) (h₂ : t₁ ≤ t₂) (hmax : t₂ ≤ timePointMax)
    (h : (w.setNow t₁).stepWait i t₁ t₂ p d k pc = some (w', es)) : Moves w i .start w .out w' es := by
  have hs := atStart_setNow h₁
  refine Moves.cons (e := []) (.clock h₁ (by omega)) ?_
  replace hcpu : (w.setNow t₁).cpu i = .wait pc p d :: k := hcpu
  have hnow : (w.setNow t₁).now = t₁ := rfl
  generalize w.setNow t₁ = w₁ at h hs hcpu hnow
  have hlocal : ∀ {k' e}, Local w₁ i (.wait pc p d :: k) k' e → Moves w i .start w₁ .out (w₁.setCpu i k') e :=
    fun hl => .single (.stackTop hs (hcpu ▸ hl))
  cases pc with
  | check =>
    simp only [stepWait] at h
    split at h
    · next e he =>
      obtain ⟨rfl, rfl⟩ := Prod.mk.inj (Option.some.inj h)
      exact hlocal (.checkError he)
    · next v he hv =>
      obtain ⟨rfl, rfl⟩ := Prod.mk.inj (Option.some.inj h)
      exact hlocal (.checkValue he hv)
    · next he hv =>
      obtain ⟨rfl, rfl⟩ := Prod.mk.inj (Option.some.inj h)
      exact .single (.enqueueThread hs hcpu he hv)
  | ready =>
    simp only [stepWait] at h
    split at h
    · next hr =>
      obtain ⟨rfl, rfl⟩ := Prod.mk.inj (Option.some.inj h)
      exact hlocal (.isReady hr)
    · next hr =>
      obtain ⟨rfl, rfl⟩ := Prod.mk.inj (Option.some.inj h)
      exact hlocal (.notReady (by simpa using hr))
  | block =>
    simp only [stepWait] at h
    split at h
    · next hd =>
      obtain ⟨rfl, rfl⟩ := Prod.mk.inj (Option.some.inj h)
      exact hlocal (.late (hnow ▸ hd))
    · next hd =>
      refine .cons (e := []) (.waitOn hs hcpu (hnow ▸ hd)) (suspend_moves (t := t₂) ?_ hmax h)
      show w₁.now ≤ t₂
      omega
  | resumed =>
    simp only [stepWait] at h
    split at h
    · next hc =>
      obtain ⟨rfl, rfl⟩ := Prod.mk.inj (Option.some.inj h)
      exact hlocal (.raiseWait hc)
    · next hc =>
      obtain ⟨rfl, rfl⟩ := Prod.mk.inj (Option.some.inj h)
      exact .single (.resumeWait hs hcpu (by simpa using hc))
  | finish =>
    simp only [stepWait] at h
    split at h
    · next e he =>
      obtain ⟨rfl, rfl⟩ := Prod.mk.inj (Option.some.inj h)
      exact .single (.finishError hs hcpu he)
    · next v he hv =>
      obtain ⟨rfl, rfl⟩ := Prod.mk.inj (Option.some.inj h)
      exact hlocal (.finishValue he hv)
    · next he hv =>
      obtain ⟨rfl, rfl⟩ := Prod.mk.inj (Option.some.inj h)
      exact hlocal (.finishNone he hv)

theorem stepSet_moves {pc : SetPc} {p : PromId} {o : Outcome V} {b : Bool} {k : List (Frame V)}
    (hcpu : w.cpu i = .set pc p o b :: k) (h : w.stepSet i p o b k pc = some (w', es)) :
    Moves w i .start w .out w' es := by
  have hs := atStart_refl w
  have hlocal : ∀ {k' e}, Local w i (.set pc p o b :: k) k' e → Moves w i .start w .out (w.setCpu i k') e :=
    fun hl => .single (.stackTop hs (hcpu ▸ hl))
  cases pc with
  | store =>
    cases o with
    | value v =>
      simp only [stepSet] at h
      split at h
      · next he =>
        obtain ⟨rfl, rfl⟩ := Prod.mk.inj (Option.some.inj h)
        exact hlocal (.drop he)
      · next he =>
        obtain ⟨rfl, rfl⟩ := Prod.mk.inj (Option.some.inj h)
        exact .single (.storeValue hs hcpu (by simpa using he))
    | error e =>
      obtain ⟨rfl, rfl⟩ := Prod.mk.inj (Option.some.inj h)
      exact .single (.storeError hs hcpu)
  | notify =>
    simp only [stepSet] at h
    split at h
    · next hb =>
      obtain ⟨rfl, rfl⟩ := Prod.mk.inj (Option.some.inj h)
      exact hlocal (.notifyNone hb)
    · next t hb =>
      obtain ⟨rfl, rfl⟩ := Prod.mk.inj (Option.some.inj h)
      exact hlocal (.notifyRead hb)
  | post t =>
    simp only [stepSet, Option.map_eq_some_iff] at h
    obtain ⟨w₁, hn, he⟩ := h
    obtain ⟨rfl, rfl⟩ := Prod.mk.inj he
    exact .single (.post hs hcpu hn)

theorem stepCall_moves {t : Int} {c : Call V} (ht : w.now ≤ t) (hmax : t ≤ timePointMax) (hx : external (w.cpu i))
    (h : w.stepCall i t (w.cpu i) c = some (w', es)) : Moves w i .start w .out w' es := by
  have hs := atStart_refl w
  have hlocal : ∀ {k' e}, Local w i (w.cpu i) k' e → Moves w i .start w .out (w.setCpu i k') e :=
    fun hl => .single (.stackTop hs hl)
  cases c with
  | newPromise =>
    obtain ⟨rfl, rfl⟩ := Prod.mk.inj (Option.some.inj h)
    exact .single .newPromise
  | async j when prio =>
    obtain ⟨rfl, rfl⟩ := Prod.mk.inj (Option.some.inj h)
    exact .single (.async j when _ hs)
  | asyncVoid j prio =>
    obtain ⟨rfl, rfl⟩ := Prod.mk.inj (Option.some.inj h)
    exact .single (.asyncVoid j timePointMin prio hs)
  | scheduleVoid j when prio =>
    obtain ⟨rfl, rfl⟩ := Prod.mk.inj (Option.some.inj h)
    exact .single (.asyncVoid j when _ hs)
  | wait p d =>
    simp only [stepCall] at h
    split at h
    · next hp =>
      obtain ⟨rfl, rfl⟩ := Prod.mk.inj (Option.some.inj h)
      exact hlocal (.callWait hx hp)
    · cases h
  | set p o =>
    simp only [stepCall] at h
    split at h
    · next hp =>
      obtain ⟨rfl, rfl⟩ := Prod.mk.inj (Option.some.inj h)
      exact hlocal (.callSet hx hp)
    · cases h
  | cancel p =>
    simp only [stepCall] at h
    split at h
    · next hp =>
      split at h
      · next n hr ht =>
        obtain ⟨rfl, rfl⟩ := Prod.mk.inj (Option.some.inj h)
        exact .single (.cancel hx hp hr ht)
      · obtain ⟨rfl, rfl⟩ := Prod.mk.inj (Option.some.inj h)
        exact .single .go
    · cases h
  | sleepUntil tp =>
    simp only [stepCall] at h
    split at h
    · obtain ⟨rfl, rfl⟩ := Prod.mk.inj (Option.some.inj h)
      exact .single .go
    · exact .cons (e := []) (.sleepOn tp hs hx) (suspend_moves ht hmax h)
  | yield =>
    have hl : Local (w.setNow t) i ((w.setNow t).cpu i) (.yield :: (w.setNow t).cpu i) [] := .startYield (.inl hx)
    exact .cons (e := []) (.clock ht hmax) (reschedule_moves (.inl rfl) hl (atStart_setNow ht) h)
  | exec =>
    obtain ⟨rfl, rfl⟩ := Prod.mk.inj (Option.some.inj h)
    exact hlocal (.callExec hx)
  | quit =>
    simp only [stepCall, Option.map_eq_some_iff] at h
    obtain ⟨w₁, hq, he⟩ := h
    obtain ⟨rfl, rfl⟩ := Prod.mk.inj he
    exact .single (.quit hq)
  | sync ov j prio d =>
    obtain ⟨rfl, rfl⟩ := Prod.mk.inj (Option.some.inj h)
    exact .single (.sync ov j _ d hs hx)

theorem stepRun_moves {t₁ t₂ t₃ : Int} (h₁ : w.now ≤ t₁) (h₂ : t₁ ≤ t₂) (h₃ : t₂ ≤ t₃) (hmax : t₃ ≤ timePointMax)
    (h : w.stepRun i t₁ t₂ t₃ = some (w', es)) : Moves w i .start w .out w' es := by
  have hs := atStart_refl w
  have hlocal : ∀ {k' e}, Local w i (w.cpu i) k' e → Moves w i .start w .out (w.setCpu i k') e :=
    fun hl => .single (.stackTop hs hl)
  unfold stepRun at h
  split at h
  · next hcpu => exact stepProcessTasks_moves hcpu h₁ h₂ h₃ hmax h
  · next hcpu => exact stepWait_moves hcpu h₁ h₂ (Int.le_trans h₃ hmax) h
  · next hcpu => exact stepSet_moves hcpu h
  · next hcpu =>
    split at h
    · next hc =>
      obtain ⟨rfl, rfl⟩ := Prod.mk.inj (Option.some.inj h)
      exact hlocal (hcpu ▸ .raiseSleep hc)
    · next hc =>
      obtain ⟨rfl, rfl⟩ := Prod.mk.inj (Option.some.inj h)
      exact .single (.resumeSleep hcpu (by simpa using hc))
  · next hcpu =>
    split at h
    · next hc =>
      obtain ⟨rfl, rfl⟩ := Prod.mk.inj (Option.some.inj h)
      exact hlocal (hcpu ▸ .raiseYield hc)
    · next hc =>
      obtain ⟨rfl, rfl⟩ := Prod.mk.inj (Option.some.inj h)
      exact hlocal (hcpu ▸ .yielded (by simpa using hc))
  · next hcpu =>
    obtain ⟨rfl, rfl⟩ := Prod.mk.inj (Option.some.inj h)
    exact hlocal (hcpu ▸ .syncDone)
  all_goals cases h

/-- A call of the code outside the library. -/
theorem step_call {t : Int} {c : Call V} (h : w.step (.call i t c) = some (w', es)) :
    external (w.cpu i) ∧ w.stepCall i t (w.cpu i) c = some (w', es) := by
  simp only [step] at h
  split at h
  · split at h
    · next hk => exact ⟨by rw [hk]; trivial, by rwa [hk] at h ⊢⟩
    · next hk => exact ⟨by rw [hk]; trivial, by rwa [hk] at h ⊢⟩
    · cases h
  · cases h

/-- Every step is a sequence of moves of one thread. -/
theorem step_moves {a : Action V} (h : w.step a = some (w', es)) : Moves w a.thread .start w .out w' es := by
  cases a with
  | tick t =>
    simp only [step] at h
    split at h
    · next ht =>
      obtain ⟨rfl, rfl⟩ := Prod.mk.inj (Option.some.inj h)
      exact .cons (.clock ht.1 ht.2) (.single .go)
    · cases h
  | call i t c =>
    simp only [step] at h
    split at h
    · next ht =>
      split at h
      · next hk => exact stepCall_moves (i := i) ht.1 ht.2 (by rw [hk]; trivial) h
      · next hk => exact stepCall_moves (i := i) ht.1 ht.2 (by rw [hk]; trivial) h
      · cases h
    · cases h
  | finish i o =>
    simp only [step] at h
    split at h
    · next t k hk =>
      simp only [finish] at h
      split at h
      · next p hb =>
        obtain ⟨rfl, rfl⟩ := Prod.mk.inj (Option.some.inj h)
        exact .single (.stackTop (atStart_refl w) (hk ▸ .finishSet hb))
      · next hb =>
        obtain ⟨rfl, rfl⟩ := Prod.mk.inj (Option.some.inj h)
        exact .single (.stackTop (atStart_refl w) (hk ▸ .finishTask (fun p hp => hb p hp)))
    · cases h
  | run i t₁ t₂ t₃ =>
    simp only [step] at h
    split at h
    · next ht => exact stepRun_moves ht.1 ht.2.1 ht.2.2.1 ht.2.2.2 h
    · cases h
  | contend i t =>
    simp only [step] at h
    split at h
    · next ht =>
      have hl : Local (w.setNow t) i ((w.setNow t).cpu i) (.yield :: (w.setNow t).cpu i) [] :=
        .startYield (.inr ht.2.2)
      exact .cons (e := []) (.clock ht.1 ht.2.1) (reschedule_moves (.inl rfl) hl (atStart_setNow ht.1) h)
    · cases h

end Steps

end World

end BoostCmt
