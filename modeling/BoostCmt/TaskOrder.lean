import BoostCmt.Lib.Runs
import BoostCmt.Queues
import BoostCmt.World
/-!
# In which order `dequeue` returns tasks

`task_pqueue` and `task_sch_queue` are heaps in every state that posts and calls of
`dequeue` lead to. The comparators decide which task is in front: of `task_pqueue` the one
with the highest priority that was constructed first, of `task_sch_queue` the one with
the latest date.
-/

namespace BoostCmt

open StdHeap Runs ThreadPrivate

/-! ## The two heaps -/

theorem taskPriorityLess_strictWeak : StrictWeak taskPriorityLess where
  asymm := by
    intro a b h
    simp only [taskPriorityLess] at h ⊢
    split at h <;> split <;> simp_all <;> omega
  not_trans := by
    intro a b c h₁ h₂
    simp only [taskPriorityLess] at h₁ h₂ ⊢
    split at h₁ <;> split at h₂ <;> split <;> simp_all <;> omega

theorem taskWhenLess_strictWeak : StrictWeak taskWhenLess where
  asymm := by
    intro a b h
    simp only [taskWhenLess, decide_eq_true_eq, decide_eq_false_iff_not] at h ⊢
    omega
  not_trans := by
    intro a b c h₁ h₂
    simp only [taskWhenLess, decide_eq_false_iff_not] at h₁ h₂ ⊢
    omega

/-- What does not compare less than `u`: a higher priority, or the same and no larger number. -/
theorem taskPriorityLess_eq_false {t u : Task} (h : taskPriorityLess t u = false) :
    u.prio < t.prio ∨ (u.prio = t.prio ∧ t.postedNum ≤ u.postedNum) := by
  simp only [taskPriorityLess] at h
  split at h
  · cases h
  · split at h
    · omega
    · simp only [decide_eq_false_iff_not] at h
      omega

namespace ThreadPrivate

variable {s s' : ThreadPrivate}

/-- Both queues of drained tasks are heaps. -/
structure Heaps (s : ThreadPrivate) : Prop where
  pqueue : IsHeap taskPriorityLess s.taskPqueue
  schQueue : IsHeap taskWhenLess s.taskSchQueue

theorem Heaps.enqueue1 (h : Heaps s) (now : Int) (t : Task) : Heaps (s.enqueue1 now t) := by
  unfold ThreadPrivate.enqueue1
  split
  · exact ⟨h.pqueue, pushHeap_heap taskWhenLess_strictWeak h.schQueue t⟩
  · exact ⟨pushHeap_heap taskPriorityLess_strictWeak h.pqueue t, h.schQueue⟩

theorem Heaps.enqueue (h : Heaps s) (now : Int) (l : List Task) : Heaps (s.enqueue now l) := by
  induction l generalizing s with
  | nil => exact h
  | cons t l ih => exact ih (h.enqueue1 now t)

theorem Heaps.takeNext {now : Int} {o : Option Task} (h : Heaps s) (hn : s.takeNext now = (o, s')) : Heaps s' := by
  rcases takeNext_cases hn with ⟨t, v, -, hq, -, rfl⟩ | ⟨-, ⟨-, -, rfl⟩ | ⟨t, v, -, hq, rfl⟩⟩
  · exact ⟨h.pqueue, popHeap_heap taskWhenLess_strictWeak (hq ▸ h.schQueue)⟩
  · exact h
  · exact ⟨popHeap_heap taskPriorityLess_strictWeak (hq ▸ h.pqueue), h.schQueue⟩

/-- The state of the queues once `dequeue` has drained the chain. -/
def drained (s : ThreadPrivate) (now : Int) : ThreadPrivate :=
  ThreadPrivate.enqueue now { s with taskInQueue := [] } s.taskInQueue

theorem dequeue_eq (s : ThreadPrivate) (now₁ now₂ : Int) :
    s.dequeue now₁ now₂ = (s.drained now₁).takeNext now₂ := rfl

theorem Heaps.drained (h : Heaps s) (now : Int) : Heaps (s.drained now) :=
  Heaps.enqueue (s := { s with taskInQueue := [] }) ⟨h.pqueue, h.schQueue⟩ now s.taskInQueue

/-- Draining moves tasks between the queues. -/
theorem drained_perm (s : ThreadPrivate) (now : Int) :
    ((s.drained now).taskPqueue ++ (s.drained now).taskSchQueue).Perm s.tasks :=
  (enqueue_perm now s.taskInQueue { s with taskInQueue := [] }).2

end ThreadPrivate

/-! ## Posts and calls of `dequeue` -/

inductive QueueOp where
  /-- A thread pushes `t` on `task_in_queue`. -/
  | post (t : Task)
  /-- `dequeue`, with the clock readings of `enqueue` and its own. -/
  | dequeue (now₁ now₂ : Int)
  deriving DecidableEq, Repr

inductive QueueEvent where
  | posted (t : Task)
  | returned (t : Task)
  deriving DecidableEq, Repr

def queueStep (s : ThreadPrivate) : QueueOp → Option (ThreadPrivate × List QueueEvent)
  | .post t => some ({ s with taskInQueue := t :: s.taskInQueue }, [.posted t])
  | .dequeue now₁ now₂ =>
    if now₁ ≤ now₂ then
      let (next, s) := s.dequeue now₁ now₂
      some (s, next.toList.map .returned)
    else none

section Queue
variable {s s' s₀ : ThreadPrivate} {op : QueueOp} {es e : List QueueEvent}
  {ok : List QueueEvent → ThreadPrivate → QueueOp → List QueueEvent → Prop}

theorem queueStep_heaps (h : Heaps s) (hs : queueStep s op = some (s', e)) : Heaps s' := by
  cases op with
  | post t =>
    obtain ⟨rfl, -⟩ := Prod.mk.inj (Option.some.inj hs)
    exact ⟨h.pqueue, h.schQueue⟩
  | dequeue now₁ now₂ =>
    simp only [queueStep] at hs
    split at hs
    · obtain ⟨rfl, -⟩ := Prod.mk.inj (Option.some.inj hs)
      exact (h.drained now₁).takeNext rfl
    · cases hs

theorem heaps_init : Heaps {} := ⟨fun _ _ _ _ h => by simp at h, fun _ _ _ _ h => by simp at h⟩

/-- Both heaps are heaps in every state that posts and calls of `dequeue` lead to. -/
theorem heaps_run (h₀ : Heaps s₀) (h : Run queueStep ok s₀ s es) : Heaps s :=
  h.inv (fun _ s => Heaps s) h₀ (fun _ _ _ _ _ hI _ hs => queueStep_heaps hI hs)

/-! ## Priorities -/

/-- The task has the default date, and the clock is a time point. -/
def untimed : QueueOp → Prop
  | .post t => t.when = timePointMin
  | .dequeue now₁ _ => timePointMin ≤ now₁

instance : DecidablePred untimed := fun op => by cases op <;> unfold untimed <;> infer_instance

/-- What is known between operations: no task is scheduled, and each posted one waits or was returned. -/
structure Untimed (es : List QueueEvent) (s : ThreadPrivate) : Prop where
  heaps : Heaps s
  unscheduled : s.taskSchQueue = []
  tasks : ∀ t ∈ s.tasks, t.when = timePointMin
  posted : ∀ t, .posted t ∈ es → .returned t ∈ es ∨ t ∈ s.tasks

theorem enqueue_untimed {now : Int} {l : List Task} (hnow : timePointMin ≤ now)
    (hl : ∀ t ∈ l, t.when = timePointMin) :
    (s.enqueue now l).taskSchQueue = s.taskSchQueue := by
  induction l generalizing s with
  | nil => rfl
  | cons t l ih =>
    have ht : ¬ t.when > now := by
      rw [hl t (by simp)]
      omega
    refine (ih (s := s.enqueue1 now t) (fun u hu => hl u (by simp [hu]))).trans ?_
    rw [ThreadPrivate.enqueue1, if_neg ht]

theorem drained_untimed {now : Int} (hnow : timePointMin ≤ now) (h : Untimed es s) :
    (s.drained now).taskSchQueue = [] ∧ (s.drained now).taskPqueue.Perm s.tasks := by
  have hsch : (s.drained now).taskSchQueue = s.taskSchQueue :=
    enqueue_untimed (s := { s with taskInQueue := [] }) hnow (fun t ht => h.tasks t (by simp [ThreadPrivate.tasks, ht]))
  have hperm := s.drained_perm now
  rw [h.unscheduled] at hsch
  rw [hsch, List.append_nil] at hperm
  exact ⟨hsch, hperm⟩

theorem Untimed.step (h : Untimed es s) (hop : untimed op) (hs : queueStep s op = some (s', e)) :
    Untimed (es ++ e) s' := by
  have hheaps := queueStep_heaps h.heaps hs
  cases op with
  | post t =>
    obtain ⟨rfl, rfl⟩ := Prod.mk.inj (Option.some.inj hs)
    refine ⟨hheaps, h.unscheduled, fun u hu => ?_, fun u hu => ?_⟩
    · rcases List.mem_cons.1 hu with rfl | hu
      · exact hop
      · exact h.tasks u hu
    · rcases List.mem_append.1 hu with hu | hu
      · rcases h.posted u hu with hr | hm
        · exact .inl (List.mem_append_left _ hr)
        · exact .inr (List.mem_cons_of_mem _ hm)
      · obtain rfl : u = t := by simpa using hu
        exact .inr (List.mem_cons_self)
  | dequeue now₁ now₂ =>
    simp only [queueStep] at hs
    split at hs
    · obtain ⟨rfl, rfl⟩ := Prod.mk.inj (Option.some.inj hs)
      obtain ⟨hsch, -⟩ := drained_untimed hop h
      have hd : s.dequeue now₁ now₂ = ((s.dequeue now₁ now₂).1, (s.dequeue now₁ now₂).2) := rfl
      have hperm := (dequeue_perm hd).2
      refine ⟨hheaps, ?_, fun u hu => ?_, fun u hu => ?_⟩
      · rcases takeNext_cases (show (s.drained now₁).takeNext now₂ = (_, _) from rfl) with
          ⟨t, v, -, hq, -, he⟩ | ⟨-, ⟨-, -, he⟩ | ⟨t, v, -, hq, he⟩⟩
        · rw [hsch] at hq
          cases hq
        · exact (congrArg taskSchQueue he).trans hsch
        · exact (congrArg taskSchQueue he).trans hsch
      · exact h.tasks u (hperm.mem_iff.2 (List.mem_append_right _ hu))
      · have hu' : QueueEvent.posted u ∈ es := by simpa using hu
        rcases h.posted u hu' with hr | hm
        · exact .inl (List.mem_append_left _ hr)
        · rcases List.mem_append.1 (hperm.mem_iff.1 hm) with hm | hm
          · exact .inl (List.mem_append_right _ (List.mem_map_of_mem hm))
          · exact .inr hm
    · cases hs

/-- Whatever the posts and the calls of `dequeue` before, a task that `dequeue` returns has the highest priority in
`task_pqueue` and the smallest number among those; so every task that was pushed before and has a higher priority,
or the same and a smaller number, was returned before. -/
theorem priority_order (h : Run queueStep (fun _ _ op _ => untimed op) {} s es) {now₁ now₂ : Int}
    (hnow : timePointMin ≤ now₁) {b : Task} (hd : s.dequeue now₁ now₂ = (some b, s')) :
    (b ∈ (s.drained now₁).taskPqueue ∧ ∀ u ∈ (s.drained now₁).taskPqueue,
      u.prio < b.prio ∨ (u.prio = b.prio ∧ b.postedNum ≤ u.postedNum)) ∧
    ∀ a, .posted a ∈ es → b.prio < a.prio ∨ (a.prio = b.prio ∧ a.postedNum < b.postedNum) → .returned a ∈ es := by
  have hI : Untimed es s := h.inv Untimed ⟨heaps_init, rfl, fun t ht => (by cases ht), fun t ht => (by cases ht)⟩
    (fun _ s op s' e hI (hop : untimed op) (hs : queueStep s op = some (s', e)) => Untimed.step hI hop hs)
  obtain ⟨hsch, hperm⟩ := drained_untimed hnow hI
  rw [dequeue_eq] at hd
  have hfirst : b ∈ (s.drained now₁).taskPqueue ∧ ∀ u ∈ (s.drained now₁).taskPqueue,
      u.prio < b.prio ∨ (u.prio = b.prio ∧ b.postedNum ≤ u.postedNum) := by
    rcases takeNext_cases hd with ⟨t, v, ht, hq, -⟩ | ⟨-, ⟨ht, -⟩ | ⟨t, v, ht, hq, -⟩⟩
    · rw [hsch] at hq
      cases hq
    · cases ht
    · obtain rfl := Option.some.inj ht
      rw [hq]
      refine ⟨List.mem_cons_self, fun u hu => taskPriorityLess_eq_false ?_⟩
      exact IsHeap.front taskPriorityLess_strictWeak (hq ▸ (hI.heaps.drained now₁).pqueue) u hu
  refine ⟨hfirst, fun a ha hab => ?_⟩
  rcases hI.posted a ha with hr | hm
  · exact hr
  · have := hfirst.2 a (hperm.mem_iff.2 hm)
    omega

/-- Two tasks of one priority are drained in two batches, the one with the smaller number last. -/
theorem priority_order_two_batches : ∃ (s : ThreadPrivate) (es : List QueueEvent),
    Run queueStep (fun _ _ op _ => untimed op) {} s es ∧
    ∃ s', s.dequeue 0 0 = (some { postedNum := 3, body := .vtask }, s') ∧
      ((.posted { postedNum := 1, body := .vtask } ∈ es ∧ .returned { postedNum := 2, prio := 1, body := .vtask } ∈ es) ∧
        .returned { postedNum := 1, body := .vtask } ∈ es) := by
  obtain ⟨s, es, hrun, hf⟩ :=
    run_of_check queueStep (fun _ _ op _ => untimed op) (fun _ _ op _ => decide (untimed op)) {}
    (fun s es => (s.dequeue 0 0).1 == some { postedNum := 3, body := .vtask } &&
      (es.contains (.posted { postedNum := 1, body := .vtask }) &&
        es.contains (.returned { postedNum := 2, prio := 1, body := .vtask })))
    [.post { postedNum := 3, body := .vtask }, .post { postedNum := 2, prio := 1, body := .vtask }, .dequeue 0 0,
      .post { postedNum := 1, body := .vtask }, .dequeue 0 0]
    (fun _ _ _ _ h => of_decide_eq_true h) (by decide)
  simp only [Bool.and_eq_true, beq_iff_eq, List.contains_iff_mem] at hf
  refine ⟨s, es, hrun, (s.dequeue 0 0).2, Prod.ext hf.1 rfl, hf.2, ?_⟩
  exact (priority_order hrun (by decide) (Prod.ext hf.1 rfl)).2 _ hf.2.1 (by decide)

/-! ## Dates -/

/-- The `when` of a posted task is a time point. -/
def dated : QueueOp → Prop
  | .post t => timePointMin ≤ t.when ∧ t.when ≤ timePointMax
  | .dequeue _ _ => True

instance : DecidablePred dated := fun op => by cases op <;> unfold dated <;> infer_instance

/-- Scheduled tasks are served earliest date first, at every reading `now₂` after the chain was drained at `now₁`:
if one is due, `dequeue` returns one with the earliest date; and when none is due and no sleeper is earlier, the
earliest date is what `check_for_timeouts` reports. -/
structure EarliestFirst (V : Type) (s : ThreadPrivate) (now₁ : Int) : Prop where
  serves : ∀ now₂, now₁ ≤ now₂ → (∃ u ∈ (s.drained now₁).taskSchQueue, u.when ≤ now₂) →
    ∃ t, (s.dequeue now₁ now₂).1 = some t ∧ t ∈ (s.drained now₁).taskSchQueue ∧
      ∀ u ∈ (s.drained now₁).taskSchQueue, t.when ≤ u.when
  reports : ∀ (w : World V) (i : ThreadId), w.thr i = s.drained now₁ → (s.drained now₁).taskSchQueue ≠ [] →
    (∀ u ∈ (s.drained now₁).taskSchQueue, w.now < u.when) →
    (∀ c ∈ (s.drained now₁).sleepPqueue, ∃ u ∈ (s.drained now₁).taskSchQueue,
      u.when ≤ ((s.drained now₁).ctx c).resumeTime) →
    ∃ t ∈ (s.drained now₁).taskSchQueue, (∀ u ∈ (s.drained now₁).taskSchQueue, t.when ≤ u.when) ∧
      w.checkForTimeouts i = some (t.when, w, [])

/-- All scheduled tasks have one date. -/
def OneDate (s : ThreadPrivate) : Prop := ∀ t ∈ s.taskSchQueue, ∀ u ∈ s.taskSchQueue, t.when = u.when

/-- The front of `task_sch_queue` has the latest date. -/
theorem ThreadPrivate.Heaps.latest {t : Task} {v : List Task} (h : Heaps s) (hq : s.taskSchQueue = t :: v) :
    ∀ u ∈ s.taskSchQueue, u.when ≤ t.when := by
  intro u hu
  have := IsHeap.front taskWhenLess_strictWeak (hq ▸ h.schQueue) u (hq ▸ hu)
  simp only [taskWhenLess, decide_eq_false_iff_not] at this
  omega

theorem dated_run (h₀ : s₀.tasks = []) (h : Run queueStep (fun _ _ op _ => dated op) s₀ s es) :
    ∀ t ∈ s.tasks, t.when ≤ timePointMax := by
  refine h.inv (fun _ s => ∀ t ∈ s.tasks, t.when ≤ timePointMax) (by simp [h₀]) (fun _ s op s' e hI hop hs => ?_)
  cases op with
  | post t =>
    obtain ⟨rfl, rfl⟩ := Prod.mk.inj (Option.some.inj hs)
    intro u hu
    rcases List.mem_cons.1 hu with rfl | hu
    · exact hop.2
    · exact hI u hu
  | dequeue now₁ now₂ =>
    simp only [queueStep] at hs
    split at hs
    · obtain ⟨rfl, rfl⟩ := Prod.mk.inj (Option.some.inj hs)
      have hd : s.dequeue now₁ now₂ = ((s.dequeue now₁ now₂).1, (s.dequeue now₁ now₂).2) := rfl
      have hperm := (dequeue_perm hd).2
      exact fun u hu => hI u (hperm.mem_iff.2 (List.mem_append_right _ hu))
    · cases hs

/-- The front of `task_sch_queue` and the first sleeper decide what `check_for_timeouts` reports. -/
theorem checkForTimeouts_reports {V : Type} {w : World V} {i : ThreadId} {t : Task} {v : List Task}
    (hq : (w.thr i).taskSchQueue = t :: v) (hnow : w.now < t.when) (hmax : t.when ≤ timePointMax)
    (hsleep : ∀ c ∈ (w.thr i).sleepPqueue, t.when ≤ ((w.thr i).ctx c).resumeTime) :
    w.checkForTimeouts i = some (t.when, w, []) := by
  have hnext : World.nextDeadline (w.thr i) = t.when := by
    have hfirst : (if timePointMax > t.when then t.when else timePointMax) = t.when := by
      split <;> omega
    simp only [World.nextDeadline, hq, hfirst]
    cases hs : (w.thr i).sleepPqueue with
    | nil => rfl
    | cons c l =>
      have := hsleep c (hs ▸ List.mem_cons_self)
      exact if_neg (by omega)
  simp only [World.checkForTimeouts, hnext]
  rw [if_neg (by simp [hq]), if_pos hnow]

/-- In every state that posts and calls of `dequeue` lead to, scheduled tasks are served earliest date first if and
only if all of them have one date. -/
theorem earliest_first (V : Type) (h₀ : s₀.tasks = []) (h : Run queueStep (fun _ _ op _ => dated op) s₀ s es)
    (now₁ : Int) : EarliestFirst V s now₁ ↔ OneDate (s.drained now₁) := by
  have hheaps : Heaps (s.drained now₁) := by
    have h₁ : s₀.taskPqueue = [] ∧ s₀.taskSchQueue = [] := by simp [ThreadPrivate.tasks] at h₀; exact h₀.2
    refine (heaps_run ⟨?_, ?_⟩ h).drained now₁
    · rw [h₁.1]; exact heaps_init.pqueue
    · rw [h₁.2]; exact heaps_init.schQueue
  constructor
  · intro hE
    cases hq : (s.drained now₁).taskSchQueue with
    | nil => simp [OneDate, hq]
    | cons f v =>
      -- once the front is due, `dequeue` returns it, and its date is the latest
      have hf : f ∈ (s.drained now₁).taskSchQueue := hq ▸ List.mem_cons_self
      obtain ⟨t, ht, -, hmin⟩ := hE.serves (max now₁ f.when) (by omega) ⟨f, hf, by omega⟩
      rw [dequeue_eq, takeNext, hq] at ht
      simp only [if_pos (show f.when ≤ max now₁ f.when by omega)] at ht
      obtain rfl := Option.some.inj ht
      intro a ha b hb
      have hla := hheaps.latest hq a ha
      have hlb := hheaps.latest hq b hb
      have := hmin a ha
      have := hmin b hb
      omega
  · intro hone
    refine ⟨fun now₂ _ hdue => ?_, fun w i hw hne hnow hsleep => ?_⟩
    · obtain ⟨u, hu, hwhen⟩ := hdue
      cases hq : (s.drained now₁).taskSchQueue with
      | nil => rw [hq] at hu; cases hu
      | cons f v =>
        have hf : f ∈ (s.drained now₁).taskSchQueue := hq ▸ List.mem_cons_self
        refine ⟨f, ?_, List.mem_cons_self, fun x hx => Int.le_of_eq (hone f hf x (hq ▸ hx))⟩
        have := hone f hf u hu
        rw [dequeue_eq, takeNext, hq]
        simp only [if_pos (show f.when ≤ now₂ by omega)]
    · cases hq : (s.drained now₁).taskSchQueue with
      | nil => exact absurd hq hne
      | cons f v =>
        have hf : f ∈ (s.drained now₁).taskSchQueue := hq ▸ List.mem_cons_self
        refine ⟨f, List.mem_cons_self, fun x hx => Int.le_of_eq (hone f hf x (hq ▸ hx)), ?_⟩
        refine checkForTimeouts_reports (v := v) (hw ▸ hq) (hnow f hf) ?_ (fun c hc => ?_)
        · exact dated_run h₀ h f ((s.drained_perm now₁).mem_iff.1 (List.mem_append_right _ hf))
        · rw [hw] at hc ⊢
          obtain ⟨u, hu, hle⟩ := hsleep c hc
          have := hone f hf u hu
          omega

/-- Two tasks for one date. -/
theorem earliest_first_one_date : ∃ (s : ThreadPrivate) (es : List QueueEvent),
    (Run queueStep (fun _ _ op _ => dated op) {} s es ∧ (s.drained 0).taskSchQueue.length = 2) ∧
      (EarliestFirst Nat s 0 ↔ OneDate (s.drained 0)) := by
  obtain ⟨s, es, hrun, hf⟩ :=
    run_of_check queueStep (fun _ _ op _ => dated op) (fun _ _ op _ => decide (dated op)) {}
    (fun s _ => (s.drained 0).taskSchQueue.length == 2)
    [.post { postedNum := 1, when := 10, body := .vtask }, .dequeue 0 0,
      .post { postedNum := 2, when := 10, body := .vtask }]
    (fun _ _ _ _ h => of_decide_eq_true h) (by decide)
  exact ⟨s, es, ⟨hrun, beq_iff_eq.1 hf⟩, earliest_first Nat rfl hrun 0⟩

/-- A task for time 10 waits behind one for time 20: nothing is returned at time 15, `check_for_timeouts` reports
20, and at time 25 the later task comes first. -/
theorem later_date_first : ∃ (s : ThreadPrivate) (es : List QueueEvent),
    Run queueStep (fun _ _ op _ => dated op) {} s es ∧ s.taskSchQueue.map Task.when = [20, 10] ∧
      (s.dequeue 15 15).1 = none ∧ World.nextDeadline s = 20 ∧ (s.dequeue 25 25).1.map Task.when = some 20 ∧
      ¬ EarliestFirst Nat s 0 := by
  obtain ⟨s, es, hrun, hf⟩ :=
    run_of_check queueStep (fun _ _ op _ => dated op) (fun _ _ op _ => decide (dated op)) {}
    (fun s _ => (s.drained 0).taskSchQueue.map Task.when == [20, 10] && s.taskSchQueue.map Task.when == [20, 10] &&
      (s.dequeue 15 15).1 == none && World.nextDeadline s == 20 && ((s.dequeue 25 25).1.map Task.when) == some 20 &&
      (s.drained 0).taskSchQueue == s.taskSchQueue && (s.dequeue 0 15).1 == none)
    [.post { postedNum := 1, when := 10, body := .vtask }, .post { postedNum := 2, when := 20, body := .vtask },
      .dequeue 0 0]
    (fun _ _ _ _ h => of_decide_eq_true h) (by decide)
  simp only [Bool.and_eq_true, beq_iff_eq] at hf
  obtain ⟨⟨⟨⟨⟨⟨-, hq⟩, h₁⟩, h₂⟩, h₃⟩, hdr⟩, h₄⟩ := hf
  refine ⟨s, es, hrun, hq, h₁, h₂, h₃, fun hE => ?_⟩
  have hten : (10 : Int) ∈ (s.drained 0).taskSchQueue.map Task.when := by rw [hdr, hq]; simp
  obtain ⟨u, hu, hwhen⟩ := List.mem_map.1 hten
  obtain ⟨t, ht, -⟩ := hE.serves 15 (by decide) ⟨u, hu, by omega⟩
  rw [h₄] at ht
  cases ht

end Queue

end BoostCmt
