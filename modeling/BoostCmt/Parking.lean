import BoostCmt.Invocation
import BoostCmt.Spinning
import BoostCmt.TaskOrder
/-!
# What a thread leaves when it goes to sleep

`process_tasks` computes `timeout_time` at its last `check_for_timeouts` and may do
a lot before it waits: drain its queue, and run other contexts in
`start_next_task(true)`. `Prompt` says when nothing of that matters: the front of
`task_sch_queue` has no later date than what is behind it, a task that is drained
afterwards is not scheduled for an earlier time, and after a switch neither a
context is ready nor an earlier date has come up.
-/

namespace BoostCmt

open ThreadPrivate StdHeap Linked Runs

variable {V : Type}

/-- No sleeper and no scheduled task has a date before `tm`. -/
structure ThreadPrivate.NoneBefore (s : ThreadPrivate) (tm : Int) : Prop where
  sleep : ∀ c ∈ s.sleepPqueue, tm ≤ (s.ctx c).resumeTime
  sch : ∀ t ∈ s.taskSchQueue, tm ≤ t.when

namespace ThreadPrivate

variable {s s' : ThreadPrivate} {t₁ t₂ : Int}

/-- What is in `task_sch_queue` after `enqueue` was there before, or is not due yet. -/
theorem enqueue_sch (now : Int) (l : List Task) : ∀ s : ThreadPrivate, ∀ t ∈ (s.enqueue now l).taskSchQueue,
    t ∈ s.taskSchQueue ∨ t ∈ l ∧ now < t.when := by
  induction l with
  | nil => exact fun s t ht => .inl ht
  | cons u l ih =>
    intro s t ht
    rcases ih (s.enqueue1 now u) t ht with h | ⟨h, hlt⟩
    · unfold enqueue1 at h
      split at h
      · next hlt =>
        rcases List.mem_append.1 ((pushHeap_perm _ _).subset h) with h | h
        · exact .inl h
        · obtain rfl := List.mem_singleton.1 h
          exact .inr ⟨List.mem_cons_self, hlt⟩
      · exact .inl h
    · exact .inr ⟨List.mem_cons_of_mem _ h, hlt⟩

/-- A `dequeue` that returns nothing has drained the chain. No task is left for now, and the front of
`task_sch_queue` is not due. -/
theorem dequeue_none (h : s.dequeue t₁ t₂ = (none, s')) :
    s'.taskInQueue = [] ∧ s'.taskPqueue = [] ∧ (∀ t v, s'.taskSchQueue = t :: v → t₂ < t.when) ∧
      s' = s.drained t₁ ∧ ∀ t ∈ s'.taskSchQueue, t ∈ s.taskSchQueue ∨ t ∈ s.taskInQueue ∧ t₁ < t.when := by
  have hin := (dequeue_perm h).1
  rw [dequeue_eq] at h
  rcases takeNext_cases h with ⟨t, v, e, -⟩ | ⟨hdue, ⟨-, hp, rfl⟩ | ⟨t, v, e, -⟩⟩
  · cases e
  · exact ⟨hin, hp, hdue, rfl, fun t ht => enqueue_sch t₁ s.taskInQueue { s with taskInQueue := [] } t ht⟩
  · cases e

/-- No date is before the deadline that `check_for_timeouts` finds, if none is before the front of
`task_sch_queue`. -/
theorem NoneBefore.deadline {R B : List CtxId} (h : Lists s R B)
    (hsch : ∀ t ∈ s.taskSchQueue, World.nextDeadline s ≤ t.when) :
    s.NoneBefore (World.nextDeadline s) := by
  refine ⟨fun c hc => ?_, hsch⟩
  cases hq : s.sleepPqueue with
  | nil => rw [hq] at hc; cases hc
  | cons c₀ v =>
    refine Int.le_trans ?_ (h.front_min hq c hc)
    simp only [World.nextDeadline, hq]
    split <;> split <;> omega

end ThreadPrivate

namespace World

variable {w w' : World V} {i : ThreadId} {ph : Phase} {es es' : List (Event V)} {a : Action V}

/-! ## Where `process_tasks` goes on towards its wait -/

/-- `process_tasks` is between the end of its inner loop and the end of its wait. -/
def toWait : ProcPc → Bool
  | .tests => true
  | .lock => true
  | .sleeping => true
  | _ => false

/-- The thread is anywhere else. -/
def Away (k : List (Frame V)) : Prop := ∀ pc tm k', k = .processTasks pc tm :: k' → toWait pc = false

theorem away_cons {f : Frame V} {k : List (Frame V)} (hf : ∀ pc tm, f = .processTasks pc tm → toWait pc = false) :
    Away (f :: k) := by
  rintro pc tm k' e
  exact hf pc tm (List.cons.inj e).1

theorem external.away {k : List (Frame V)} (h : external k) : Away k := by
  rintro pc tm k' rfl
  cases h

theorem Nested.away {f : Frame V} {k : List (Frame V)} (h : Nested (f :: k)) : Away k := by
  rintro pc tm k' rfl
  have hs := (List.isChain_cons.1 h).1 _ rfl
  cases f with
  | yield => rcases hs with hs | hs <;> cases hs
  | task | set =>
    unfold Frame.standsOn at hs
    split at hs <;> simp_all [Frame.outside, toWait]
  | _ => exact hs.elim

theorem startNextTask_away {r : Bool} {saved : List (Frame V)} (hv : Valid w)
    (hres : ∀ c, c ≠ w.cur i → w.myContext i c = [] ∨ atResume (w.myContext i c) = true) (hsaved : Away saved)
    (h : w.startNextTask i r saved = some (w', es)) : Away (w'.cpu i) := by
  rcases startNextTask_lands hv h with e | e | ⟨c, hc, e⟩
  · rwa [e]
  · rw [e]
    exact away_cons (by simp [toWait])
  · rw [e]
    rintro pc tm k' hk
    rcases hres c hc with hn | hr
    · rw [hn] at hk
      cases hk
    · rw [hk] at hr
      cases pc <;> first | rfl | cases hr

theorem Orderly.resumes (h : Orderly .start w i) :
    ∀ c, c ≠ w.cur i → w.myContext i c = [] ∨ atResume (w.myContext i c) = true := by
  intro c hc
  have := h.resume i c hc
  rwa [stack, if_neg hc] at this

theorem Orderly.nested_cpu (h : Orderly .start w i) : Nested (w.cpu i) := by
  have := h.nested i (w.cur i)
  rwa [stack_cur] at this

/-- A context puts itself on a list and is switched away from. -/
theorem Orderly.suspends_away (h : Orderly .start w i) {s : ThreadPrivate} {t : Int} {saved : List (Frame V)}
    (hs : ValidThr s) (hcur : s.current = some (w.cur i)) (hsaved : Away saved)
    (hn : ((w.setThr i s).setNow t).startNextTask i false saved = some (w', es)) : Away (w'.cpu i) := by
  have hv : Valid ((w.setThr i s).setNow t) := h.sane.valid.setThr hs
  have hc : ((w.setThr i s).setNow t).cur i = w.cur i := cur_setThr (w := w) (by rw [hcur]; rfl) i
  exact startNextTask_away hv (fun c hne => h.resumes c (hc ▸ hne)) hsaved hn

/-- A context gives up its turn. -/
theorem Orderly.reschedules_away (h : Orderly .start w i) {t : Int} {saved : List (Frame V)} (hsaved : Away saved)
    (hn : (w.setNow t).startNextTask i true saved = some (w', es)) : Away (w'.cpu i) := by
  have hv : Valid (w.setNow t) := h.sane.valid
  exact startNextTask_away hv h.resumes hsaved hn

theorem stepCall_away (h : Orderly .start w i) {t : Int} {c : Call V} (hx : external (w.cpu i)) (hq : NoQuit es)
    (hs : w.stepCall i t (w.cpu i) c = some (w', es)) : Away (w'.cpu i) := by
  cases c with
  | newPromise | async | asyncVoid | scheduleVoid =>
    obtain ⟨rfl, -⟩ := Prod.mk.inj (Option.some.inj hs)
    exact hx.away
  | wait | set =>
    simp only [stepCall] at hs
    split at hs
    · obtain ⟨rfl, -⟩ := Prod.mk.inj (Option.some.inj hs)
      simp only [setCpu_cpu, if_true]
      exact away_cons (by simp [toWait])
    · cases hs
  | cancel =>
    simp only [stepCall] at hs
    split at hs
    · split at hs
      · obtain ⟨rfl, -⟩ := Prod.mk.inj (Option.some.inj hs)
        rw [show (w.cancelTask _).cpu = w.cpu by simp only [cancelTask]; split <;> rfl]
        exact hx.away
      · obtain ⟨rfl, -⟩ := Prod.mk.inj (Option.some.inj hs)
        exact hx.away
    · cases hs
  | sleepUntil tp =>
    simp only [stepCall] at hs
    split at hs
    · obtain ⟨rfl, -⟩ := Prod.mk.inj (Option.some.inj hs)
      exact hx.away
    · obtain ⟨hve, hcur, hcur', -⟩ := (h.sane.valid i).ensureCurrent
      refine h.suspends_away (hve.sleepOn (hve.current _ hcur) tp) ?_ (away_cons (by simp [toWait])) hs
      rw [(sleepOn_core _ _ _).1, hcur, hcur']
      rfl
  | yield => exact h.reschedules_away (away_cons (by simp [toWait])) hs
  | exec =>
    obtain ⟨rfl, -⟩ := Prod.mk.inj (Option.some.inj hs)
    simp only [setCpu_cpu, if_true]
    exact away_cons (by simp [toWait])
  | quit =>
    obtain ⟨w₁, -, he⟩ := Option.map_eq_some_iff.1 hs
    obtain ⟨-, rfl⟩ := Prod.mk.inj he
    exact absurd (by simp) (hq i)
  | sync =>
    obtain ⟨rfl, -⟩ := Prod.mk.inj (Option.some.inj hs)
    simp only [setCpu_cpu, if_true]
    exact away_cons (by simp [toWait])

theorem stepWait_away (h : Orderly .start w i) {t₁ t₂ : Int} {p : PromId} {d : Int} {k : List (Frame V)}
    {pc : WaitPc}
    (hcpu : w.cpu i = .wait pc p d :: k) (hs : (w.setNow t₁).stepWait i t₁ t₂ p d k pc = some (w', es)) :
    Away (w'.cpu i) := by
  have hk : Away k := (hcpu ▸ h.nested_cpu).away
  have hpop : ∀ {u : World V} {es'}, some (u.setCpu i k, es') = some (w', es) → Away (w'.cpu i) := fun he => by
    obtain ⟨rfl, -⟩ := Prod.mk.inj (Option.some.inj he)
    rwa [setCpu_cpu, if_pos rfl]
  have htop : ∀ {u : World V} {es'} {pc' : WaitPc}, some (u.setCpu i (.wait pc' p d :: k), es') = some (w', es) →
      Away (w'.cpu i) := fun he => by
    obtain ⟨rfl, -⟩ := Prod.mk.inj (Option.some.inj he)
    rw [setCpu_cpu, if_pos rfl]
    exact away_cons (by simp [toWait])
  cases pc with
  | check | finish =>
    simp only [stepWait] at hs
    split at hs <;> first | exact hpop hs | exact htop hs
  | ready | resumed =>
    simp only [stepWait] at hs
    split at hs <;> first | exact hpop hs | exact htop hs
  | block =>
    simp only [stepWait] at hs
    split at hs
    · exact hpop hs
    · obtain ⟨hve, hcur, hcur', -⟩ := (h.sane.valid i).ensureCurrent
      refine h.suspends_away (hve.waitOn (hve.current _ hcur) p d) ?_ (away_cons (by simp [toWait])) hs
      rw [(waitOn_core _ _ _ _).1]
      rw [hcur, hcur']
      rfl

theorem stepSet_away {p : PromId} {o : Outcome V} {b : Bool} {k : List (Frame V)} {pc : SetPc} (hk : Away k)
    (hs : w.stepSet i p o b k pc = some (w', es)) : Away (w'.cpu i) := by
  have hpop : ∀ {u : World V} {es'}, some (u.setCpu i k, es') = some (w', es) → Away (w'.cpu i) := fun he => by
    obtain ⟨rfl, -⟩ := Prod.mk.inj (Option.some.inj he)
    rwa [setCpu_cpu, if_pos rfl]
  have htop : ∀ {u : World V} {es'} {pc' : SetPc}, some (u.setCpu i (.set pc' p o b :: k), es') = some (w', es) →
      Away (w'.cpu i) := fun he => by
    obtain ⟨rfl, -⟩ := Prod.mk.inj (Option.some.inj he)
    rw [setCpu_cpu, if_pos rfl]
    exact away_cons (by simp [toWait])
  cases pc with
  | store =>
    simp only [stepSet] at hs
    split at hs
    · split at hs <;> first | exact hpop hs | exact htop hs
    · exact htop hs
  | notify =>
    simp only [stepSet] at hs
    split at hs <;> first | exact hpop hs | exact htop hs
  | post t =>
    obtain ⟨u, -, he⟩ := Option.map_eq_some_iff.1 hs
    exact hpop (congrArg some he)

theorem unwind_away {k : List (Frame V)} (h : Nested k) (hk : Away k) : Away (unwind i k).1 := by
  unfold unwind
  split
  · exact h.away
  · exact away_cons (by simp [toWait])
  · exact h.away
  · exact hk

theorem loopWith_away {t : Task} {k : List (Frame V)} (hk : Away k) (hs : w.loopWith i t k = some (w', es)) :
    Away (w'.cpu i) := by
  simp only [loopWith] at hs
  split at hs
  · obtain ⟨rfl, -⟩ := Prod.mk.inj (Option.some.inj hs)
    rwa [setCpu_cpu, if_pos rfl]
  · simp only [Option.bind_eq_bind, Option.bind_eq_some_iff] at hs
    obtain ⟨⟨tm, w₁, e₁⟩, -, ⟨w₂, e₂⟩, hr, he⟩ := hs
    obtain ⟨rfl, -⟩ := Prod.mk.inj (Option.some.inj he)
    rcases runTask_cpu hr with ⟨q, -, -, e⟩ | ⟨-, e⟩ | ⟨q, -, -, e⟩ <;> rw [e] <;> exact away_cons (by simp [toWait])

/-- `process_tasks` comes to the end of its inner loop, to the lock or to its wait only from one of five places. -/
theorem step_away (h : Orderly .start w i) (hs : w.step a = some (w', es)) (hi : a.thread = i) (hq : NoQuit es) :
    (∃ t, a = .tick t) ∨ Away (w'.cpu i) ∨ ∃ t₁ t₂ t₃ pc tm k, a = .run i t₁ t₂ t₃ ∧
    w.cpu i = .processTasks pc tm :: k ∧
      w.stepProcessTasks i t₁ t₂ t₃ tm k pc = some (w', es) ∧
      (pc = .top ∨ pc = .again ∨ pc = .tests ∨ pc = .switched ∨ pc = .lock) := by
  cases a with
  | tick t => exact .inl ⟨t, rfl⟩
  | call j t c =>
    obtain rfl : j = i := hi
    obtain ⟨hx, hc⟩ := step_call hs
    exact .inr (.inl (stepCall_away h hx hq hc))
  | finish j o =>
    obtain rfl : j = i := hi
    have hn := h.nested_cpu
    simp only [step] at hs
    split at hs
    · next hcpu =>
      rw [hcpu] at hn
      simp only [finish] at hs
      split at hs <;> obtain ⟨rfl, -⟩ := Prod.mk.inj (Option.some.inj hs) <;> rw [setCpu_cpu, if_pos rfl]
      · exact .inr (.inl (away_cons (by simp [toWait])))
      · exact .inr (.inl hn.away)
    · cases hs
  | contend j t =>
    obtain rfl : j = i := hi
    simp only [step] at hs
    split at hs
    · exact .inr (.inl (h.reschedules_away (away_cons (by simp [toWait])) hs))
    · cases hs
  | run j t₁ t₂ t₃ =>
    obtain rfl : j = i := hi
    have hn := h.nested_cpu
    have hpop : ∀ {u : World V} {k : List (Frame V)} {es'}, Away k → some (u.setCpu j k, es') = some (w', es) →
        Away (w'.cpu j) := fun hk he => by
      obtain ⟨rfl, -⟩ := Prod.mk.inj (Option.some.inj he)
      rwa [setCpu_cpu, if_pos rfl]
    simp only [step] at hs
    split at hs
    · simp only [stepRun] at hs
      split at hs
      · next pc tm k hcpu =>
        rw [hcpu] at hn
        by_cases hpc : pc = .top ∨ pc = .again ∨ pc = .tests ∨ pc = .switched ∨ pc = .lock
        · exact .inr (.inr ⟨_, _, _, pc, tm, k, rfl, hcpu, hs, hpc⟩)
        · refine .inr (.inl ?_)
          cases pc with
          | top | again | tests | switched | lock => exact absurd (by simp) hpc
          | running | release | sleeping => exact hpop (away_cons (by simp [toWait])) hs
          | start =>
            simp only [stepProcessTasks, dequeue] at hs
            cases hd : (w.thr j).dequeue t₁ t₂ with
            | mk o s =>
              rw [hd] at hs
              cases o with
              | none => exact hpop (away_cons (by simp [toWait])) hs
              | some t => exact loopWith_away hn.away hs
      · next hcpu => exact .inr (.inl (stepWait_away h hcpu hs))
      · next hcpu =>
        rw [hcpu] at hn
        exact .inr (.inl (stepSet_away hn.away hs))
      · next k hcpu =>
        rw [hcpu] at hn
        split at hs <;> exact .inr (.inl (hpop hn.away hs))
      · next k hcpu =>
        rw [hcpu] at hn
        split at hs
        · exact .inr (.inl (hpop (unwind_away hn.tail hn.away) hs))
        · exact .inr (.inl (hpop hn.away hs))
      · next hcpu =>
        rw [hcpu] at hn
        exact .inr (.inl (hpop hn.away hs))
      all_goals cases hs
    · cases hs

/-! ## When nothing is overlooked -/

/-- Every context of the ready list is inside `start_next_task(true)` of a `process_tasks`. -/
def IdleReady (w : World V) (i : ThreadId) : Prop :=
  ∃ R, Chain (fun c => ((w.thr i).ctx c).next) (w.thr i).readyHead R ∧
    ∀ c ∈ R, ∃ tm k, w.stack i c = .processTasks .switched tm :: k

/-- A check at `now` finds nothing due, and no context is ready. -/
def NothingToDo (s : ThreadPrivate) (now : Int) : Prop := now < nextDeadline s ∧ s.readyHead = none

/-- What a step of `process_tasks` has to find for nothing to be overlooked when thread `i` waits. -/
structure PromptAt (i : ThreadId) (w : World V) (t₁ t₂ t₃ : Int) : Prop where
  /-- Behind the front of `task_sch_queue` there is no earlier date, when nothing else is left to do. -/
  front : ∀ pc tm k, w.cpu i = .processTasks pc tm :: k →
    pc = .top ∨ pc = .again ∧ ((w.thr i).dequeue t₂ t₃).1 = none → NothingToDo (w.thr i) t₁ →
      ∀ t ∈ (w.thr i).taskSchQueue, nextDeadline (w.thr i) ≤ t.when
  /-- A task that the last `dequeue` drains is not scheduled for an earlier time than the check before has
  found. -/
  drained : ∀ tm k, w.cpu i = .processTasks .again tm :: k → ((w.thr i).dequeue t₂ t₃).1 = none →
    NothingToDo (w.thr i) t₁ → ∀ t ∈ (w.thr i).taskInQueue, nextDeadline (w.thr i) ≤ t.when
  /-- When `start_next_task(true)` comes back and there is no task, it has left neither a ready context nor an
  earlier date. -/
  switched : ∀ tm k, w.cpu i = .processTasks .switched tm :: k → w.currentCanceled i = false →
    ((w.thr i).dequeue t₁ t₂).1 = none → IdleReady w i ∧ ((w.thr i).drained t₁).NoneBefore tm
  /-- A task that is drained under the lock is not scheduled for an earlier time, and the front of `task_sch_queue`
  is due if any task in it is. -/
  lock : ∀ tm k, w.cpu i = .processTasks .lock tm :: k → ((w.thr i).dequeue t₁ t₂).1 = none →
    (∀ t ∈ (w.thr i).taskInQueue, tm ≤ t.when) ∧ ∀ u ∈ ((w.thr i).drained t₁).taskSchQueue, u.when ≤ t₂ →
      ∀ t ∈ ((w.thr i).drained t₁).taskSchQueue.head?, t.when ≤ t₂

/-- Thread `i` overlooks nothing in this step. -/
def Prompt (i : ThreadId) (w : World V) (a : Action V) : Prop :=
  ∀ t₁ t₂ t₃, a = .run i t₁ t₂ t₃ → PromptAt i w t₁ t₂ t₃

/-- What `process_tasks` may rely on until it waits. -/
structure Poised (i : ThreadId) (w : World V) : Prop where
  tests : ∀ tm k, w.cpu i = .processTasks .tests tm :: k →
    tm = timePointMin ∨ (w.thr i).readyHead ≠ none ∨ (w.thr i).NoneBefore tm
  lock : ∀ tm k, w.cpu i = .processTasks .lock tm :: k → (w.thr i).NoneBefore tm ∧ IdleReady w i

theorem Away.poised (h : Away (w.cpu i)) : Poised i w where
  tests tm k e := by cases h _ _ _ e
  lock tm k e := by cases h _ _ _ e

theorem NoneBefore.foreign {s s' : ThreadPrivate} {tm : Int} (h : s.NoneBefore tm) (hf : Foreign s s') :
    s'.NoneBefore tm where
  sleep c hc := by
    obtain ⟨b, hb⟩ := hf.ctx c
    rw [hb]
    exact h.sleep c (hf.sleep ▸ hc)
  sch t ht := h.sch t (hf.schQueue ▸ ht)

theorem IdleReady.foreign (h : IdleReady w i) (hstack : ∀ c, w'.stack i c = w.stack i c)
    (hf : Foreign (w.thr i) (w'.thr i)) :
    IdleReady w' i := by
  obtain ⟨R, hR, hidle⟩ := h
  refine ⟨R, ?_, fun c hc => hstack c ▸ hidle c hc⟩
  rw [hf.readyHead]
  refine hR.congr (fun c _ => ?_)
  obtain ⟨b, hb⟩ := hf.ctx c
  rw [hb]

theorem Poised.foreign (h : Poised i w) (hcpu : w'.cpu i = w.cpu i) (hstack : ∀ c, w'.stack i c = w.stack i c)
    (hf : Foreign (w.thr i) (w'.thr i)) : Poised i w' where
  tests tm k e := by
    rcases h.tests tm k (hcpu ▸ e) with h | h | h
    · exact .inl h
    · exact .inr (.inl (hf.readyHead ▸ h))
    · exact .inr (.inr (NoneBefore.foreign h hf))
  lock tm k e := by
    obtain ⟨hn, hr⟩ := h.lock tm k (hcpu ▸ e)
    exact ⟨NoneBefore.foreign hn hf, hr.foreign hstack hf⟩

/-! ## One step of `process_tasks` -/

theorem checkForTimeouts_found {tm : Int} (h : w.checkForTimeouts i = some (tm, w', es)) :
    tm = timePointMin ∨ w' = w ∧ tm = nextDeadline (w.thr i) ∧
      (w.now < nextDeadline (w.thr i) ∨ (w.thr i).sleepPqueue = [] ∧ (w.thr i).taskSchQueue = [] ∧ tm = timePointMax) := by
  simp only [checkForTimeouts] at h
  split at h
  · next hq =>
    obtain ⟨rfl, rfl, -⟩ : timePointMax = tm ∧ w = w' ∧ [] = es := by simpa using h
    exact .inr ⟨rfl, by simp [nextDeadline, hq.1, hq.2], .inr ⟨hq.1, hq.2, rfl⟩⟩
  · split at h
    · next hlt =>
      obtain ⟨rfl, rfl, -⟩ : nextDeadline (w.thr i) = tm ∧ w = w' ∧ [] = es := by simpa using h
      exact .inr ⟨rfl, rfl, .inl hlt⟩
    · simp only [Option.bind_eq_bind, Option.bind_eq_some_iff] at h
      obtain ⟨⟨w₁, e₁⟩, -, he⟩ := h
      obtain ⟨rfl, -⟩ : timePointMin = tm ∧ w₁ = w' ∧ e₁ = es := by simpa using he
      exact .inl rfl

/-- No date is before the deadline that `check_for_timeouts` has found, if none is behind the front. -/
theorem NoneBefore.found {tm : Int} {R B : List CtxId} (hl : Lists (w.thr i) R B)
    (hsch : w.now < nextDeadline (w.thr i) → ∀ t ∈ (w.thr i).taskSchQueue, nextDeadline (w.thr i) ≤ t.when)
    (he : tm = nextDeadline (w.thr i))
    (hc : w.now < nextDeadline (w.thr i) ∨ (w.thr i).sleepPqueue = [] ∧ (w.thr i).taskSchQueue = [] ∧ tm = timePointMax) :
    (w.thr i).NoneBefore tm := by
  subst he
  rcases hc with hlt | ⟨hs, ht, -⟩
  · exact NoneBefore.deadline hl (hsch hlt)
  · exact ⟨by simp [hs], by simp [ht]⟩

/-- A `dequeue` that returns nothing brings no earlier date, if none of the drained tasks has one. -/
theorem NoneBefore.drain {s s' : ThreadPrivate} {tm t₁ t₂ : Int} (h : s.NoneBefore tm)
    (hd : s.dequeue t₁ t₂ = (none, s')) (hin : ∀ t ∈ s.taskInQueue, t₁ < t.when → tm ≤ t.when) : s'.NoneBefore tm where
  sleep := by
    rw [(dequeue_sched hd).sleep, (dequeue_sched hd).ctx]
    exact h.sleep
  sch t ht := by
    rcases (dequeue_none hd).2.2.2.2 t ht with h' | ⟨h', hlt⟩
    · exact h.sch t h'
    · exact hin t h' hlt

theorem after_thr (w : World V) (i : ThreadId) (s : ThreadPrivate) (t : Int) (k : List (Frame V)) :
    (((w.setThr i s).setNow t).setCpu i k).thr i = s := if_pos rfl

/-- The check at the head of the outer loop. -/
theorem poised_top {t₁ t₂ t₃ tm : Int} {k : List (Frame V)} (ho : Orderly .start w i) (hp : PromptAt i w t₁ t₂ t₃)
    (hcpu : w.cpu i = .processTasks .top tm :: k)
    (hs : w.stepProcessTasks i t₁ t₂ t₃ tm k .top = some (w', es)) : Poised i w' := by
  obtain ⟨R, B, -, hok⟩ := ho.placed
  simp only [stepProcessTasks] at hs
  split at hs
  · obtain ⟨rfl, -⟩ := Prod.mk.inj (Option.some.inj hs)
    exact Away.poised (by simpa using (hcpu ▸ ho.nested_cpu).away)
  · simp only [Option.bind_eq_bind, Option.bind_eq_some_iff] at hs
    obtain ⟨⟨tm', w₁, e₁⟩, hc, he⟩ := hs
    obtain ⟨rfl, -⟩ : (w₁.setNow t₃).setCpu i (.processTasks .tests tm' :: k) = w' ∧ e₁ = es := by simpa using he
    refine ⟨fun tm₀ k₀ e => ?_, fun tm₀ k₀ e => by simp at e⟩
    obtain ⟨rfl, -⟩ : tm' = tm₀ ∧ k = k₀ := by simpa using e
    rcases checkForTimeouts_found hc with h | ⟨rfl, h, hor⟩
    · exact .inl h
    · by_cases hr : (w.thr i).readyHead = none
      · exact .inr (.inr (NoneBefore.found (w := w.setNow t₁) hok.lists
          (fun hlt => hp.front .top tm k hcpu (.inl rfl) ⟨hlt, hr⟩) h hor))
      · exact .inr (.inl hr)

/-- The check after a task, and the `dequeue` after it. -/
theorem poised_again {t₁ t₂ t₃ tm : Int} {k : List (Frame V)} (ho : Orderly .start w i)
    (hp : PromptAt i w t₁ t₂ t₃) (hcpu : w.cpu i = .processTasks .again tm :: k) (ht : t₁ ≤ t₂)
    (hs : w.stepProcessTasks i t₁ t₂ t₃ tm k .again = some (w', es)) : Poised i w' := by
  obtain ⟨R, B, -, hok⟩ := ho.placed
  simp only [stepProcessTasks, Option.bind_eq_bind, Option.bind_eq_some_iff] at hs
  obtain ⟨⟨tm', w₁, e₁⟩, hc, he⟩ := hs
  simp only [dequeue] at he
  cases hd : (w₁.thr i).dequeue t₂ t₃ with
  | mk o s =>
    rw [hd] at he
    cases o with
    | some t =>
      simp only [Option.bind_eq_some_iff] at he
      obtain ⟨⟨w₂, e₂⟩, hr, he⟩ := he
      obtain ⟨rfl, -⟩ := Prod.mk.inj (Option.some.inj he)
      refine Away.poised ?_
      rcases runTask_cpu hr with ⟨q, -, -, e⟩ | ⟨-, e⟩ | ⟨q, -, -, e⟩ <;> rw [e] <;> exact away_cons (by simp [toWait])
    | none =>
      obtain ⟨rfl, -⟩ := Prod.mk.inj (Option.some.inj he)
      refine ⟨fun tm₀ k₀ e => ?_, fun tm₀ k₀ e => by simp at e⟩
      obtain ⟨rfl, -⟩ : tm' = tm₀ ∧ k = k₀ := by simpa using e
      rcases checkForTimeouts_found hc with h | ⟨rfl, h, hor⟩
      · exact .inl h
      replace hd : (w.thr i).dequeue t₂ t₃ = (none, s) := hd
      by_cases hr : (w.thr i).readyHead = none
      · have hn : ((w.thr i).dequeue t₂ t₃).1 = none := by rw [hd]
        have hbefore : (w.thr i).NoneBefore tm' := NoneBefore.found (w := w.setNow t₁) hok.lists
          (fun hlt => hp.front .again tm k hcpu (.inr ⟨rfl, hn⟩) ⟨hlt, hr⟩) h hor
        have hafter : s.NoneBefore tm' := by
          refine NoneBefore.drain hbefore hd (fun t hin hlt => ?_)
          by_cases hnow : t₁ < nextDeadline (w.thr i)
          · exact h ▸ hp.drained tm k hcpu hn ⟨hnow, hr⟩ t hin
          · -- the clock has reached the end of time
            have : tm' = nextDeadline (w.thr i) := h
            omega
        exact .inr (.inr ((after_thr (w.setNow t₁) i s t₃ _).symm ▸ hafter))
      · refine .inr (.inl ?_)
        rwa [after_thr (w.setNow t₁), (dequeue_sched hd).readyHead]

/-- The end of the outer loop, up to the lock of `task_ready_mutex` or to `start_next_task(true)`. -/
theorem poised_tests {t₁ t₂ t₃ tm : Int} {k : List (Frame V)} (ho : Orderly .start w i) (h : Poised i w)
    (hcpu : w.cpu i = .processTasks .tests tm :: k)
    (hs : w.stepProcessTasks i t₁ t₂ t₃ tm k .tests = some (w', es)) : Poised i w' := by
  simp only [stepProcessTasks] at hs
  split at hs
  · obtain ⟨rfl, -⟩ := Prod.mk.inj (Option.some.inj hs)
    exact Away.poised (by simpa using (hcpu ▸ ho.nested_cpu).away)
  · split at hs
    · obtain ⟨rfl, -⟩ := Prod.mk.inj (Option.some.inj hs)
      exact Away.poised (by simpa using away_cons (by simp [toWait]))
    · next htm =>
      split at hs
      · next hr =>
        obtain ⟨rfl, -⟩ := Prod.mk.inj (Option.some.inj hs)
        refine ⟨fun tm₀ k₀ e => by simp at e, fun tm₀ k₀ e => ?_⟩
        obtain ⟨rfl, -⟩ : tm = tm₀ ∧ k = k₀ := by simpa using e
        refine ⟨(((h.tests tm k hcpu).resolve_left htm).resolve_left (not_not_intro hr)), [], ?_, fun c hc => by cases hc⟩
        exact chain_nil.2 hr
      · exact Away.poised (ho.reschedules_away (away_cons (by simp [toWait])) hs)

/-- The ready contexts keep their stacks while another one runs. -/
theorem IdleReady.setCpu (ho : Orderly .start w i) (h : IdleReady w i) {s : ThreadPrivate}
    (hs : SameSched (w.thr i) s)
    (t : Int) (k : List (Frame V)) : IdleReady (((w.setThr i s).setNow t).setCpu i k) i := by
  obtain ⟨R, hR, hidle⟩ := h
  obtain ⟨R', B, -, hok⟩ := ho.placed
  obtain rfl : R' = R := hok.lists.ready.unique hR
  refine ⟨R', by rwa [after_thr, hs.readyHead, hs.ctx], fun c hc => ?_⟩
  have hne : c ≠ w.cur i := hok.ne_cur (ho.sane.valid i) (.inl hc)
  have hcur : (((w.setThr i s).setNow t).setCpu i k).cur i = w.cur i := by rw [cur, after_thr, hs.current, cur]
  have hstack : (((w.setThr i s).setNow t).setCpu i k).stack i c = w.stack i c := by
    rw [stack, stack, hcur, if_neg hne, if_neg hne]
    rfl
  exact hstack ▸ hidle c hc

/-- `start_next_task(true)` comes back. -/
theorem poised_switched {t₁ t₂ t₃ tm : Int} {k : List (Frame V)} (ho : Orderly .start w i)
    (hp : PromptAt i w t₁ t₂ t₃) (hcpu : w.cpu i = .processTasks .switched tm :: k)
    (hs : w.stepProcessTasks i t₁ t₂ t₃ tm k .switched = some (w', es)) : Poised i w' := by
  have hk : Away k := (hcpu ▸ ho.nested_cpu).away
  simp only [stepProcessTasks] at hs
  split at hs
  · obtain ⟨rfl, -⟩ := Prod.mk.inj (Option.some.inj hs)
    exact Away.poised (by simpa using hk)
  · next hcan =>
    simp only [dequeue] at hs
    cases hd : (w.thr i).dequeue t₁ t₂ with
    | mk o s =>
      rw [hd] at hs
      cases o with
      | some t => exact (loopWith_away hk hs).poised
      | none =>
        obtain ⟨rfl, -⟩ := Prod.mk.inj (Option.some.inj hs)
        refine ⟨fun tm₀ k₀ e => by simp at e, fun tm₀ k₀ e => ?_⟩
        obtain ⟨rfl, -⟩ : tm = tm₀ ∧ k = k₀ := by simpa using e
        obtain ⟨hidle, hbefore⟩ := hp.switched tm k hcpu (by simpa using hcan) (by rw [hd])
        rw [← (dequeue_none hd).2.2.2.1] at hbefore
        exact ⟨(after_thr w i s t₃ _).symm ▸ hbefore, hidle.setCpu ho (dequeue_sched hd) t₃ _⟩

/-- The lock of `task_ready_mutex` is as far as `Poised` goes. -/
theorem poised_lock {t₁ t₂ t₃ tm : Int} {k : List (Frame V)} (ho : Orderly .start w i)
    (hcpu : w.cpu i = .processTasks .lock tm :: k)
    (hs : w.stepProcessTasks i t₁ t₂ t₃ tm k .lock = some (w', es)) : Poised i w' := by
  simp only [stepProcessTasks, dequeue] at hs
  cases hd : (w.thr i).dequeue t₁ t₂ with
  | mk o s =>
    rw [hd] at hs
    cases o with
    | some t => exact (loopWith_away (hcpu ▸ ho.nested_cpu).away hs).poised
    | none =>
      obtain ⟨rfl, -⟩ := Prod.mk.inj (Option.some.inj hs)
      exact ⟨fun tm₀ k₀ e => by simp at e, fun tm₀ k₀ e => by simp at e⟩

theorem Poised.step (h : Poised i w) (ho : ∀ j, Orderly .start w j) (hp : Prompt i w a)
    (hs : w.step a = some (w', es)) (hq : NoQuit es) : Poised i w' := by
  by_cases hi : a.thread = i
  · rcases step_away (ho i) hs hi hq with ⟨t, rfl⟩ | haway | ⟨t₁, t₂, t₃, pc, tm, k, rfl, hcpu, hstep, hpc⟩
    · simp only [World.step] at hs
      split at hs
      · obtain ⟨rfl, -⟩ := Prod.mk.inj (Option.some.inj hs)
        exact ⟨h.tests, h.lock⟩
      · cases hs
    · exact haway.poised
    · have hprompt := hp t₁ t₂ t₃ rfl
      have ht : t₁ ≤ t₂ := by
        simp only [World.step] at hs
        split at hs
        · next ht => exact ht.2.1
        · cases hs
      rcases hpc with rfl | rfl | rfl | rfl | rfl
      · exact poised_top (ho i) hprompt hcpu hstep
      · exact poised_again (ho i) hprompt hcpu ht hstep
      · exact poised_tests (ho i) h hcpu hstep
      · exact poised_switched (ho i) hprompt hcpu hstep
      · exact poised_lock (ho i) hcpu hstep
  · obtain ⟨hstack, hf⟩ := step_other_stacks hs (ho i).sane hi
    exact h.foreign (step_other hs (ho i).sane hi).1 hstack hf

/-! ## The wait -/

theorem Local.not_parked {j : ThreadId} {k k' : List (Frame V)} {dl : Option Int} (h : Local w j k k' es) :
    .parked i dl ∉ es := fun hp => by
  cases h.events hp

/-- Once a step has come to the wait of `process_tasks` it goes no further. -/
theorem Move.parked_sleeping {w₀ : World V} {ph ph' : Phase} {j : ThreadId} {dl : Option Int}
    (es₀ : List (Event V)) (hm : Move w₀ j ph w ph' w' es)
    (h : .parked i dl ∈ es₀ → ph = .out ∧ i = j ∧ ∃ tm k, w.cpu j = .processTasks .sleeping tm :: k)
    (hp : .parked i dl ∈ es₀ ++ es) : ph' = .out ∧ i = j ∧ ∃ tm k, w'.cpu j = .processTasks .sleeping tm :: k := by
  rcases List.mem_append.1 hp with hp | hp
  · obtain ⟨rfl, rfl, tm, k, hcpu⟩ := h hp
    cases hm with
    | clock | expireSleep => exact ⟨rfl, rfl, tm, k, hcpu⟩
    | expireWait _ _ _ _ he => exact ⟨rfl, rfl, tm, k, by rw [(setException_frame he).cpu]; exact hcpu⟩
    | reschedule hc hf =>
      obtain ⟨rfl, -⟩ := List.cons.inj (hcpu.symm.trans hc)
      rcases hf with hf | ⟨_, hf⟩ <;> cases hf
    | dequeue hc hpc | drain hc hpc | check hc hpc =>
      obtain ⟨e, -⟩ := List.cons.inj (hcpu.symm.trans hc)
      cases e
      simp at hpc
  · cases hm with
    | stackTop _ hl => exact absurd hp hl.not_parked
    | drain hc hpc =>
      obtain ⟨-, -, rfl⟩ | ⟨-, -, rfl⟩ | ⟨-, -, rfl⟩ | ⟨rfl, rfl, rfl⟩ := hpc
      iterate 3 cases hp
      obtain ⟨rfl, -⟩ : i = j ∧ _ := by simpa using hp
      exact ⟨rfl, rfl, _, _, if_pos rfl⟩
    | runTask hc hr =>
      rcases runTask_cpu hr with ⟨q, -, rfl, -⟩ | ⟨rfl, -⟩ | ⟨q, -, rfl, -⟩ <;> simp at hp
    | _ => simp at hp

/-- Only the `dequeue` under the lock is followed by the wait. -/
theorem stepProcessTasks_sleeping {pc : ProcPc} {t₁ t₂ t₃ tm tm' : Int} {k k' : List (Frame V)}
    (ho : Orderly .start w i) (hcpu : w.cpu i = .processTasks pc tm :: k)
    (hpc : pc = .top ∨ pc = .again ∨ pc = .tests ∨ pc = .switched ∨ pc = .lock)
    (hs : w.stepProcessTasks i t₁ t₂ t₃ tm k pc = some (w', es)) (hk : w'.cpu i = .processTasks .sleeping tm' :: k') :
    pc = .lock := by
  have haway : Away k := (hcpu ▸ ho.nested_cpu).away
  have hno : ¬ Away (w'.cpu i) := fun h => by cases h _ _ _ hk
  have hpop : ∀ {u : World V} {es'}, some (u.setCpu i k, es') ≠ some (w', es) := fun he => by
    obtain ⟨rfl, -⟩ := Prod.mk.inj (Option.some.inj he)
    exact hno (by simpa using haway)
  have htop : ∀ {u : World V} {pc' : ProcPc} {tm' es'}, pc' ≠ .sleeping →
      some (u.setCpu i (.processTasks pc' tm' :: k), es') ≠ some (w', es) := fun hne he => by
    obtain ⟨rfl, -⟩ := Prod.mk.inj (Option.some.inj he)
    simp [hne] at hk
  rcases hpc with rfl | rfl | rfl | rfl | rfl
  · simp only [stepProcessTasks] at hs
    split at hs
    · exact absurd hs hpop
    · obtain ⟨⟨tm₁, w₁, e₁⟩, -, he⟩ := Option.bind_eq_some_iff.1 hs
      exact absurd he (htop (by simp))
  · simp only [stepProcessTasks, Option.bind_eq_bind, Option.bind_eq_some_iff, dequeue] at hs
    obtain ⟨⟨tm₁, w₁, e₁⟩, -, he⟩ := hs
    cases hd : (w₁.thr i).dequeue t₂ t₃ with
    | mk o s =>
      rw [hd] at he
      cases o with
      | none => exact absurd he (htop (by simp))
      | some t =>
        simp only [Option.bind_eq_some_iff] at he
        obtain ⟨⟨w₂, e₂⟩, hr, he⟩ := he
        obtain ⟨rfl, -⟩ := Prod.mk.inj (Option.some.inj he)
        rcases runTask_cpu hr with ⟨q, -, -, e⟩ | ⟨-, e⟩ | ⟨q, -, -, e⟩ <;> simp [e] at hk
  · simp only [stepProcessTasks] at hs
    split at hs
    · exact absurd hs hpop
    · split at hs
      · exact absurd hs (htop (by simp))
      · split at hs
        · exact absurd hs (htop (by simp))
        · exact absurd (ho.reschedules_away (away_cons (by simp [toWait])) hs) hno
  · simp only [stepProcessTasks, dequeue] at hs
    split at hs
    · exact absurd hs hpop
    · cases hd : (w.thr i).dequeue t₁ t₂ with
      | mk o s =>
        rw [hd] at hs
        cases o with
        | some t => exact absurd (loopWith_away haway hs) hno
        | none => exact absurd hs (htop (by simp))
  · rfl

/-- A thread waits under the lock of `task_ready_mutex`, after a `dequeue` that has returned nothing. -/
theorem step_parked {j : ThreadId} {dl : Option Int} (ho : Orderly .start w a.thread)
    (hs : w.step a = some (w', es))
    (hq : NoQuit es) (hp : .parked j dl ∈ es) : ∃ t₁ t₂ t₃ tm k s, a = .run j t₁ t₂ t₃ ∧
      w.cpu j = .processTasks .lock tm :: k ∧ (w.thr j).dequeue t₁ t₂ = (none, s) ∧
      w' = ((w.setThr j s).setNow t₃).setCpu j (.processTasks .sleeping tm :: k) ∧
      dl = (if tm = timePointMax then none else some (toSystemTime tm)) := by
  obtain ⟨-, rfl, tm', k', hsleep⟩ := (step_moves hs).inv_events []
    (fun es₀ ph w => .parked j dl ∈ es₀ → ph = .out ∧ j = a.thread ∧ ∃ tm k, w.cpu a.thread = .processTasks .sleeping tm :: k)
    (fun es₀ _ _ _ _ _ hm _ h hp => hm.parked_sleeping es₀ h hp) (fun h => by cases h) hp
  rcases step_away ho hs rfl hq with ⟨t, rfl⟩ | haway | ⟨t₁, t₂, t₃, pc, tm, k, ha, hcpu, hstep, hpc⟩
  · simp only [World.step] at hs
    split at hs
    · obtain ⟨-, rfl⟩ := Prod.mk.inj (Option.some.inj hs)
      cases hp
    · cases hs
  · cases haway _ _ _ hsleep
  · obtain rfl := stepProcessTasks_sleeping ho hcpu hpc hstep hsleep
    simp only [stepProcessTasks, dequeue] at hstep
    cases hd : (w.thr a.thread).dequeue t₁ t₂ with
    | mk o s =>
      rw [hd] at hstep
      cases o with
      | some t => cases loopWith_away (hcpu ▸ ho.nested_cpu).away hstep _ _ _ hsleep
      | none =>
        obtain ⟨rfl, rfl⟩ := Prod.mk.inj (Option.some.inj hstep)
        exact ⟨t₁, t₂, t₃, tm, k, s, ha, hcpu, hd, rfl, by simpa using hp⟩

/-- Thread `i` has nothing to do at the time `now`, and it waits no longer than to the next date. -/
structure SleepsIdle (w : World V) (i : ThreadId) (now : Int) (dl : Option Int) : Prop where
  ready : IdleReady w i
  inQueue : (w.thr i).taskInQueue = []
  pqueue : (w.thr i).taskPqueue = []
  due : ∀ t ∈ (w.thr i).taskSchQueue, now < t.when
  untimed : dl = none → (w.thr i).NoneBefore timePointMax
  timed : ∀ x, dl = some x → (∀ c ∈ (w.thr i).sleepPqueue, x ≤ toSystemTime ((w.thr i).ctx c).resumeTime) ∧
    ∀ t ∈ (w.thr i).taskSchQueue, x ≤ toSystemTime t.when

theorem toSystemTime_le {t t' : Int} (h : t ≤ t') : toSystemTime t ≤ toSystemTime t' := by
  simp only [toSystemTime]
  exact Int.tdiv_le_tdiv (by decide) h

/-- The wait under the lock, with everything in place. -/
theorem Poised.parks {t₁ t₂ t₃ tm : Int} {k : List (Frame V)} {s : ThreadPrivate} (h : Poised i w)
    (ho : Orderly .start w i) (hp : PromptAt i w t₁ t₂ t₃) (hcpu : w.cpu i = .processTasks .lock tm :: k)
    (hd : (w.thr i).dequeue t₁ t₂ = (none, s)) :
    SleepsIdle (((w.setThr i s).setNow t₃).setCpu i (.processTasks .sleeping tm :: k)) i t₂
      (if tm = timePointMax then none else some (toSystemTime tm)) := by
  obtain ⟨hbefore, hidle⟩ := h.lock tm k hcpu
  obtain ⟨hin, hpq, hfront, hdrain, -⟩ := dequeue_none hd
  obtain ⟨hearly, hdue⟩ := hp.lock tm k hcpu (by rw [hd])
  rw [← hdrain] at hdue
  have hafter : s.NoneBefore tm := NoneBefore.drain hbefore hd (fun t ht _ => hearly t ht)
  refine ⟨hidle.setCpu ho (dequeue_sched hd) t₃ _, ?_, ?_, ?_, ?_, ?_⟩ <;> rw [after_thr]
  · exact hin
  · exact hpq
  · intro u hu
    cases hq : s.taskSchQueue with
    | nil => rw [hq] at hu; cases hu
    | cons t v =>
      have hlt := hfront t v hq
      by_contra hle
      have := hdue u hu (by omega) t (by simp [hq])
      omega
  · intro hnone
    split at hnone
    · next e => exact e ▸ hafter
    · cases hnone
  · intro x hx
    split at hx
    · cases hx
    · obtain rfl := Option.some.inj hx
      exact ⟨fun c hc => toSystemTime_le (hafter.sleep c hc), fun t ht => toSystemTime_le (hafter.sch t ht)⟩

/-- The check of `Prompt`. It asks for more than is needed after a switch. -/
def promptCheck (i : ThreadId) (w : World V) : Action V → Bool
  | .run j t₁ t₂ _ => j != i ||
    let s := w.thr i
    let d := s.drained t₁
    match w.cpu i with
    | .processTasks .top _ :: _ => s.taskSchQueue.all fun t => nextDeadline s ≤ t.when
    | .processTasks .again _ :: _ => (s.taskSchQueue ++ s.taskInQueue).all fun t => nextDeadline s ≤ t.when
    | .processTasks .switched tm :: _ => s.readyHead.isNone && (d.sleepPqueue.all fun c => tm ≤ (d.ctx c).resumeTime) &&
      d.taskSchQueue.all fun t => tm ≤ t.when
    | .processTasks .lock tm :: _ => (s.taskInQueue.all fun t => tm ≤ t.when) && d.taskSchQueue.all fun t => t₂ < t.when
    | _ => true
  | _ => true

theorem promptCheck_sound (h : promptCheck i w a = true) : Prompt i w a := by
  rintro t₁ t₂ t₃ rfl
  simp only [promptCheck, bne_self_eq_false, Bool.false_or] at h
  constructor
  · rintro pc tm k hcpu (rfl | ⟨rfl, -⟩) - t ht
    · simp only [hcpu, List.all_eq_true, decide_eq_true_eq] at h
      exact h t ht
    · simp only [hcpu, List.all_eq_true, decide_eq_true_eq] at h
      exact h t (List.mem_append_left _ ht)
  · intro tm k hcpu _ _ t ht
    simp only [hcpu, List.all_eq_true, decide_eq_true_eq] at h
    exact h t (List.mem_append_right _ ht)
  · intro tm k hcpu _ _
    simp only [hcpu, Bool.and_eq_true, Option.isNone_iff_eq_none, List.all_eq_true, decide_eq_true_eq] at h
    exact ⟨⟨[], chain_nil.2 h.1.1, fun c hc => by cases hc⟩, h.1.2, h.2⟩
  · intro tm k hcpu _
    simp only [hcpu, Bool.and_eq_true, List.all_eq_true, decide_eq_true_eq] at h
    exact ⟨h.1, fun u hu hle => absurd (h.2 u hu) (by omega)⟩

end World

end BoostCmt
