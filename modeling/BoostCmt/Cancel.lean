import BoostCmt.Promises
/-!
# Who is told that its task was cancelled

`task::cancel` marks the context that runs the task, and that mark is never taken
away again. A context that goes on to other tasks and is suspended once more
throws `task_canceled` although nobody cancelled what it executes. What holds is
that a mark set while a context is suspended belongs to a task that it executes.
-/

namespace BoostCmt

open ThreadPrivate Runs

variable {V : Type}

/-- The frame is part of running the task `t`. -/
def Frame.holds (t : Task) : Frame V → Prop
  | .task s => s = t
  | .processTasks (.running s) _ => s = t
  | .processTasks (.release s) _ => s = t
  | _ => False

theorem Frame.holds.processTasks {pc : ProcPc} {tm tm' : Int} {t : Task}
    (h : Frame.holds (V := V) t (.processTasks pc tm)) : Frame.holds (V := V) t (.processTasks pc tm') := by
  cases pc <;> exact h

namespace World

variable {w₀ w w' : World V} {i : ThreadId} {ph ph' : Phase} {es : List (Event V)} {a : Action V}

/-! ## Tasks that run -/

theorem Move.holds (hm : Move w₀ i ph w ph' w' es) (hv : Valid w) {j : ThreadId} {c : CtxId} {f : Frame V}
    {t : Task} (h : f ∈ w'.stack j c) (hf : f.holds t) : (∃ f' ∈ w.stack j c, f'.holds t) ∨ ph = .hand t := by
  rcases hm.frame_from hv h with h | rfl | ⟨rfl, rfl, hnew⟩
  · exact .inl ⟨f, h, hf⟩
  · cases hf
  · rw [stack_cur]
    have htop : ∀ {g k}, w.cpu j = g :: k → Frame.holds t g → ∃ f' ∈ w.cpu j, Frame.holds t f' :=
      fun hcpu hg => ⟨_, by rw [hcpu]; exact List.mem_cons_self .., hg⟩
    cases hnew with
    | task hph | running hph =>
      obtain rfl : _ = t := hf
      exact .inr hph
    | release hcpu => exact .inl (htop hcpu hf)
    | check hcpu => exact .inl (htop hcpu hf.processTasks)
    | @loop pc _ hpc =>
      cases pc with
      | running t => exact absurd rfl (hpc t).1
      | release t => exact absurd rfl (hpc t).2
      | _ => cases hf
    | _ => cases hf

theorem notify_taskCount {t : ThreadId} {p : PromId} (h : w.notify i t p = some w') :
    w.taskCount ≤ w'.taskCount := by
  simp only [World.notify] at h
  split at h
  · simp only [Option.map_eq_some_iff] at h
    obtain ⟨s, hs, rfl⟩ := h
    exact Nat.le_refl _
  · obtain rfl := Option.some.inj h
    exact Nat.le_succ _

theorem Move.taskCount_le (hm : Move w₀ i ph w ph' w' es) (hq : NoQuit es) : w.taskCount ≤ w'.taskCount := by
  cases hm with
  | async | asyncVoid | sync => exact Nat.le_succ _
  | cancel => simp only [cancelTask]; split <;> exact Nat.le_refl _
  | quit => exact absurd (by simp) (hq i)
  | expireWait _ _ _ _ hx =>
    simp only [setException, notifyBase] at hx
    split at hx
    · obtain rfl := Option.some.inj hx
      exact Nat.le_refl _
    · have h := notify_taskCount hx
      exact h
  | switch => simp only [World.switch]; split <;> exact Nat.le_refl _
  | reschedule => simp only [World.switch]; split <;> exact Nat.le_refl _
  | runTask _ hr =>
    simp only [World.runTask] at hr
    split at hr
    · split at hr <;> (obtain ⟨rfl, -⟩ := Prod.mk.inj (Option.some.inj hr); exact Nat.le_refl _)
    · simp only [Option.map_eq_some_iff] at hr
      obtain ⟨s, -, he⟩ := hr
      obtain ⟨rfl, -⟩ := Prod.mk.inj he
      exact Nat.le_refl _
    · obtain ⟨rfl, -⟩ := Prod.mk.inj (Option.some.inj hr)
      exact Nat.le_refl _
  | @release _ t =>
    show w.taskCount ≤ (w.release t).taskCount
    cases hb : t.body <;> simp only [World.release, hb] <;> [split; skip; skip] <;> exact Nat.le_refl _
  | post _ _ hn =>
    have h := notify_taskCount hn
    exact h
  | _ => exact Nat.le_refl _

/-- Every task that is somewhere has a number that was given out. -/
structure Numbered (ph : Phase) (w : World V) : Prop where
  frames : ∀ j c t, ∀ f ∈ w.stack j c, f.holds t → t.postedNum ≤ w.taskCount
  queues : ∀ j, ∀ t ∈ (w.thr j).tasks, t.postedNum ≤ w.taskCount
  hand : ∀ t, ph = .hand t → t.postedNum ≤ w.taskCount

theorem Move.numbered (hm : Move w₀ i ph w ph' w' es) (hq : NoQuit es) (hv : Valid w) (h : Numbered ph w) :
    Numbered ph' w' := by
  have hle := hm.taskCount_le hq
  refine ⟨fun j c t f hf ht => ?_, fun j t ht => ?_, fun t hph => ?_⟩
  · rcases hm.holds hv hf ht with ⟨f', hf', ht'⟩ | hph
    · exact Nat.le_trans (h.frames j c t f' hf' ht') hle
    · exact Nat.le_trans (h.hand t hph) hle
  · rcases hm.tasks hq j with hperm | ⟨-, t', -, hperm⟩ | ⟨t', ⟨hn, hc, -⟩, he⟩
    · exact Nat.le_trans (h.queues j t (hperm.symm.subset ht)) hle
    · exact Nat.le_trans (h.queues j t (hperm.symm.subset (List.mem_cons_of_mem _ ht))) hle
    · rw [he] at ht
      rcases List.mem_cons.1 ht with rfl | ht
      · exact Nat.le_of_eq (hn.trans hc.symm)
      · exact Nat.le_trans (h.queues j t ht) hle
  · subst hph
    rcases hm.hand_from with hph | hmem
    · exact Nat.le_trans (h.hand t hph) hle
    · exact Nat.le_trans (h.queues i t hmem) hle

theorem unwind_running {k : List (Frame V)} {t : Task} {tm : Int} (h : Frame.processTasks (.running t) tm ∈ k) :
    Frame.processTasks (.running t) tm ∈ (unwind i k).1 := by
  unfold unwind
  split
  · simpa using h
  · simpa using h
  · simpa using h
  · exact h

theorem Local.running_kept {k k' : List (Frame V)} {t : Task} {tm : Int} (hl : Local w i k k' es)
    (h : Frame.processTasks (.running t) tm ∈ k) : Frame.processTasks (.running t) tm ∈ k' := by
  cases hl with
  | raiseYield => exact unwind_running (by simpa using h)
  | exit hpc => rcases hpc with rfl | rfl <;> simpa using h
  | _ => simpa using h

/-- No task runs in the frame of `process_tasks` that has one in hand. -/
theorem InHand.not_running {t t' : Task} {pc : ProcPc} {tm tm' : Int} {k : List (Frame V)}
    (h : InHand (.hand t') w i)
    (hcpu : w.cpu i = .processTasks pc tm :: k) : Frame.processTasks (V := V) pc tm ≠ .processTasks (.running t) tm' := by
  obtain ⟨pc', tm'', k', hk, hpc⟩ := h t' rfl
  obtain ⟨he, -⟩ := List.cons.inj (hcpu.symm.trans hk)
  simp only [Frame.processTasks.injEq] at he
  rw [he.1]
  rcases hpc with rfl | rfl | rfl | rfl <;> simp

/-- A task that runs goes on running until its `run()` has returned. -/
theorem Move.running_kept (hm : Move w₀ i ph w ph' w' es) (hs : Sane w)
    (hhand : InHand ph w i) {j : ThreadId} {c : CtxId} {t : Task} {tm : Int}
    (h : Frame.processTasks (.running t) tm ∈ w.stack j c) :
    Frame.processTasks (.running t) tm ∈ w'.stack j c ∨
      (ph' = .out ∧ (∃ k, w.stack j c = .processTasks (.running t) tm :: k ∧
        w'.stack j c = .processTasks (.release t) tm :: k) ∧ (w'.cell t.postedNum).activeContext = none) := by
  by_cases hsw : ∃ r, w' = w.switch i r (w.cpu i)
  · obtain ⟨r, rfl⟩ := hsw
    rw [hs.stack_switch r (fun e => by rw [e] at h; cases h)]
    exact .inl h
  · rw [((hm.stackStep hs.valid).resolve_right hsw).stack]
    split
    · next hjc =>
      obtain ⟨rfl, rfl⟩ := hjc
      rw [stack_cur] at h ⊢
      -- a frame below the top stays when the top is replaced
      have hbelow : ∀ {g k}, w.cpu j = g :: k → g ≠ .processTasks (.running t) tm →
          Frame.processTasks (.running t) tm ∈ k := by
        intro g k hcpu hg
        rw [hcpu] at h
        exact (List.mem_cons.1 h).resolve_left (fun e => hg e.symm)
      have hsame : w'.cpu j = w.cpu j → Frame.processTasks (.running t) tm ∈ w'.cpu j := fun e => e ▸ h
      cases hm with
      | stackTop _ hl => exact .inl (by simpa using hl.running_kept h)
      | @ran _ t' tm' k hcpu =>
        by_cases ht : Frame.processTasks (V := V) (.running t) tm = .processTasks (.running t') tm'
        · simp only [Frame.processTasks.injEq, ProcPc.running.injEq] at ht
          obtain ⟨rfl, rfl⟩ := ht
          exact .inr ⟨rfl, ⟨k, hcpu, by simp⟩, by simp [setCpu, modCell]⟩
        · exact .inl (by simp [hbelow hcpu (Ne.symm ht)])
      | clock | go | newPromise | async | asyncVoid | expireSleep | dequeue => exact .inl (hsame rfl)
      | cancel => exact .inl (hsame (by simp only [cancelTask]; split <;> rfl))
      | quit hq => exact .inl (hsame (congrFun (quit_stacks hq).2.1 j))
      | expireWait _ _ _ _ hx => exact .inl (hsame (congrFun (setException_frame hx).cpu j))
      | sync | sleepOn => exact .inl (by simp [h])
      | finishError _ hcpu | post _ hcpu | resumeSleep hcpu | waitOn _ hcpu | enqueueThread _ hcpu | resumeWait _ hcpu
      | storeValue _ hcpu | storeError _ hcpu | release hcpu => exact .inl (by simp [hbelow hcpu (by simp)])
      | abandon hcpu => exact .inl (by simp [hbelow hcpu (hhand.not_running hcpu)])
      | drain hcpu hpc =>
        refine .inl ?_
        have := hbelow hcpu (by rcases hpc with ⟨rfl, -⟩ | ⟨rfl, -⟩ | ⟨rfl, -⟩ | ⟨rfl, -⟩ <;> simp)
        simp [this]
      | check hcpu hpc =>
        refine .inl ?_
        have := hbelow hcpu (by
          rcases hpc with ⟨-, rfl, -⟩ | ⟨-, ⟨-, rfl⟩ | ⟨t', rfl⟩⟩
          · simp
          · simp
          · exact hhand.not_running hcpu)
        simp [this]
      | @runTask _ _ t' pc tm' k _ hcpu hr =>
        refine .inl ?_
        have := hbelow hcpu (hhand.not_running hcpu)
        rcases runTask_cpu hr with ⟨q, -, -, e⟩ | ⟨-, e⟩ | ⟨q, -, -, e⟩ <;> rw [e] <;> simp [this]
      | switch => exact absurd ⟨_, rfl⟩ hsw
      | reschedule => exact absurd ⟨_, rfl⟩ hsw
    · exact .inl h

/-! ## The cells of tasks -/

theorem newTask_cell (w : World V) (when prio : Int) (body : TaskBody) (refs : Int) (n : Nat) :
    (w.newTask when prio body refs).2.cell n = if n = w.taskCount + 1 then { refCount := refs } else w.cell n :=
      rfl

theorem notify_cell {t : ThreadId} {p : PromId} (h : w.notify i t p = some w') (n : Nat) :
    w'.cell n = w.cell n ∨ n = w.taskCount + 1 ∧ w'.cell n = { refCount := 1 } := by
  simp only [World.notify] at h
  split at h
  · simp only [Option.map_eq_some_iff] at h
    obtain ⟨s, hs, rfl⟩ := h
    exact .inl rfl
  · obtain rfl := Option.some.inj h
    show (w.newTask timePointMin 0 (.notify p) 1).2.cell n = w.cell n ∨
      n = w.taskCount + 1 ∧ (w.newTask timePointMin 0 (.notify p) 1).2.cell n = _
    rw [newTask_cell]
    split
    · next hn => exact .inr ⟨hn, rfl⟩
    · exact .inl rfl

/-- `run()` starts with `set_active_context`. -/
theorem runTask_cell {t : Task} {tm : Int} {k : List (Frame V)} (h : w.runTask i t tm k = some (w', es)) :
    w'.cell = (w.modCell t.postedNum (fun c => { c with activeContext := (w.thr i).current.map (i, ·) })).cell := by
  simp only [World.runTask] at h
  split at h
  · split at h <;> (obtain ⟨rfl, -⟩ := Prod.mk.inj (Option.some.inj h); rfl)
  · simp only [Option.map_eq_some_iff] at h
    obtain ⟨s, -, he⟩ := h
    obtain ⟨rfl, -⟩ := Prod.mk.inj he
    rfl
  · obtain ⟨rfl, -⟩ := Prod.mk.inj (Option.some.inj h)
    rfl

theorem release_cell (w : World V) (t : Task) (n : Nat) :
    ((w.release t).cell n).canceled = (w.cell n).canceled ∧
      ((w.release t).cell n).activeContext = (w.cell n).activeContext := by
  have hmod : ((w.modCell t.postedNum (fun c => { c with refCount := c.refCount - 1 })).cell n).canceled =
      (w.cell n).canceled ∧ ((w.modCell t.postedNum (fun c => { c with refCount := c.refCount - 1 })).cell
        n).activeContext = (w.cell n).activeContext := by
    by_cases hnt : n = t.postedNum <;> simp [modCell, hnt]
  cases hb : t.body <;> simp only [World.release, hb] <;> [split; skip; skip] <;> exact hmod

/-- What a move does to the cell of a task. -/
theorem Move.cell_cases (hm : Move w₀ i ph w ph' w' es) (hq : NoQuit es) (n : Nat) :
    (n ≤ w.taskCount → (w.cell n).canceled = true → (w'.cell n).canceled = true) ∧
      ((w'.cell n).activeContext = none ∨ (w'.cell n).activeContext = (w.cell n).activeContext ∨
        ∃ t tm, ph = .hand t ∧ t.postedNum = n ∧ (w'.cell n).activeContext = (w.thr i).current.map (i, ·) ∧
          Frame.processTasks (.running t) tm ∈ w'.cpu i ∧ StackStep i w w' ∧ ph' = .out) := by
  have hkeep : ∀ {w' : World V}, w'.cell n = w.cell n →
      (n ≤ w.taskCount → (w.cell n).canceled = true → (w'.cell n).canceled = true) ∧
      ((w'.cell n).activeContext = none ∨ (w'.cell n).activeContext = (w.cell n).activeContext ∨
        ∃ t tm, ph = .hand t ∧ t.postedNum = n ∧ (w'.cell n).activeContext = (w.thr i).current.map (i, ·) ∧
          Frame.processTasks (.running t) tm ∈ w'.cpu i ∧ StackStep i w w' ∧ ph' = .out) :=
    fun e => ⟨fun _ h => by rw [e]; exact h, .inr (.inl (by rw [e]))⟩
  have hfresh : ∀ {w' : World V} {r : Int}, w'.cell n = (if n = w.taskCount + 1 then { refCount := r } else w.cell n) →
      (n ≤ w.taskCount → (w.cell n).canceled = true → (w'.cell n).canceled = true) ∧
      ((w'.cell n).activeContext = none ∨ (w'.cell n).activeContext = (w.cell n).activeContext ∨
        ∃ t tm, ph = .hand t ∧ t.postedNum = n ∧ (w'.cell n).activeContext = (w.thr i).current.map (i, ·) ∧
          Frame.processTasks (.running t) tm ∈ w'.cpu i ∧ StackStep i w w' ∧ ph' = .out) := by
    intro w' r e
    split at e
    · next hn => exact ⟨fun h => absurd (hn ▸ h) (Nat.not_succ_le_self _), .inl (by rw [e])⟩
    · exact hkeep e
  cases hm with
  | async _ when prio => exact hfresh (newTask_cell w when prio (.rtask w.promCount) 1 n)
  | asyncVoid _ when prio => exact hfresh (newTask_cell w when prio .vtask 1 n)
  | sync ov _ prio => exact hfresh (newTask_cell w timePointMin prio (.rtask w.promCount) (1 + ov.retains) n)
  | @cancel _ m =>
    unfold cancelTask
    split
    · by_cases hnm : n = m
      · exact ⟨fun _ _ => by simp [modCell, setThr, hnm], .inl (by simp [modCell, setThr, hnm])⟩
      · exact hkeep (by simp [modCell, setThr, hnm])
    · by_cases hnm : n = m
      · exact ⟨fun _ _ => by simp [modCell, hnm], .inr (.inl (by simp [modCell, hnm]))⟩
      · exact hkeep (by simp [modCell, hnm])
  | quit => exact absurd (by simp) (hq i)
  | expireWait _ _ _ _ hx =>
    simp only [setException, notifyBase] at hx
    split at hx
    · obtain rfl := Option.some.inj hx
      exact hkeep rfl
    · rcases notify_cell hx n with e | ⟨hn, e⟩
      · exact hkeep e
      · have hn : n = w.taskCount + 1 := hn
        exact hfresh (r := 1) (by rw [e, if_pos hn])
  | switch => exact hkeep (by simp only [World.switch]; split <;> rfl)
  | reschedule => exact hkeep (by simp only [World.switch]; split <;> rfl)
  | @runTask _ _ t pc tm k _ hcpu hr =>
    have hcell := runTask_cell hr
    have hmem : Frame.processTasks (.running t) tm ∈ w'.cpu i := by
      rcases runTask_cpu hr with ⟨q, -, -, e⟩ | ⟨-, e⟩ | ⟨q, -, -, e⟩ <;> rw [e] <;> simp
    by_cases hnt : t.postedNum = n
    · refine ⟨fun _ h => by rw [hcell]; simpa [modCell, hnt] using h, .inr (.inr ⟨t, tm, rfl, hnt, ?_, hmem, runTask_stackStep hr, rfl⟩)⟩
      rw [hcell]
      simp [modCell, hnt]
    · exact hkeep (by rw [hcell]; simp [modCell, Ne.symm hnt])
  | @ran _ t =>
    by_cases hnt : n = t.postedNum
    · exact ⟨fun _ h => by simpa [setCpu, modCell, hnt] using h, .inl (by simp [setCpu, modCell, hnt])⟩
    · exact hkeep (by simp [setCpu, modCell, hnt])
  | @release _ t =>
    obtain ⟨hcanceled, hactive⟩ := release_cell w t n
    exact ⟨fun _ h => hcanceled.trans h, .inr (.inl hactive)⟩
  | post _ _ hnot =>
    rcases notify_cell hnot n with e | ⟨hn, e⟩
    · exact hkeep e
    · exact hfresh (r := 1) (by simp only [setCpu]; rw [e, if_pos hn])
  | _ => exact hkeep rfl

/-! ## Contexts that run tasks -/

/-- The active context of a task runs it. -/
def ActiveRuns (w : World V) : Prop :=
  ∀ n j c, (w.cell n).activeContext = some (j, c) →
    n ≤ w.taskCount ∧ ∃ t tm, t.postedNum = n ∧ Frame.processTasks (.running t) tm ∈ w.stack j c

/-- What is known of the tasks in the middle of a step of thread `i`. -/
structure TasksRun (ph : Phase) (w : World V) (i : ThreadId) : Prop where
  sane : Sane w
  undone : ∀ j, (w.thr j).done = false
  inHand : InHand ph w i
  numbered : Numbered ph w
  active : ActiveRuns w

theorem Move.tasksRun (hm : Move w₀ i ph w ph' w' es) (hq : NoQuit es) (h : TasksRun ph w i) :
    TasksRun ph' w' i := by
  have hle := hm.taskCount_le hq
  refine ⟨hm.sane h.sane, fun j => (hm.done hq j).trans (h.undone j), hm.inHand h.inHand,
    hm.numbered hq h.sane.valid h.numbered, fun n j c hact => ?_⟩
  rcases (hm.cell_cases hq n).2 with he | he | ⟨t, tm, hph, hn, he, hmem, hst, -⟩ <;> rw [he] at hact
  · cases hact
  · obtain ⟨hn, t, tm, rfl, hmem⟩ := h.active n j c hact
    refine ⟨Nat.le_trans hn hle, t, tm, rfl, ?_⟩
    rcases hm.running_kept h.sane h.inHand hmem with h' | ⟨-, -, hnone⟩
    · exact h'
    · rw [hnone] at he
      exact nomatch he.trans hact
  · obtain ⟨c', hc, he'⟩ := Option.map_eq_some_iff.1 hact
    obtain ⟨rfl, rfl⟩ := Prod.mk.inj he'
    refine ⟨hn ▸ Nat.le_trans (h.numbered.hand t hph) hle, t, tm, hn, ?_⟩
    rw [hst.stack, if_pos ⟨rfl, by rw [cur, hc]; rfl⟩]
    exact hmem

/-! ## Contexts that are marked -/

/-- The stack goes on where `start_next_task` was called. -/
def atResume : List (Frame V) → Bool
  | .wait .resumed _ _ :: _ => true
  | .sleep :: _ => true
  | .yield :: _ => true
  | .processTasks .switched _ :: _ => true
  | _ => false

/-- The context executes a task on which `cancel()` was called. -/
def executesCanceled (w : World V) (i : ThreadId) (c : CtxId) : Bool :=
  (w.stack i c).any fun
    | .processTasks (.running t) _ => (w.cell t.postedNum).canceled
    | _ => false

theorem executesCanceled_iff {c : CtxId} : w.executesCanceled i c = true ↔
    ∃ t tm, Frame.processTasks (.running t) tm ∈ w.stack i c ∧ (w.cell t.postedNum).canceled = true := by
  rw [executesCanceled, List.any_eq_true]
  constructor
  · rintro ⟨f, hf, hc⟩
    split at hc
    · exact ⟨_, _, hf, hc⟩
    · cases hc
  · rintro ⟨t, tm, hf, hc⟩
    exact ⟨_, hf, hc⟩

/-- A marked context that is suspended executes a cancelled task. -/
def MarksServed (w : World V) : Prop :=
  ∀ j c, ((w.thr j).ctx c).canceled = true → atResume (w.stack j c) = true → w.executesCanceled j c = true

/-- What a move leaves of a cancelled task that a context executes. -/
theorem Move.executes (hm : Move w₀ i ph w ph' w' es) (hq : NoQuit es) (hr : TasksRun ph w i) {j : ThreadId}
    {c : CtxId} (h : w.executesCanceled j c = true) :
    w'.executesCanceled j c = true ∨ (ph' = .out ∧ ∃ t tm k, w'.stack j c = .processTasks (.release t) tm :: k) := by
  obtain ⟨t, tm, hf, hc⟩ := executesCanceled_iff.1 h
  rcases hm.running_kept hr.sane hr.inHand hf with hf' | ⟨hph, ⟨k, -, hk⟩, -⟩
  · have hn := hr.numbered.frames j c t _ hf rfl
    exact .inl (executesCanceled_iff.2 ⟨t, tm, hf', (hm.cell_cases hq _).1 hn hc⟩)
  · exact .inr ⟨hph, t, tm, k, hk⟩

theorem cancelTask_stack (w : World V) (n : Nat) (j : ThreadId) (c : CtxId) :
    (w.cancelTask n).stack j c = w.stack j c := by
  have hcur : (w.cancelTask n).cur j = w.cur j := by rw [cur, cur, (cancelTask_foreign w n j).current]
  have hk : (w.cancelTask n).cpu = w.cpu ∧ (w.cancelTask n).myContext = w.myContext := by
    simp only [cancelTask]
    split <;> exact ⟨rfl, rfl⟩
  rw [stack, stack, hcur, hk.1, hk.2]

/-- A mark that a move sets belongs to a task that the context executes. -/
theorem Move.marks (hm : Move w₀ i ph w ph' w' es) (hq : NoQuit es) (hr : TasksRun ph w i) {j : ThreadId}
    {c : CtxId} (h : ((w'.thr j).ctx c).canceled = true) :
    ((w.thr j).ctx c).canceled = true ∨ w'.executesCanceled j c = true := by
  rcases hm.flags hq j with hf | ⟨n, c₀, rfl, hact, -, hctx, -⟩
  · exact .inl (hf.canceled c h)
  · by_cases hc : c = c₀
    · subst hc
      obtain ⟨-, t, tm, rfl, hmem⟩ := hr.active n j c hact
      refine .inr (executesCanceled_iff.2 ⟨t, tm, ?_, ?_⟩)
      · rw [cancelTask_stack]
        exact hmem
      · simp [cancelTask, hact, modCell, setThr]
    · rw [hctx c hc] at h
      exact .inl h

/-- After the first move of a step a context that is about to release its task stays there. -/
theorem Move.release_later (hm : Move w₀ i ph w ph' w' es) (hph : ph ≠ .start) (hr : TasksRun ph w i)
    {j : ThreadId}
    {c : CtxId} {t : Task} {tm : Int} {k : List (Frame V)} (hk : w.stack j c = .processTasks (.release t) tm :: k) :
    w'.stack j c = .processTasks (.release t) tm :: k := by
  by_cases hsw : ∃ r, w' = w.switch i r (w.cpu i)
  · obtain ⟨r, rfl⟩ := hsw
    exact (hr.sane.stack_switch r (by simp [hk])).trans hk
  · rw [((hm.stackStep hr.sane.valid).resolve_right hsw).stack]
    split
    · next hjc =>
      obtain ⟨rfl, rfl⟩ := hjc
      rw [stack_cur] at hk
      have hhand : ∀ t', ph ≠ .hand t' := by
        intro t' he
        obtain ⟨pc, tm', k', hk', hpc⟩ := hr.inHand t' he
        rw [hk] at hk'
        cases hk'
        simp at hpc
      cases hm with
      | clock | expireSleep | dequeue => exact hk
      | expireWait _ _ _ _ hx => exact (congrFun (setException_frame hx).cpu j).trans hk
      | switch | reschedule => exact absurd ⟨_, rfl⟩ hsw
      | drain hcpu hpc => rw [hk] at hcpu; cases hcpu; simp at hpc
      | check hcpu hpc =>
        rw [hk] at hcpu
        cases hcpu
        rcases hpc with ⟨-, h, -⟩ | ⟨-, ⟨-, h⟩ | ⟨t', h⟩⟩
        · cases h
        · cases h
        · exact absurd h (hhand t')
      | abandon => exact absurd rfl (hhand _)
      | runTask => exact absurd rfl (hhand _)
      | _ => exact absurd rfl hph
    · exact hk

/-- Only the first move of a step brings the running stack to where `start_next_task` was called. -/
theorem Move.atResume_later (hm : Move w₀ i ph w ph' w' es) (hr : TasksRun ph w i) {j : ThreadId} {c : CtxId}
    (hne : ph = .start → (j, c) ≠ (i, w.cur i)) (h : atResume (w'.stack j c) = true) : atResume (w.stack j c) = true := by
  by_cases hsw : ∃ r, w' = w.switch i r (w.cpu i)
  · obtain ⟨r, rfl⟩ := hsw
    rcases stack_switch (i := i) hr.sane.valid r j c with e | ⟨-, -, -, -, e⟩ <;> rw [e] at h
    · exact h
    · simp [atResume] at h
  · rw [((hm.stackStep hr.sane.valid).resolve_right hsw).stack] at h
    split at h
    · next hjc =>
      obtain ⟨rfl, rfl⟩ := hjc
      have hph : ph ≠ .start := fun e => hne e rfl
      rw [stack_cur]
      cases hm with
      | clock | expireSleep | dequeue => exact h
      | expireWait _ _ _ _ hx => rw [(setException_frame hx).cpu] at h; exact h
      | switch | reschedule => exact absurd ⟨_, rfl⟩ hsw
      | drain hcpu hpc =>
        simp only [setCpu_cpu, if_true] at h
        rcases hpc with ⟨-, rfl, -⟩ | ⟨-, rfl, -⟩ | ⟨-, rfl, -⟩ | ⟨-, rfl, -⟩ <;> simp [atResume] at h
      | check hcpu hpc =>
        simp only [setCpu_cpu, if_true] at h
        rw [hcpu]
        rcases hpc with ⟨-, -, rfl⟩ | ⟨rfl, -⟩
        · simp [atResume] at h
        · revert h
          cases ‹ProcPc› <;> exact id
      | abandon _ hd _ => rw [hr.undone j] at hd; cases hd
      | runTask _ hr' =>
        rcases runTask_cpu hr' with ⟨q, -, -, e⟩ | ⟨-, e⟩ | ⟨q, -, -, e⟩ <;> rw [e] at h <;> simp [atResume] at h
      | _ => exact absurd rfl hph
    · exact h

/-- In the middle of a step of thread `i` from `w₀`: marks other than that of the context that ran are served, and
that one is too unless it was not at the start. -/
structure MarksInv (w₀ : World V) (ph : Phase) (w : World V) (i : ThreadId) : Prop where
  tasks : TasksRun ph w i
  start : ph = .start → AtStart w₀ w
  others : ∀ j c, (j, c) ≠ (i, w₀.cur i) → ((w.thr j).ctx c).canceled = true → atResume (w.stack j c) = true →
    w.executesCanceled j c = true
  own : ((w.thr i).ctx (w₀.cur i)).canceled = true →
    w.executesCanceled i (w₀.cur i) = true ∨
    (((w₀.thr i).ctx (w₀.cur i)).canceled = true ∧ w₀.executesCanceled i (w₀.cur i) = false) ∨
    (ph ≠ .start ∧ ∃ t tm k, w.stack i (w₀.cur i) = .processTasks (.release t) tm :: k)

theorem Move.marksInv (hm : Move w₀ i ph w ph' w' es) (hq : NoQuit es) (h : MarksInv w₀ ph w i) :
    MarksInv w₀ ph' w' i := by
  refine ⟨hm.tasksRun hq h.tasks, fun e => by subst e; exact hm.atStart h.start, fun j c hne hc hres => ?_, fun hc => ?_⟩
  · rcases hm.marks hq h.tasks hc with hc | hex
    · have hres' := hm.atResume_later h.tasks (fun e => by
        obtain ⟨t, -, rfl⟩ := h.start e
        exact hne) hres
      rcases hm.executes hq h.tasks (h.others j c hne hc hres') with hex | ⟨-, t, tm, k, hk⟩
      · exact hex
      · simp [hk, atResume] at hres
    · exact hex
  · rcases hm.marks hq h.tasks hc with hc | hex
    · rcases h.own hc with hex | hstale | ⟨hph, t, tm, k, hk⟩
      · rcases hm.executes hq h.tasks hex with hex | ⟨hph, hk⟩
        · exact .inl hex
        · exact .inr (.inr ⟨by simp [hph], hk⟩)
      · exact .inr (.inl hstale)
      · refine .inr (.inr ⟨?_, t, tm, k, hm.release_later hph h.tasks hk⟩)
        rintro rfl
        exact hph (by cases hm with
          | clock => rfl
          | expireSleep => rfl
          | expireWait => rfl
          | check => rfl)
    · exact .inl hex

/-! ## Runs -/

/-- The step does not suspend a marked context that executes no cancelled task. -/
def MarkedStays (w : World V) (a : Action V) : Prop :=
  ∀ w' e, w.step a = some (w', e) → atResume (w'.stack a.thread (w.cur a.thread)) = true →
    ((w.thr a.thread).ctx (w.cur a.thread)).canceled = true → w.executesCanceled a.thread (w.cur a.thread) = true

/-- The invariant between steps. -/
structure Marks (w : World V) : Prop where
  tasks : ∀ i, TasksRun .start w i
  served : MarksServed w

theorem Marks.step (h : Marks w) (hs : w.step a = some (w', es)) (hq : NoQuit es) (hok : MarkedStays w a) :
    Marks w' := by
  have hI : MarksInv w .out w' a.thread := (step_moves hs).inv (fun ph w' => MarksInv w ph w' a.thread)
    (fun _ _ _ _ _ hm he hI => hm.marksInv (fun j hj => hq j (he _ hj)) hI)
    ⟨h.tasks _, fun _ => atStart_refl w, fun j c _ => h.served j c, fun hc => ?_⟩
  · refine ⟨fun i => ?_, fun j c hc hres => ?_⟩
    · have ht := hI.tasks
      exact ⟨ht.sane, ht.undone, fun t h => (nomatch h), ⟨ht.numbered.frames, ht.numbered.queues, by simp⟩, ht.active⟩
    · by_cases hjc : (j, c) = (a.thread, w.cur a.thread)
      · obtain ⟨rfl, rfl⟩ := Prod.mk.inj hjc
        rcases hI.own hc with hex | ⟨hc₀, hex⟩ | ⟨-, t, tm, k, hk⟩
        · exact hex
        · rw [hok w' es hs hres hc₀] at hex
          cases hex
        · simp [hk, atResume] at hres
      · exact hI.others j c hjc hc hres
  · cases hex : w.executesCanceled a.thread (w.cur a.thread) with
    | true => exact .inl rfl
    | false => exact .inr (.inl ⟨hc, rfl⟩)

theorem marks_init : Marks (init : World V) := by
  have hstack : ∀ j c, ∀ f ∈ (init : World V).stack j c, f = .user := by
    intro j c f hf
    simp only [stack] at hf
    split at hf
    · simpa [init] using hf
    · simp [init] at hf
  refine ⟨fun i => ⟨sane_init, fun j => rfl, fun t h => (by cases h), ⟨fun j c t f hf ht => ?_, fun j t ht => ?_,
    fun t h => (by cases h)⟩, fun n j c h => (by cases h)⟩, fun j c h => (by cases h)⟩
  · rw [hstack j c f hf] at ht
    cases ht
  · simp [init, ThreadPrivate.tasks] at ht

theorem Local.raised {k k' : List (Frame V)} {j : ThreadId} {c : CtxId} (hl : Local w i k k' es)
    (h : .raised j c ∈ es) : j = i ∧ (w.thr i).current = some c ∧ w.currentCanceled i = true ∧
    atResume k = true := by
  have hraise : ∀ {x : Event V}, x ∈ w.raise i → x = .raised j c → j = i ∧ (w.thr i).current = some c := by
    rintro x hx rfl
    obtain ⟨c', he, hc'⟩ := raise_events hx
    simp only [Event.raised.injEq] at he
    obtain ⟨rfl, rfl⟩ := he
    exact ⟨rfl, hc'⟩
  cases hl with
  | raiseSwitched hc =>
    obtain ⟨h₁, h₂⟩ := hraise h rfl
    exact ⟨h₁, h₂, hc, rfl⟩
  | raiseSleep hc =>
    obtain ⟨h₁, h₂⟩ := hraise h rfl
    exact ⟨h₁, h₂, hc, rfl⟩
  | raiseWait hc =>
    rcases List.mem_append.1 h with h | h
    · obtain ⟨h₁, h₂⟩ := hraise h rfl
      exact ⟨h₁, h₂, hc, rfl⟩
    · simp at h
  | raiseYield hc =>
    rcases List.mem_append.1 h with h | h
    · obtain ⟨h₁, h₂⟩ := hraise h rfl
      exact ⟨h₁, h₂, hc, rfl⟩
    · simpa using unwind_events h
  | _ => simp at h

theorem Move.raised (hm : Move w₀ i ph w ph' w' es) {j : ThreadId} {c : CtxId} (h : .raised j c ∈ es) :
    AtStart w₀ w ∧ j = i ∧ (w.thr i).current = some c ∧ w.currentCanceled i = true ∧
    atResume (w.cpu i) = true := by
  cases hm with
  | stackTop hs hl => exact ⟨hs, hl.raised h⟩
  | drain _ hpc =>
    obtain ⟨dl, hx⟩ := drain_event hpc h
    cases hx
  | runTask _ hr =>
    obtain ⟨q, hx⟩ := runTask_event hr h
    cases hx
  | _ => simp at h

/-- In every run without `quit` in which no marked context is suspended outside of a cancelled task,
`task_canceled` is raised only at a context that executes a task on which `cancel()` was called. -/
theorem cancellation_isolated {e : List (Event V)}
    (h : Run step (fun _ w a e => NoQuit e ∧ MarkedStays w a) init w es) (hs : w.step a = some (w', e)) {j : ThreadId}
    {c : CtxId} (hr : .raised j c ∈ e) : w.executesCanceled j c = true := by
  have hI := h.inv (fun _ w => Marks w) marks_init (fun _ _ _ _ _ hI hok hs => hI.step hs hok.1 hok.2)
  obtain ⟨ph₁, w₁, ph₂, w₂, e₁, hm, he⟩ := (step_moves hs).mem hr
  obtain ⟨⟨t, -, rfl⟩, rfl, hcur, hcan, hres⟩ := hm.raised he
  have hc : w.cur a.thread = c := by
    have hcur : (w.thr a.thread).current = some c := hcur
    rw [cur, hcur]
    rfl
  refine hI.served a.thread c ?_ ?_
  · simp only [currentCanceled, hcur] at hcan
    exact hcan
  · rw [← hc, stack_cur]
    exact hres

/-- The check of `MarkedStays`. -/
def markedStaysCheck (w : World V) (a : Action V) : Bool :=
  match w.step a with
  | some (w', _) => !atResume (w'.stack a.thread (w.cur a.thread)) ||
      !((w.thr a.thread).ctx (w.cur a.thread)).canceled || w.executesCanceled a.thread (w.cur a.thread)
  | none => true

theorem markedStaysCheck_sound (h : markedStaysCheck w a = true) : MarkedStays w a := by
  intro w' e hs hres hc
  simpa [markedStaysCheck, hs, hres, hc] using h

/-- A task that yields is cancelled by another thread, and is told so when it goes on. -/
theorem cancellation_isolated_yield : ∃ (w w' : World Nat) (es e : List (Event Nat)) (a : Action Nat),
    Run step (fun _ w a e => NoQuit e ∧ MarkedStays w a) init w es ∧ w.step a = some (w', e) ∧ .raised 0 1 ∈ e ∧
      w.executesCanceled 0 1 = true := by
  obtain ⟨w, es, w', e, h, hs, -, he⟩ := step_of_small_exec (V := Nat) 2
    (fun _ w a e => NoQuit e ∧ MarkedStays w a) (fun _ w a _ => markedStaysCheck w a)
    (fun _ _ e => decide (.raised 0 1 ∈ e))
    [.call 0 0 (.async 0 timePointMin 0), .call 0 0 .yield, .run 0 0 0 0, .call 0 0 .yield,
      .call 1 0 (.cancel 0), .run 0 0 0 0, .call 0 0 .yield]
    (.run 0 0 0 0) (fun _ _ _ _ _ hq hb => ⟨hq, markedStaysCheck_sound hb⟩) (by decide)
  exact ⟨w, w', es, e, _, h, hs, by simpa using he, cancellation_isolated h hs (by simpa using he)⟩

/-- The task that a context runs after a cancelled one throws `task_canceled` from its first `yield`. -/
theorem cancellation_reaches_next_task : ∃ (w w' : World Nat) (es e : List (Event Nat)) (a : Action Nat),
    Run step (fun _ _ _ e => NoQuit e) init w es ∧ w.step a = some (w', e) ∧ .raised 0 1 ∈ e ∧
      w.executesCanceled 0 1 = false := by
  obtain ⟨w, es, h, -, he⟩ := run_of_small_exec (V := Nat) 2 (fun _ _ _ e => NoQuit e)
    (fun _ _ _ _ => true)
    (fun w _ => (w.step (.run 0 0 0 0)).any fun (r : World Nat × List (Event Nat)) =>
      decide (.raised 0 1 ∈ r.2) && !w.executesCanceled 0 1)
    [.call 0 0 (.async 0 timePointMin 0), .call 0 0 (.asyncVoid 0 0), .call 0 0 .yield, .run 0 0 0 0,
      .call 1 0 (.cancel 0), .finish 0 (.value 5), .run 0 0 0 0, .run 0 0 0 0, .run 0 0 0 0, .run 0 0 0 0,
      .run 0 0 0 0, .call 0 0 .yield, .run 0 0 0 0, .call 0 0 .yield]
    (fun _ _ _ _ _ hq _ => hq) (by decide)
  obtain ⟨⟨w', e⟩, hs, he⟩ := (Option.any_eq_true _ _).1 he
  simp only [Bool.and_eq_true, decide_eq_true_eq, Bool.not_eq_true'] at he
  exact ⟨w, w', es, e, _, h, hs, he⟩

end World

end BoostCmt
