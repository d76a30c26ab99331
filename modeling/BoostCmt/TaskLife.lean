import BoostCmt.Delivery
/-!
# How long a task lives

A task is deleted by the `release()` of `process_tasks` that takes its last
reference, and `~rtask` then takes it out of its promise. Until then the queues of
its thread or `process_tasks` keep it. So a count is never taken below zero, the
task that a promise names is not deleted, and each task but those of `sync`, which
are on a stack, is deleted when it has been run.
-/

namespace BoostCmt

open Places Runs

variable {V : Type}

/-- `process_tasks` runs a task that `P` picks, or is about to release it. -/
def Frame.keeps (P : Task → Bool) : Frame V → Bool
  | .processTasks (.running t) _ => P t
  | .processTasks (.release t) _ => P t
  | _ => false

theorem eq_of_countP_le_one {α : Type} {P : α → Bool} {l : List α} {a b : α} (h : l.countP P ≤ 1) (ha : a ∈ l)
    (hb : b ∈ l) (hPa : P a = true) (hPb : P b = true) : a = b := by
  induction l with
  | nil => cases ha
  | cons x l ih =>
    rw [List.countP_cons] at h
    have hnone : ∀ {y}, y ∈ l → P y = true → P x = true → False := fun hy hPy hPx => by
      have := List.countP_pos_iff.2 ⟨_, hy, hPy⟩
      rw [if_pos hPx] at h
      omega
    rcases List.mem_cons.1 ha with hax | ha' <;> rcases List.mem_cons.1 hb with hbx | hb'
    · exact hax.trans hbx.symm
    · exact (hnone hb' hPb (hax ▸ hPa)).elim
    · exact (hnone ha' hPa (hbx ▸ hPb)).elim
    · exact ih (Nat.le_trans (Nat.le_add_right _ _) h) ha' hb'

namespace World

variable {w₀ w w' : World V} {i : ThreadId} {ph ph' : Phase} {es : List (Event V)} {P : Task → Bool} {n : Nat}
  {p : PromId} {a : Action V}

/-! ## Who keeps a task -/

theorem unwind_keeps (k : List (Frame V)) : (unwind i k).1.countP (Frame.keeps P) = k.countP (Frame.keeps P) := by
  unfold unwind
  split <;> simp [Frame.keeps]

theorem Local.keeps {k k' : List (Frame V)} (hl : Local w i k k' es) :
    k'.countP (Frame.keeps P) = k.countP (Frame.keeps P) := by
  cases hl with
  | raiseYield => simpa [Frame.keeps] using unwind_keeps (i := i) _
  | exit hpc => rcases hpc with rfl | rfl <;> simp [Frame.keeps]
  | _ => simp [Frame.keeps]

/-- The move is `release()` of `t`. -/
def Releases (ph ph' : Phase) (w w' : World V) (i : ThreadId) (t : Task) : Prop :=
  ph = .start ∧ ph' = .out ∧ ∃ tm k, w.cpu i = .processTasks (.release t) tm :: k ∧
    w' = (w.release t).setCpu i (.processTasks .again tm :: k)

/-- What a move does to the tasks that `process_tasks` keeps on the running stack. -/
theorem Move.cpu_keeps (hm : Move w₀ i ph w ph' w' es) (hhand : InHand ph w i) (hd : (w.thr i).done = false) :
    (∃ t, Releases ph ph' w w' i t) ∨
      (w'.cpu i).countP (Frame.keeps P) =
        (w.cpu i).countP (Frame.keeps P) + (held P ph w .hand - held P ph' w' .hand) ∨
      (held P ph w .hand = 0 ∧ ∃ r, w' = w.switch i r (w.cpu i)) := by
  have hsame : w'.cpu i = w.cpu i → held P ph w .hand ≤ held P ph' w' .hand →
      (w'.cpu i).countP (Frame.keeps P) =
        (w.cpu i).countP (Frame.keeps P) + (held P ph w .hand - held P ph' w' .hand) := fun hcpu hle => by
    rw [hcpu, Nat.sub_eq_zero_of_le hle, Nat.add_zero]
  cases hm with
  | stackTop _ hl =>
    refine .inr (.inl ?_)
    simp only [setCpu_cpu, if_true]
    exact hl.keeps
  | release hcpu => exact .inl ⟨_, rfl, rfl, _, _, hcpu, rfl⟩
  | switch | reschedule => exact .inr (.inr ⟨rfl, _, rfl⟩)
  | clock | go | newPromise | async | asyncVoid | expireSleep => exact .inr (.inl (hsame rfl (Nat.le_refl _)))
  | dequeue => exact .inr (.inl (hsame rfl (Nat.zero_le _)))
  | cancel => exact .inr (.inl (hsame (by simp only [cancelTask]; split <;> rfl) (Nat.le_refl _)))
  | quit hq => exact .inr (.inl (hsame (congrFun (quit_stacks hq).2.1 i) (Nat.le_refl _)))
  | expireWait _ _ _ _ hx =>
    exact .inr (.inl (hsame (congrFun (setException_frame hx).cpu i) (Nat.le_refl _)))
  | sync | sleepOn => exact .inr (.inl (by simp [Frame.keeps, held]))
  | abandon _ hdone =>
    rw [hd] at hdone
    cases hdone
  | finishError _ hcpu | post _ hcpu | resumeSleep hcpu | waitOn _ hcpu | enqueueThread _ hcpu | resumeWait _ hcpu
  | storeValue _ hcpu | storeError _ hcpu => exact .inr (.inl (by simp [hcpu, Frame.keeps, held]))
  | ran hcpu =>
    refine .inr (.inl ?_)
    simp only [setCpu_cpu, if_true, hcpu, List.countP_cons]
    rfl
  | drain hcpu hpc =>
    refine .inr (.inl ?_)
    rcases hpc with ⟨rfl, rfl, -⟩ | ⟨rfl, rfl, -⟩ | ⟨rfl, rfl, -⟩ | ⟨rfl, rfl, -⟩ <;> simp [hcpu, Frame.keeps, held]
  | check hcpu hpc =>
    refine .inr (.inl ?_)
    rcases hpc with ⟨rfl, rfl, rfl⟩ | ⟨rfl, ⟨rfl, rfl⟩ | ⟨t, rfl⟩⟩
    · simp [hcpu, Frame.keeps, held]
    · simp [hcpu, Frame.keeps, held]
    · obtain ⟨pc', tm'', k', hk, hpc⟩ := hhand t rfl
      obtain ⟨he, -⟩ := List.cons.inj (hcpu.symm.trans hk)
      simp only [Frame.processTasks.injEq] at he
      rw [he.1] at hcpu ⊢
      rcases hpc with rfl | rfl | rfl | rfl <;> simp [hcpu, Frame.keeps, held]
  | @runTask _ _ t pc tm k _ hcpu hr =>
    obtain ⟨pc', tm'', k', hk, hpc⟩ := hhand t rfl
    obtain ⟨he, -⟩ := List.cons.inj (hcpu.symm.trans hk)
    simp only [Frame.processTasks.injEq] at he
    rw [he.1] at hcpu
    refine .inr (.inl ?_)
    have hk : (w.cpu i).countP (Frame.keeps P) = k.countP (Frame.keeps P) := by
      rcases hpc with rfl | rfl | rfl | rfl <;> simp [hcpu, Frame.keeps]
    rw [hk]
    rcases runTask_cpu hr with ⟨q, -, -, e⟩ | ⟨-, e⟩ | ⟨q, -, -, e⟩ <;> rw [e] <;>
      simp only [List.countP_cons] <;> rfl

/-- With a task in hand nothing is switched. -/
theorem Move.hand_stackStep {t : Task} (hm : Move w₀ i (.hand t) w ph' w' es) : StackStep i w w' := by
  cases hm with
  | clock => exact ⟨fun _ => rfl, fun _ _ => rfl, rfl⟩
  | expireSleep =>
    refine ⟨fun j => cur_setThr ?_ j, fun _ _ => rfl, rfl⟩
    rw [(readyPushBack_core _ _).1.current]
    rfl
  | expireWait _ _ _ _ hx =>
    have hf := setException_frame hx
    have hc : ∀ j, (w.setThr i (w.thr i).sleepPop).cur j = w.cur j := cur_setThr (s := (w.thr i).sleepPop) rfl
    exact ⟨fun j => (setException_cur hx j).trans (hc j), fun j _ => congrFun hf.cpu j, hf.myContext⟩
  | check | abandon => exact stackStep_setCpu (fun _ => rfl) rfl rfl _
  | runTask _ hr => exact runTask_stackStep hr

/-- The same for all stacks. -/
theorem Move.stack_keeps (hm : Move w₀ i ph w ph' w' es) (hr : TasksRun ph w i) :
    (∃ t, Releases ph ph' w w' i t) ∨ ∀ j c, (w'.stack j c).countP (Frame.keeps P) = (w.stack j c).countP (Frame.keeps P) +
      if j = i ∧ c = w.cur i then held P ph w .hand - held P ph' w' .hand else 0 := by
  have hswitch : ∀ r, w' = w.switch i r (w.cpu i) → held P ph w .hand = 0 → ∀ j c,
      (w'.stack j c).countP (Frame.keeps P) = (w.stack j c).countP (Frame.keeps P) +
        if j = i ∧ c = w.cur i then held P ph w .hand - held P ph' w' .hand else 0 := by
    rintro r rfl hzero j c
    rw [hzero, Nat.zero_sub, ite_self, Nat.add_zero]
    rcases World.stack_switch (i := i) hr.sane.valid r j c with e | ⟨rfl, hle, hc, -, e⟩
    · rw [e]
    · rw [e, hr.sane.blank j c hle hc]
      rfl
  rcases hm.cpu_keeps (P := P) hr.inHand (hr.undone i) with h | h | ⟨hzero, r, he⟩
  · exact .inl h
  · refine .inr ?_
    by_cases hst : StackStep i w w'
    · intro j c
      rw [hst.stack]
      split
      · next hjc =>
        obtain ⟨rfl, rfl⟩ := hjc
        rw [h, stack_cur]
      · rfl
    · obtain ⟨r, he⟩ := (hm.stackStep hr.sane.valid).resolve_left hst
      refine hswitch r he ?_
      cases ph with
      | hand t => exact absurd hm.hand_stackStep hst
      | _ => rfl
  · exact .inr (hswitch r he hzero)

/-- How many tasks that `P` picks a place keeps. -/
def kept (P : Task → Bool) (ph : Phase) (w : World V) : Place → Nat := heldBy P (Frame.keeps P) ph w

/-- Some place keeps a task that `P` picks. -/
def AnyKept (P : Task → Bool) (ph : Phase) (w : World V) : Prop := ∃ x, kept P ph w x ≠ 0

theorem release_frame (w : World V) (t : Task) : SameFrame w (w.release t) ∧ (w.release t).taskCount = w.taskCount := by
  cases hb : t.body <;> simp only [release, hb] <;> [split; skip; skip] <;> exact ⟨⟨rfl, rfl, rfl, rfl⟩, rfl⟩

/-- `release()` takes the task away from the stack that has run it, and nothing else. -/
theorem Releases.stack_keeps {t : Task} (h : Releases ph ph' w w' i t) (j : ThreadId) (c : CtxId) :
    (w'.stack j c).countP (Frame.keeps P) + (if j = i ∧ c = w.cur i then if P t then 1 else 0 else 0) =
      (w.stack j c).countP (Frame.keeps P) := by
  obtain ⟨-, -, tm, k, hcpu, rfl⟩ := h
  have hthr : (w.release t).thr = w.thr := release_thr w t
  have hst : StackStep i w ((w.release t).setCpu i (.processTasks .again tm :: k)) :=
    stackStep_setCpu (fun j => by simp only [cur, hthr]) (release_frame w t).1.cpu (release_frame w t).1.myContext _
  rw [hst.stack]
  split
  · next hjc =>
    obtain ⟨rfl, rfl⟩ := hjc
    rw [stack_cur, hcpu]
    simp only [setCpu_cpu, if_true, List.countP_cons]
    rfl
  · rfl

/-- Where a task is kept that `P` picks. -/
theorem kept_iff {x : Place} : kept P ph w x ≠ 0 ↔ ∃ t, P t = true ∧ kept (· == t) ph w x ≠ 0 := by
  cases x with
  | queue j =>
    simp only [kept, heldBy, ne_eq, List.countP_eq_zero, not_forall, not_not, beq_iff_eq]
    constructor
    · rintro ⟨t, ht, hP⟩
      exact ⟨t, hP, t, ht, rfl⟩
    · rintro ⟨t, hP, s, hs, rfl⟩
      exact ⟨s, hs, hP⟩
  | stack j c =>
    simp only [kept, heldBy, ne_eq, List.countP_eq_zero, not_forall, not_not]
    constructor
    · rintro ⟨f, hf, hP⟩
      unfold Frame.keeps at hP
      split at hP
      · exact ⟨_, hP, _, hf, by simp [Frame.keeps]⟩
      · exact ⟨_, hP, _, hf, by simp [Frame.keeps]⟩
      · cases hP
    · rintro ⟨t, hP, f, hf, ht⟩
      refine ⟨f, hf, ?_⟩
      unfold Frame.keeps at ht ⊢
      split at ht
      · exact (beq_iff_eq.1 ht).symm ▸ hP
      · exact (beq_iff_eq.1 ht).symm ▸ hP
      · cases ht
  | hand =>
    cases ph with
    | hand t =>
      simp only [kept, heldBy, ne_eq, ite_eq_right_iff, Nat.one_ne_zero, imp_false, not_not, beq_iff_eq]
      constructor
      · intro h
        exact ⟨t, h, rfl⟩
      · rintro ⟨s, hs, rfl⟩
        exact hs
    | _ => simp [kept, heldBy]

/-! ## What a move does to them -/

theorem Move.keeps_le (hm : Move w₀ i ph w ph' w' es) (hr : TasksRun ph w i) (j : ThreadId) (c : CtxId) :
    heldBy P (Frame.keeps P) ph' w' (.stack j c) ≤ heldBy P (Frame.keeps P) ph w (.stack j c) +
      if j = i ∧ c = w.cur i then held P ph w .hand - held P ph' w' .hand else 0 := by
  rcases hm.stack_keeps (P := P) hr with ⟨t, h⟩ | h
  · exact Nat.le_trans (Nat.le.intro (h.stack_keeps j c)) (Nat.le_add_right _ _)
  · exact Nat.le_of_eq (h j c)

/-- Nothing is kept that was not kept before, but by a post. -/
theorem Move.kept_from (hm : Move w₀ i ph w ph' w' es) (hq : NoQuit es) (hr : TasksRun ph w i) (h : AnyKept P ph' w') :
    AnyKept P ph w ∨ ∃ j t, Posts w w' i j es t ∧ P t = true := by
  by_contra hno
  simp only [not_or, AnyKept, not_exists, not_and, not_not, Bool.not_eq_true] at hno
  obtain ⟨x, hx⟩ := h
  exact hx (hm.none_heldBy hq (hm.keeps_le hr) hno.2 hno.1 x)

/-- What is kept stays kept, unless the move is `release()`. -/
theorem Move.kept_to (hm : Move w₀ i ph w ph' w' es) (hq : NoQuit es)
    (hst : ∀ j c, (w'.stack j c).countP (Frame.keeps P) = (w.stack j c).countP (Frame.keeps P) +
      if j = i ∧ c = w.cur i then held P ph w .hand - held P ph' w' .hand else 0) (h : AnyKept P ph w) : AnyKept P ph' w' := by
  obtain ⟨x, hx⟩ := h
  cases x with
  | queue j =>
    have hx : (w.thr j).tasks.countP P ≠ 0 := hx
    rcases hm.tasks hq j with hp | ⟨rfl, t, rfl, hp⟩ | ⟨t, -, he⟩
    · exact ⟨.queue j, by rw [hp.countP_eq P] at hx; exact hx⟩
    · rw [hp.countP_eq P, List.countP_cons] at hx
      by_cases hP : P t = true
      · exact ⟨.hand, by simp [kept, heldBy, hP]⟩
      · rw [if_neg hP, Nat.add_zero] at hx
        exact ⟨.queue j, hx⟩
    · refine ⟨.queue j, ?_⟩
      show (w'.thr j).tasks.countP P ≠ 0
      rw [he, List.countP_cons]
      omega
  | hand =>
    have hx : held P ph w .hand ≠ 0 := hx
    by_cases h' : held P ph' w' .hand = 0
    · -- the task that was in hand is run
      refine ⟨.stack i (w.cur i), ?_⟩
      show (w'.stack i (w.cur i)).countP (Frame.keeps P) ≠ 0
      rw [hst, if_pos ⟨rfl, rfl⟩]
      omega
    · exact ⟨.hand, h'⟩
  | stack j c =>
    have hx : (w.stack j c).countP (Frame.keeps P) ≠ 0 := hx
    refine ⟨.stack j c, ?_⟩
    show (w'.stack j c).countP (Frame.keeps P) ≠ 0
    rw [hst]
    omega

/-- `release()` leaves every task kept that has another number. -/
theorem Releases.kept_other {t : Task} (h : Releases ph ph' w w' i t) (hP : P t = false) (x : Place) :
    kept P ph' w' x = kept P ph w x := by
  cases x with
  | queue j =>
    obtain ⟨-, -, tm, k, -, rfl⟩ := h
    show ((w.release t).thr j).tasks.countP P = _
    rw [release_thr]
    rfl
  | hand =>
    obtain ⟨rfl, rfl, -⟩ := h
    rfl
  | stack j c =>
    have := h.stack_keeps (P := P) j c
    simpa [hP, kept, heldBy] using this

/-- After its `release()` a task is kept nowhere, if one place kept it before. -/
theorem Releases.not_kept {t : Task} (h : Releases ph ph' w w' i t) (hP : P t = true)
    (hsole : AtMostOne (kept P ph w)) : ¬ AnyKept P ph' w' := by
  have hat := h.stack_keeps (P := P) i (w.cur i)
  rw [if_pos ⟨rfl, rfl⟩, if_pos hP] at hat
  have hat : kept P ph' w' (.stack i (w.cur i)) + 1 = kept P ph w (.stack i (w.cur i)) := hat
  have hone := hsole.1 (.stack i (w.cur i))
  have hzero : ∀ {x}, x ≠ .stack i (w.cur i) → kept P ph w x = 0 := hsole.eq_zero (by omega)
  rintro ⟨x, hx⟩
  refine hx ?_
  cases x with
  | queue j =>
    rw [← hzero (x := .queue j) (by simp)]
    obtain ⟨-, -, tm, k, -, rfl⟩ := h
    show ((w.release t).thr j).tasks.countP P = _
    rw [release_thr]
    rfl
  | hand =>
    obtain ⟨rfl, rfl, -⟩ := h
    rfl
  | stack j c =>
    by_cases hjc : Place.stack j c = .stack i (w.cur i)
    · rw [hjc]
      omega
    · have := h.stack_keeps (P := P) j c
      exact Nat.le_zero.1 (Nat.le_trans (Nat.le.intro this) (Nat.le_of_eq (hzero hjc)))

/-! ## Reference counts -/

/-- The task of a promise, and whether both are on a stack. -/
def link (w : World V) (p : PromId) : Option (Nat × Bool) := (w.prom p).task.map (·, (w.prom p).onStack)

/-- What a move other than `release()` does to the counts of the tasks and to the tasks of the promises. -/
inductive Ledger (w w' : World V) : Prop where
  | keep : w'.taskCount = w.taskCount → w.promCount ≤ w'.promCount →
      (∀ n, (w'.cell n).refCount = (w.cell n).refCount) → (∀ p, w'.link p = w.link p) → Ledger w w'
  /-- A task is posted, with a new promise if `l` is given, which says whether both are on a stack. -/
  | post {t : Task} {j : ThreadId} {r : Int} {l : Option Bool} : t ∈ (w'.thr j).tasks →
      t.postedNum = w.taskCount + 1 → (∀ p, t.body = .rtask p ↔ p = w.promCount ∧ l ≠ none) →
      w'.taskCount = w.taskCount + 1 → w.promCount ≤ w'.promCount → (l ≠ none → w.promCount < w'.promCount) →
      (∀ n, (w'.cell n).refCount = if n = w.taskCount + 1 then r else (w.cell n).refCount) →
      (∀ p n b, w'.link p = some (n, b) ↔
        w.link p = some (n, b) ∨ p = w.promCount ∧ n = w.taskCount + 1 ∧ l = some b) →
      (if l = some true then 2 ≤ r else r = 1) → Ledger w w'

theorem Ledger.setCpu (h : Ledger w w') (j : ThreadId) (k : List (Frame V)) : Ledger w (w'.setCpu j k) := by
  cases h with
  | keep h₁ h₂ h₃ h₄ => exact .keep h₁ h₂ h₃ h₄
  | post ht h₁ h₂ h₃ h₄ h₅ h₆ h₇ h₈ => exact .post ht h₁ h₂ h₃ h₄ h₅ h₆ h₇ h₈

theorem modProm_link {p : PromId} {f : Promise V → Promise V} (hf : ∀ q, (f q).task = q.task ∧ (f q).onStack = q.onStack)
    (q : PromId) : (w.modProm p f).link q = w.link q := by
  simp only [link, modProm]
  split
  · rw [(hf _).1, (hf _).2]
  · rfl

theorem modProm_ledger {p : PromId} {f : Promise V → Promise V}
    (hf : ∀ q, (f q).task = q.task ∧ (f q).onStack = q.onStack) : Ledger w (w.modProm p f) :=
  .keep rfl (Nat.le_refl _) (fun _ => rfl) (modProm_link hf)

theorem modCell_refCount {n : Nat} {f : TaskCell → TaskCell} (hf : ∀ c, (f c).refCount = c.refCount) (m : Nat) :
    ((w.modCell n f).cell m).refCount = (w.cell m).refCount := by
  simp only [modCell]
  split
  · exact hf _
  · rfl

/-- Only the number of the posted task and its count are new. -/
theorem newTask_ledger {when prio : Int} {body : TaskBody} (hb : ∀ p, body ≠ .rtask p) (j : ThreadId) :
    Ledger w ((w.newTask when prio body 1).2.async j (w.newTask when prio body 1).1) := by
  refine .post (t := (w.newTask when prio body 1).1) (j := j) (l := none) ?_ rfl (fun p => ?_) rfl (Nat.le_refl _)
    (fun h => absurd rfl h) (fun n => ?_) (fun p n b => ?_) rfl
  · rw [async_tasks, if_pos rfl]
    exact List.mem_cons_self
  · exact ⟨fun h => absurd h (hb p), fun h => absurd rfl h.2⟩
  · show ((w.newTask when prio body 1).2.cell n).refCount = _
    rw [newTask_cell]
    split <;> rfl
  · simp only [reduceCtorEq, and_false, or_false]
    rfl

/-- A promise and its task are constructed, and the task is posted. -/
theorem newRtask_ledger {when prio r : Int} {b : Bool} {j : ThreadId} (hfresh : w.link w.promCount = none)
    (hr : if some b = some true then 2 ≤ r else r = 1) :
    Ledger w (((w.newTask when prio (.rtask w.promCount) r).2.newPromise
      (some (w.newTask when prio (.rtask w.promCount) r).1.postedNum) b).2.async j
        (w.newTask when prio (.rtask w.promCount) r).1) := by
  refine .post (t := (w.newTask when prio (.rtask w.promCount) r).1) (j := j) (l := some b) ?_ rfl (fun p => ?_) rfl
    (Nat.le_succ _) (fun _ => Nat.lt_succ_self _) (fun n => ?_) (fun p n b' => ?_) hr
  · rw [async_tasks, if_pos rfl]
    exact List.mem_cons_self
  · simp [newTask, eq_comm]
  · show ((w.newTask when prio (.rtask w.promCount) r).2.cell n).refCount = _
    rw [newTask_cell]
    split <;> rfl
  · by_cases hp : p = w.promCount
    · subst hp
      rw [hfresh]
      simp [link, async, World.newPromise, newTask, modProm, modCell, setThr, eq_comm]
    · simp [link, async, World.newPromise, newTask, modProm, modCell, setThr, hp]

theorem notify_ledger {t : ThreadId} {p : PromId} (h : w.notify i t p = some w') : Ledger w w' := by
  simp only [notify] at h
  split at h
  · obtain ⟨s, -, rfl⟩ := Option.map_eq_some_iff.1 h
    exact .keep rfl (Nat.le_refl _) (fun _ => rfl) (fun _ => rfl)
  · obtain rfl := Option.some.inj h
    exact newTask_ledger (by simp) t

theorem setException_ledger {p : PromId} {e : Error} (h : w.setException i p e = some w') : Ledger w w' := by
  have hlink : ∀ q, (w.modProm p (fun q => { q with error := some e })).link q = w.link q :=
    modProm_link (fun _ => ⟨rfl, rfl⟩)
  simp only [setException, notifyBase] at h
  split at h
  · obtain rfl := Option.some.inj h
    exact .keep rfl (Nat.le_refl _) (fun _ => rfl) hlink
  · cases notify_ledger h with
    | keep h₁ h₂ h₃ h₄ => exact .keep h₁ h₂ h₃ (fun q => (h₄ q).trans (hlink q))
    | post ht h₁ h₂ h₃ h₄ h₅ h₆ h₇ h₈ =>
      refine .post ht h₁ h₂ h₃ h₄ h₅ h₆ (fun q n b => (h₇ q n b).trans ?_) h₈
      rw [hlink]
      rfl

theorem cancelTask_refCount (w : World V) (n m : Nat) :
    ((w.cancelTask n).cell m).refCount = (w.cell m).refCount := by
  unfold cancelTask
  split <;> by_cases hmn : m = n <;> simp [modCell, setThr, hmn]

theorem runTask_taskCount {t : Task} {tm : Int} {k : List (Frame V)} (h : w.runTask i t tm k = some (w', es)) :
    w'.taskCount = w.taskCount := by
  simp only [runTask] at h
  split at h
  · split at h <;> (obtain ⟨rfl, -⟩ := Prod.mk.inj (Option.some.inj h); rfl)
  · obtain ⟨s, -, he⟩ := Option.map_eq_some_iff.1 h
    obtain ⟨rfl, -⟩ := Prod.mk.inj he
    rfl
  · obtain ⟨rfl, -⟩ := Prod.mk.inj (Option.some.inj h)
    rfl

theorem Move.ledger (hm : Move w₀ i ph w ph' w' es) (hq : NoQuit es)
    (hfresh : w.link w.promCount = none) : Ledger w w' ∨ ∃ t, Releases ph ph' w w' i t := by
  cases hm with
  | release hcpu => exact .inr ⟨_, rfl, rfl, _, _, hcpu, rfl⟩
  | quit => exact absurd (by simp) (hq i)
  | newPromise =>
    refine .inl (.keep rfl (Nat.le_succ _) (fun _ => rfl) (fun p => ?_))
    by_cases hp : p = w.promCount
    · rw [hp, hfresh]
      simp [link, World.newPromise, modProm]
    · simp [link, World.newPromise, modProm, hp]
  | async => exact .inl (newRtask_ledger hfresh rfl)
  | asyncVoid j => exact .inl (newTask_ledger (by simp) j)
  | sync ov =>
    have hr : (2 : Int) ≤ 1 + ov.retains := by cases ov <;> decide
    exact .inl ((newRtask_ledger (b := true) hfresh hr).setCpu _ _)
  | cancel =>
    refine .inl (.keep ?_ ?_ (cancelTask_refCount _ _) (fun p => by simp only [link, cancelTask_prom])) <;>
      simp only [cancelTask] <;> split <;> rfl
  | expireWait _ _ _ _ hx =>
    refine .inl ?_
    cases setException_ledger hx with
    | keep h₁ h₂ h₃ h₄ => exact .keep h₁ h₂ h₃ h₄
    | post ht h₁ h₂ h₃ h₄ h₅ h₆ h₇ h₈ => exact .post ht h₁ h₂ h₃ h₄ h₅ h₆ h₇ h₈
  | post _ _ hn => exact .inl ((notify_ledger hn).setCpu _ _)
  | switch | reschedule =>
    refine .inl (.keep ?_ ?_ (fun m => ?_) (fun p => by simp only [link, switch_prom])) <;>
      simp only [World.switch] <;> split <;> rfl
  | runTask _ hr =>
    refine .inl (.keep ?_ (Nat.le_of_eq (runTask_globals hr).2.symm) (fun m => ?_)
      (fun p => by simp only [link, runTask_prom hr]))
    · exact runTask_taskCount hr
    · rw [runTask_cell hr]
      exact modCell_refCount (fun c => by rfl) m
  | ran =>
    refine .inl (.keep rfl (Nat.le_refl _) ?_ (fun _ => rfl))
    exact modCell_refCount (f := fun c => { c with activeContext := none }) (fun _ => rfl)
  | enqueueThread | finishError | storeValue | storeError =>
    refine .inl (Ledger.setCpu (modProm_ledger ?_) _ _)
    exact fun _ => ⟨rfl, rfl⟩
  | _ => exact .inl (.keep rfl (Nat.le_refl _) (fun _ => rfl) (fun _ => rfl))

theorem release_refCount (w : World V) (t : Task) (n : Nat) :
    ((w.release t).cell n).refCount = (w.cell n).refCount - if n = t.postedNum then 1 else 0 := by
  have hmod : ((w.modCell t.postedNum (fun c => { c with refCount := c.refCount - 1 })).cell n).refCount =
      (w.cell n).refCount - if n = t.postedNum then 1 else 0 := by
    by_cases hn : n = t.postedNum <;> simp [modCell, hn]
  cases hb : t.body <;> simp only [World.release, hb] <;> [split; skip; skip] <;> exact hmod

/-- `~rtask` runs with the last `release()`. -/
theorem release_link (w : World V) (t : Task) (p : PromId) :
    (w.release t).link p =
      if t.body = .rtask p ∧ (w.cell t.postedNum).refCount = 1 then none else w.link p := by
  cases hb : t.body with
  | rtask q =>
    simp only [World.release, hb, TaskBody.rtask.injEq, link]
    split
    · next hlast =>
      by_cases hp : p = q
      · simp [modProm, hp, hlast]
      · simp [modProm, modCell, hp, Ne.symm hp]
    · next hlast => rw [if_neg (fun h => hlast h.2)]; rfl
  | notify q => simp [World.release, hb, link, modCell]
  | vtask => simp [World.release, hb, link, modCell]

/-! ## The life of a task -/

/-- The task has this number. -/
def named (n : Nat) (t : Task) : Bool := t.postedNum == n

/-- The task `t` is kept by its thread. -/
def TaskKept (ph : Phase) (w : World V) (t : Task) : Prop := AnyKept (· == t) ph w

theorem kept_named : AnyKept (named n) ph w ↔ ∃ t, t.postedNum = n ∧ TaskKept ph w t := by
  constructor
  · rintro ⟨x, hx⟩
    obtain ⟨t, ht, hx⟩ := kept_iff.1 hx
    exact ⟨t, beq_iff_eq.1 ht, x, hx⟩
  · rintro ⟨t, ht, x, hx⟩
    exact ⟨x, kept_iff.2 ⟨t, beq_iff_eq.2 ht, hx⟩⟩

/-- The counts and the promises know which tasks are kept. -/
structure Lives (ph : Phase) (w : World V) : Prop where
  sole : ∀ n, AtMostOne (kept (named n) ph w)
  range : ∀ t, TaskKept ph w t → 0 < t.postedNum ∧ t.postedNum ≤ w.taskCount
  linked : ∀ p n b, w.link p = some (n, b) → p < w.promCount ∧ n ≤ w.taskCount
  unique : ∀ p q n b b', w.link p = some (n, b) → w.link q = some (n, b') → p = q
  heap : ∀ n, 0 < n → n ≤ w.taskCount → (∀ p, w.link p ≠ some (n, true)) →
    (AnyKept (named n) ph w ∧ (w.cell n).refCount = 1) ∨ (¬ AnyKept (named n) ph w ∧ (w.cell n).refCount = 0)
  onStack : ∀ p n, w.link p = some (n, true) → 1 ≤ (w.cell n).refCount ∧
    (AnyKept (named n) ph w → 2 ≤ (w.cell n).refCount)
  own : ∀ t p, TaskKept ph w t → t.body = .rtask p → ∃ b, w.link p = some (t.postedNum, b)
  owned : ∀ p n, w.link p = some (n, false) → ∃ t, TaskKept ph w t ∧ t.postedNum = n ∧ t.body = .rtask p

theorem Lives.fresh (h : Lives ph w) (hp : w.promCount ≤ p) : w.link p = none := by
  cases hl : w.link p with
  | none => rfl
  | some x => exact absurd (h.linked p x.1 x.2 hl).1 (Nat.not_lt.2 hp)

theorem Lives.not_kept (h : Lives ph w) (hn : w.taskCount < n) : ¬ AnyKept (named n) ph w := fun hk => by
  obtain ⟨t, rfl, ht⟩ := kept_named.1 hk
  exact absurd (h.range t ht).2 (Nat.not_le.2 hn)

/-- Two tasks are one if one place keeps what has their number. -/
theorem TaskKept.same {s t : Task} (h : AtMostOne (kept (named t.postedNum) ph w)) (hs : TaskKept ph w s)
    (ht : TaskKept ph w t) (hn : s.postedNum = t.postedNum) : s = t := by
  obtain ⟨x, hx⟩ := hs
  obtain ⟨y, hy⟩ := ht
  have hat : ∀ {z} {u : Task}, u.postedNum = t.postedNum → kept (· == u) ph w z ≠ 0 →
      kept (named t.postedNum) ph w z ≠ 0 := fun hu hz => kept_iff.2 ⟨_, beq_iff_eq.2 hu, hz⟩
  obtain rfl := h.2 x y (hat hn hx) (hat rfl hy)
  have hone := h.1 x
  cases x with
  | queue j =>
    obtain ⟨a, ha, hPa⟩ := List.countP_pos_iff.1 (Nat.pos_of_ne_zero hx)
    obtain ⟨b, hb, hPb⟩ := List.countP_pos_iff.1 (Nat.pos_of_ne_zero hy)
    obtain rfl := beq_iff_eq.1 hPa
    obtain rfl := beq_iff_eq.1 hPb
    exact eq_of_countP_le_one hone ha hb (beq_iff_eq.2 hn) (beq_self_eq_true _)
  | hand =>
    cases ph with
    | hand u =>
      simp only [kept, heldBy, ne_eq, ite_eq_right_iff, Nat.one_ne_zero, imp_false, not_not, beq_iff_eq] at hx hy
      exact hx.symm.trans hy
    | _ => exact absurd rfl hx
  | stack j c =>
    have hframe : ∀ {u : Task} {f : Frame V}, u.postedNum = t.postedNum → f.keeps (· == u) = true →
        f.keeps (named t.postedNum) = true ∧ ∀ v, f.keeps (· == v) = true → v = u := fun {u f} hu hf => by
      unfold Frame.keeps at hf ⊢
      split at hf
      · obtain rfl := beq_iff_eq.1 hf
        exact ⟨beq_iff_eq.2 hu, fun v hv => (beq_iff_eq.1 hv).symm⟩
      · obtain rfl := beq_iff_eq.1 hf
        exact ⟨beq_iff_eq.2 hu, fun v hv => (beq_iff_eq.1 hv).symm⟩
      · cases hf
    obtain ⟨a, ha, hPa⟩ := List.countP_pos_iff.1 (Nat.pos_of_ne_zero hx)
    obtain ⟨b, hb, hPb⟩ := List.countP_pos_iff.1 (Nat.pos_of_ne_zero hy)
    have hab := eq_of_countP_le_one hone ha hb (hframe hn hPa).1 (hframe rfl hPb).1
    exact (hframe rfl hPb).2 s (hab ▸ hPa)

/-- A move keeps a task in one place. -/
theorem Lives.move_sole (h : Lives ph w) (hm : Move w₀ i ph w ph' w' es) (hq : NoQuit es) (hr : TasksRun ph w i)
    (n : Nat) : AtMostOne (kept (named n) ph' w') := by
  refine hm.soleBy hq (hm.keeps_le hr) (fun j t hp _ ht x => ?_) (h.sole n)
  by_contra hx
  refine h.not_kept (n := n) ?_ ⟨x, hx⟩
  rw [← beq_iff_eq.1 ht, hp.1]
  exact Nat.lt_succ_self _

theorem Lives.move_range (h : Lives ph w) (hm : Move w₀ i ph w ph' w' es) (hq : NoQuit es) (hr : TasksRun ph w i)
    {t : Task} (ht : TaskKept ph' w' t) : 0 < t.postedNum ∧ t.postedNum ≤ w'.taskCount := by
  rcases hm.kept_from hq hr ht with ht | ⟨j, s, hp, hs⟩
  · exact ⟨(h.range t ht).1, Nat.le_trans (h.range t ht).2 (hm.taskCount_le hq)⟩
  · obtain rfl := beq_iff_eq.1 hs
    rw [hp.1, hp.2.1]
    exact ⟨Nat.succ_pos _, Nat.le_refl _⟩

/-- The task that `release()` is called on is kept until then. -/
theorem Releases.kept_before {t : Task} (h : Releases ph ph' w w' i t) : TaskKept ph w t := by
  obtain ⟨-, -, tm, k, hcpu, -⟩ := h
  refine ⟨.stack i (w.cur i), ?_⟩
  simp [kept, heldBy, stack_cur, hcpu, Frame.keeps]

theorem Lives.release (h : Lives ph w) (hm : Move w₀ i ph w ph' w' es) (hq : NoQuit es) (hr : TasksRun ph w i)
    {t : Task} (hrel : Releases ph ph' w w' i t) : Lives ph' w' := by
  have hsole := h.move_sole hm hq hr
  have hrange := fun s => h.move_range (t := s) hm hq hr
  have hbefore := hrel.kept_before
  have hafter : ¬ AnyKept (named t.postedNum) ph' w' := hrel.not_kept (beq_self_eq_true _) (h.sole t.postedNum)
  have hother : ∀ {n}, n ≠ t.postedNum → (AnyKept (named n) ph' w' ↔ AnyKept (named n) ph w) := fun hn => by
    simp only [AnyKept, hrel.kept_other (P := named _) (beq_eq_false_iff_ne.2 (Ne.symm hn))]
  have hof : ∀ {s}, TaskKept ph' w' s → s.postedNum ≠ t.postedNum ∧ TaskKept ph w s := fun {s} hs => by
    have hne : s.postedNum ≠ t.postedNum := fun e => hafter (kept_named.2 ⟨s, e, hs⟩)
    refine ⟨hne, ?_⟩
    have := hrel.kept_other (P := (· == s)) (beq_eq_false_iff_ne.2 (fun e => hne (by rw [e])))
    simpa only [TaskKept, AnyKept, this] using hs
  have hto : ∀ {s}, s.postedNum ≠ t.postedNum → TaskKept ph w s → TaskKept ph' w' s := fun {s} hne hs => by
    have := hrel.kept_other (P := (· == s)) (beq_eq_false_iff_ne.2 (fun e => hne (by rw [e])))
    simpa only [TaskKept, AnyKept, this] using hs
  -- only the task that has lost its last reference leaves its promise
  have hlink : ∀ p, w'.link p = if t.body = .rtask p ∧ (w.cell t.postedNum).refCount = 1 then none else w.link p := by
    intro p
    obtain ⟨-, -, tm, k, -, rfl⟩ := hrel
    exact release_link w t p
  have href : ∀ n, (w'.cell n).refCount = (w.cell n).refCount - if n = t.postedNum then 1 else 0 := by
    intro n
    obtain ⟨-, -, tm, k, -, rfl⟩ := hrel
    exact release_refCount w t n
  have hcount : w'.taskCount = w.taskCount ∧ w'.promCount = w.promCount := by
    obtain ⟨-, -, tm, k, -, rfl⟩ := hrel
    exact ⟨(release_frame w t).2, (release_frame w t).1.promCount⟩
  have hback : ∀ {p x}, w'.link p = some x → w.link p = some x := fun {p x} hp => by
    rw [hlink] at hp
    split at hp
    · cases hp
    · exact hp
  obtain ⟨ht₀, ht₁⟩ := h.range t hbefore
  have hkept : AnyKept (named t.postedNum) ph w := kept_named.2 ⟨t, rfl, hbefore⟩
  refine ⟨hsole, hrange, ?_, ?_, ?_, ?_, ?_, ?_⟩
  · intro p n b hp
    rw [hcount.1, hcount.2]
    exact h.linked p n b (hback hp)
  · intro p q n b b' hp hq
    exact h.unique p q n b b' (hback hp) (hback hq)
  · intro n hn₀ hn₁ hno
    rw [hcount.1] at hn₁
    rw [href]
    by_cases hn : n = t.postedNum
    · subst hn
      refine .inr ⟨hafter, ?_⟩
      have hheap : ∀ p, w.link p ≠ some (t.postedNum, true) := fun p hp => by
        -- a task on a stack has more than one reference, so its promise keeps it
        have hstays := hno p
        have htwo := (h.onStack p _ hp).2 hkept
        rw [hlink, if_neg (fun e => by have := e.2; omega)] at hstays
        exact hstays hp
      rcases h.heap _ ht₀ ht₁ hheap with ⟨-, hone⟩ | ⟨hnot, -⟩
      · simp [hone]
      · exact absurd hkept hnot
    · rw [hother hn, if_neg hn, Int.sub_zero]
      refine h.heap n hn₀ hn₁ (fun p hp => hno p ?_)
      rw [hlink, if_neg, hp]
      rintro ⟨hb, -⟩
      obtain ⟨b, hl⟩ := h.own t p hbefore hb
      rw [hp] at hl
      exact hn (Prod.mk.inj (Option.some.inj hl)).1
  · intro p n hp
    have hst := h.onStack p n (hback hp)
    rw [href]
    by_cases hn : n = t.postedNum
    · subst hn
      have := hst.2 hkept
      rw [if_pos rfl]
      exact ⟨by omega, fun hk => absurd hk hafter⟩
    · rw [hother hn, if_neg hn, Int.sub_zero]
      exact hst
  · intro s p hs hb
    obtain ⟨hne, hs⟩ := hof hs
    obtain ⟨b, hl⟩ := h.own s p hs hb
    refine ⟨b, ?_⟩
    rw [hlink, if_neg, hl]
    rintro ⟨hbt, -⟩
    obtain ⟨b', hl'⟩ := h.own t p hbefore hbt
    rw [hl] at hl'
    exact hne (Prod.mk.inj (Option.some.inj hl')).1
  · intro p n hp
    have hl := hback hp
    obtain ⟨s, hs, rfl, hb⟩ := h.owned p n hl
    refine ⟨s, hto (fun hne => ?_) hs, rfl, hb⟩
    -- the promise would name the task that has been deleted
    obtain rfl := TaskKept.same (h.sole _) hs hbefore hne
    have hheap : ∀ q, w.link q ≠ some (s.postedNum, true) := fun q hq => by
      rw [← h.unique p q _ _ _ hl hq, hl] at hq
      cases hq
    rcases h.heap _ ht₀ ht₁ hheap with ⟨-, hone⟩ | ⟨hnot, -⟩
    · rw [hlink, if_pos ⟨hb, hone⟩] at hp
      cases hp
    · exact hnot hkept

/-- A move that takes no task away from the place that keeps it. -/
theorem Lives.ledger (h : Lives ph w) (hm : Move w₀ i ph w ph' w' es) (hq : NoQuit es) (hr : TasksRun ph w i)
    (hto : ∀ P, AnyKept P ph w → AnyKept P ph' w') (hl : Ledger w w') : Lives ph' w' := by
  have hsole := h.move_sole hm hq hr
  have hrange := fun s => h.move_range (t := s) hm hq hr
  have hfrom : ∀ {s}, TaskKept ph' w' s → TaskKept ph w s ∨ ∃ j, Posts w w' i j es s := fun hs => by
    rcases hm.kept_from hq hr hs with hs | ⟨j, t, hp, ht⟩
    · exact .inl hs
    · exact .inr ⟨j, beq_iff_eq.1 ht ▸ hp⟩
  have hold : ∀ {n}, n ≤ w.taskCount → (AnyKept (named n) ph' w' ↔ AnyKept (named n) ph w) := fun {n} hn => by
    refine ⟨fun hk => ?_, hto _⟩
    rcases hm.kept_from hq hr hk with hk | ⟨j, t, hp, ht⟩
    · exact hk
    · have := hp.1
      have := beq_iff_eq.1 ht
      omega
  cases hl with
  | keep hcount hprom href hlink =>
    have hfrom : ∀ {s}, TaskKept ph' w' s → TaskKept ph w s := fun hs => by
      rcases hfrom hs with hs | ⟨j, hp⟩
      · exact hs
      · have := hp.2.1
        omega
    refine ⟨hsole, hrange, ?_, ?_, ?_, ?_, ?_, ?_⟩
    · intro p n b hp
      obtain ⟨h₁, h₂⟩ := h.linked p n b (hlink p ▸ hp)
      exact ⟨Nat.lt_of_lt_of_le h₁ hprom, hcount ▸ h₂⟩
    · intro p q n b b' hp hq
      exact h.unique p q n b b' (hlink p ▸ hp) (hlink q ▸ hq)
    · intro n hn₀ hn₁ hno
      rw [hcount] at hn₁
      rw [hold hn₁, href]
      exact h.heap n hn₀ hn₁ (fun p => hlink p ▸ hno p)
    · intro p n hp
      rw [hlink] at hp
      rw [hold (h.linked p n true hp).2, href]
      exact h.onStack p n hp
    · intro s p hs hb
      rw [hlink]
      exact h.own s p (hfrom hs) hb
    · intro p n hp
      obtain ⟨s, hs, hn, hb⟩ := h.owned p n (hlink p ▸ hp)
      exact ⟨s, hto _ hs, hn, hb⟩
  | @post t j r l hmem hnum hbody hcount hprom hnew href hlink hcnt =>
    have ht : TaskKept ph' w' t := ⟨.queue j, fun h0 => List.countP_eq_zero.1 h0 t hmem (beq_self_eq_true t)⟩
    have hkept : AnyKept (named (w.taskCount + 1)) ph' w' := kept_named.2 ⟨t, hnum, ht⟩
    refine ⟨hsole, hrange, ?_, ?_, ?_, ?_, ?_, ?_⟩
    · intro p n b hp
      rw [hcount]
      rcases (hlink p n b).1 hp with hp | ⟨rfl, rfl, hl⟩
      · obtain ⟨h₁, h₂⟩ := h.linked p n b hp
        exact ⟨Nat.lt_of_lt_of_le h₁ hprom, Nat.le_succ_of_le h₂⟩
      · exact ⟨hnew (by simp [hl]), Nat.le_refl _⟩
    · intro p q n b b' hp hq
      rcases (hlink p n b).1 hp with hp | ⟨rfl, hn, -⟩ <;> rcases (hlink q n b').1 hq with hq | ⟨rfl, hn', -⟩
      · exact h.unique p q n b b' hp hq
      · exact absurd (hn' ▸ (h.linked p n b hp).2) (Nat.not_succ_le_self _)
      · exact absurd (hn ▸ (h.linked q n b' hq).2) (Nat.not_succ_le_self _)
      · rfl
    · intro n hn₀ hn₁ hno
      rw [href]
      by_cases hn : n = w.taskCount + 1
      · subst hn
        rw [if_pos rfl]
        have hl : l ≠ some true := fun hl => hno w.promCount ((hlink _ _ _).2 (.inr ⟨rfl, rfl, hl⟩))
        rw [if_neg hl] at hcnt
        exact .inl ⟨hkept, hcnt⟩
      · have hn₁ : n ≤ w.taskCount := by omega
        rw [hold hn₁, if_neg hn]
        exact h.heap n hn₀ hn₁ (fun p hp => hno p ((hlink p n true).2 (.inl hp)))
    · intro p n hp
      rw [href]
      rcases (hlink p n true).1 hp with hp | ⟨rfl, rfl, hl⟩
      · have hn := (h.linked p n true hp).2
        rw [hold hn, if_neg (by omega)]
        exact h.onStack p n hp
      · rw [if_pos hl] at hcnt
        rw [if_pos rfl]
        exact ⟨by omega, fun _ => hcnt⟩
    · intro s p hs hb
      rcases hfrom hs with hs | ⟨j', hp⟩
      · obtain ⟨b, hp⟩ := h.own s p hs hb
        exact ⟨b, (hlink p _ b).2 (.inl hp)⟩
      · -- the task is the one that has been posted
        obtain rfl := TaskKept.same (hsole _) hs ht (hp.1.trans hnum.symm)
        obtain ⟨rfl, hl⟩ := (hbody p).1 hb
        obtain ⟨b, hl⟩ := Option.ne_none_iff_exists'.1 hl
        exact ⟨b, (hlink _ _ b).2 (.inr ⟨rfl, hnum, hl⟩)⟩
    · intro p n hp
      rcases (hlink p n false).1 hp with hp | ⟨rfl, rfl, hl⟩
      · obtain ⟨s, hs, hn, hb⟩ := h.owned p n hp
        exact ⟨s, hto _ hs, hn, hb⟩
      · exact ⟨t, ht, hnum, (hbody _).2 ⟨rfl, by simp [hl]⟩⟩

theorem Move.lives (hm : Move w₀ i ph w ph' w' es) (hq : NoQuit es) (hr : TasksRun ph w i) (h : Lives ph w) :
    Lives ph' w' := by
  by_cases hrel : ∃ t, Releases ph ph' w w' i t
  · obtain ⟨t, hrel⟩ := hrel
    exact h.release hm hq hr hrel
  · exact h.ledger hm hq hr (fun P => hm.kept_to hq ((hm.stack_keeps hr).resolve_left hrel))
      ((hm.ledger hq (h.fresh (Nat.le_refl _))).resolve_right hrel)

/-- A task that nobody keeps any more is not kept again. -/
theorem Move.stays_gone (hm : Move w₀ i ph w ph' w' es) (hq : NoQuit es) (hr : TasksRun ph w i)
    (hn : n ≤ w.taskCount) (h : ¬ AnyKept (named n) ph w) : ¬ AnyKept (named n) ph' w' := fun hk => by
  rcases hm.kept_from hq hr hk with hk | ⟨j, t, hp, ht⟩
  · exact h hk
  · have := hp.1
    have := beq_iff_eq.1 ht
    omega

/-! ## Runs -/

theorem TasksRun.start (h : TasksRun .out w i) (j : ThreadId) : TasksRun .start w j :=
  ⟨h.sane, h.undone, by simp [InHand], ⟨h.numbered.frames, h.numbered.queues, by simp⟩, h.active⟩

theorem kept_start (P : Task → Bool) (w : World V) : kept P .start w = kept P .out w := by
  funext x
  cases x <;> rfl

theorem Lives.start (h : Lives .out w) : Lives .start w := by
  have hK : ∀ P, AnyKept P .start w ↔ AnyKept P .out w := fun P => by simp only [AnyKept, kept_start]
  exact ⟨by simpa only [kept_start] using h.sole, by simpa only [TaskKept, hK] using h.range, h.linked, h.unique,
    by simpa only [hK] using h.heap, by simpa only [hK] using h.onStack, by simpa only [TaskKept, hK] using h.own,
    by simpa only [TaskKept, hK] using h.owned⟩

theorem lives_init : Lives .start (init : World V) := by
  have hnone : ∀ P : Task → Bool, ¬ AnyKept P .start (init : World V) := by
    rintro P ⟨x, hx⟩
    refine hx ?_
    cases x with
    | queue | hand => rfl
    | stack j c =>
      refine List.countP_eq_zero.2 (fun f hf => ?_)
      rw [frames_init hf]
      simp [Frame.keeps]
  have hlink : ∀ {p x}, (init : World V).link p ≠ some x := fun hp => by cases hp
  refine ⟨fun n => AtMostOne.zero (fun x => ?_), fun t ht => absurd ht (hnone _), fun p n b hp => absurd hp hlink,
    fun p q n b b' hp => absurd hp hlink, fun n hn₀ hn => absurd hn₀ (Nat.not_lt.2 hn),
    fun p n hp => absurd hp hlink, fun t p ht => absurd ht (hnone _), fun p n hp => absurd hp hlink⟩
  by_contra hx
  exact hnone _ ⟨x, hx⟩

/-- What is known between steps. -/
structure Accounted (w : World V) : Prop where
  tasks : ∀ i, TasksRun .start w i
  lives : Lives .start w

theorem Accounted.step (h : Accounted w) (hs : w.step a = some (w', es)) (hq : NoQuit es) : Accounted w' := by
  obtain ⟨hr, hl⟩ := (step_moves hs).inv (fun ph u => TasksRun ph u a.thread ∧ Lives ph u)
    (fun _ _ _ _ _ hm he ⟨hr, hl⟩ =>
      have hq := fun j hj => hq j (he _ hj)
      ⟨hm.tasksRun hq hr, hm.lives hq hr hl⟩) ⟨h.tasks _, h.lives⟩
  exact ⟨hr.start, hl.start⟩

theorem Accounted.stays_gone (h : Accounted w) (hs : w.step a = some (w', es)) (hq : NoQuit es)
    (hn : n ≤ w.taskCount) (hgone : ¬ AnyKept (named n) .out w) : ¬ AnyKept (named n) .out w' :=
  ((step_moves hs).inv (fun ph u => TasksRun ph u a.thread ∧ n ≤ u.taskCount ∧ ¬ AnyKept (named n) ph u)
    (fun _ _ _ _ _ hm he ⟨hr, hn, hg⟩ =>
      have hq := fun j hj => hq j (he _ hj)
      ⟨hm.tasksRun hq hr, Nat.le_trans hn (hm.taskCount_le hq), hm.stays_gone hq hr hn hg⟩)
    ⟨h.tasks _, hn, by rwa [AnyKept, kept_start]⟩).2.2

end World

end BoostCmt
