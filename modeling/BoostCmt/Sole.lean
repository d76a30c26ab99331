import BoostCmt.Lib.Places
import BoostCmt.Shapes
/-!
# A task is in one place

From the post to the end of its functor a task is in a queue, in the hands of
`process_tasks`, or on the stack that calls its functor. `held` counts the copies
of the tasks that `P` picks in each of these places, and `Move.sole` says that a
move does not make a second copy.
-/

namespace BoostCmt

open ThreadPrivate Places

variable {V : Type}

/-- Where a task can be whose functor has not ended. -/
inductive Place where
  | queue (j : ThreadId)
  | hand
  | stack (j : ThreadId) (c : CtxId)

/-- The functor of a task that `P` picks. -/
def Frame.functor (P : Task → Bool) : Frame V → Bool
  | .task t => P t
  | _ => false

namespace World

variable {w₀ w w' : World V} {i : ThreadId} {ph ph' : Phase} {es : List (Event V)} {P : Task → Bool}

/-- How many tasks that `P` picks a place holds. -/
def held (P : Task → Bool) (ph : Phase) (w : World V) : Place → Nat
  | .queue j => (w.thr j).tasks.countP P
  | .hand =>
    match ph with
    | .hand t => if P t then 1 else 0
    | _ => 0
  | .stack j c => (w.stack j c).countP (Frame.functor P)

/-- The same where the frames that `F` picks count on the stacks. -/
def heldBy (P : Task → Bool) (F : Frame V → Bool) (ph : Phase) (w : World V) : Place → Nat
  | .queue j => (w.thr j).tasks.countP P
  | .hand =>
    match ph with
    | .hand t => if P t then 1 else 0
    | _ => 0
  | .stack j c => (w.stack j c).countP F

theorem held_eq (P : Task → Bool) (ph : Phase) (w : World V) : held P ph w = heldBy P (Frame.functor P) ph w := by
  funext x
  cases x <;> rfl

theorem unwind_functors (k : List (Frame V)) :
    (unwind i k).1.countP (Frame.functor P) ≤ k.countP (Frame.functor P) := by
  unfold unwind
  split <;> simp [Frame.functor]

theorem Local.functors {k k' : List (Frame V)} (hl : Local w i k k' es) :
    k'.countP (Frame.functor P) ≤ k.countP (Frame.functor P) := by
  cases hl with
  | raiseYield =>
    refine Nat.le_trans (unwind_functors _) ?_
    simp [List.countP_cons]
  | _ => simp [List.countP_cons, Frame.functor]

theorem runTask_functors {t : Task} {tm : Int} {k : List (Frame V)} (h : w.runTask i t tm k = some (w', es)) :
    (w'.cpu i).countP (Frame.functor P) ≤ k.countP (Frame.functor P) + if P t then 1 else 0 := by
  rcases runTask_cpu h with ⟨p, -, -, hcpu⟩ | ⟨-, hcpu⟩ | ⟨p, -, -, hcpu⟩ <;>
    rw [hcpu] <;> by_cases hP : P t = true <;> simp [Frame.functor, hP]

/-- A move puts a functor on the running stack only from the hand, unless it is a switch. -/
theorem Move.cpu_functors (hm : Move w₀ i ph w ph' w' es) :
    (w'.cpu i).countP (Frame.functor P) ≤ (w.cpu i).countP (Frame.functor P) + (held P ph w .hand - held P ph' w' .hand) ∨
      ∃ r, w' = w.switch i r (w.cpu i) := by
  cases hm with
  | stackTop _ hl =>
    refine .inl (Nat.le_trans ?_ (Nat.le_add_right _ _))
    simp only [setCpu_cpu, if_true]
    exact hl.functors
  | switch | reschedule => exact .inr ⟨_, rfl⟩
  | runTask hcpu hr =>
    refine .inl (Nat.le_trans (runTask_functors hr) ?_)
    rw [hcpu]
    simp [Frame.functor, held]
  | quit hx => exact .inl (by rw [(quit_stacks hx).2.1]; exact Nat.le_add_right _ _)
  | expireWait _ _ _ _ hx => exact .inl (by rw [(setException_frame hx).cpu]; exact Nat.le_add_right _ _)
  | cancel => exact .inl (by simp only [cancelTask]; split <;> exact Nat.le_add_right _ _)
  | drain hcpu | check hcpu | abandon hcpu | ran hcpu | release hcpu =>
    exact .inl (by simp [hcpu, Frame.functor])
  | waitOn _ hcpu | enqueueThread _ hcpu | resumeWait _ hcpu | finishError _ hcpu | storeValue _ hcpu
  | storeError _ hcpu | post _ hcpu =>
    exact .inl (by simp [hcpu, Frame.functor])
  | resumeSleep hcpu => exact .inl (by simp [hcpu, Frame.functor])
  | sleepOn | sync => exact .inl (by simp [Frame.functor])
  | _ => exact .inl (Nat.le_add_right _ _)

/-- What a move puts on the running stack, unless it is a switch, is all that it puts on any stack. -/
theorem Move.stack_countP {F : Frame V → Bool} {n : Nat} (hm : Move w₀ i ph w ph' w' es) (hv : Valid w)
    (hF : F (.processTasks .start 0) = false)
    (hcpu : (w'.cpu i).countP F ≤ (w.cpu i).countP F + n ∨ ∃ r, w' = w.switch i r (w.cpu i)) (j : ThreadId) (c : CtxId) :
    (w'.stack j c).countP F ≤ (w.stack j c).countP F + if j = i ∧ c = w.cur i then n else 0 := by
  have hswitch : ∀ r, ((w.switch i r (w.cpu i)).stack j c).countP F ≤ (w.stack j c).countP F := by
    intro r
    rcases stack_switch hv r j c with h | ⟨-, -, -, -, h⟩
    · rw [h]
    · rw [h]
      simp [hF]
  rcases hcpu with hc | ⟨r, rfl⟩
  · rcases hm.stackStep hv with hst | ⟨r, rfl⟩
    · rw [hst.stack j c]
      split
      · next h =>
        obtain ⟨rfl, rfl⟩ := h
        rw [stack_cur]
        exact hc
      · exact Nat.le_add_right _ _
    · exact Nat.le_trans (hswitch r) (Nat.le_add_right _ _)
  · exact Nat.le_trans (hswitch r) (Nat.le_add_right _ _)

theorem Move.stack_functors (hm : Move w₀ i ph w ph' w' es) (hv : Valid w) (j : ThreadId) (c : CtxId) :
    held P ph' w' (.stack j c) ≤
      held P ph w (.stack j c) + if j = i ∧ c = w.cur i then held P ph w .hand - held P ph' w' .hand else 0 :=
  hm.stack_countP hv rfl hm.cpu_functors j c

/-- What a move does to the hand: nothing, the task leaves it, or one is taken from the queues. -/
theorem Move.hand_cases (hm : Move w₀ i ph w ph' w' es) :
    held P ph' w' .hand = held P ph w .hand ∨
      (held P ph' w' .hand = 0 ∧ ∀ j, (w'.thr j).tasks = (w.thr j).tasks) ∨
      ∃ t, ph = .out ∧ ph' = .hand t ∧ (w.thr i).tasks.Perm (t :: (w'.thr i).tasks) ∧
        ∀ j, j ≠ i → w'.thr j = w.thr j := by
  cases hm with
  | dequeue _ _ _ _ hd =>
    refine .inr (.inr ⟨_, rfl, rfl, ?_, fun j hj => by simp [hj]⟩)
    simp only [setThr_thr, if_true]
    exact (dequeue_perm hd).2
  | abandon => exact .inr (.inl ⟨rfl, fun _ => rfl⟩)
  | runTask _ hr => exact .inr (.inl ⟨rfl, fun j => runTask_tasks hr j⟩)
  | _ => exact .inl rfl

theorem notify_grows {t : ThreadId} {p : PromId} (h : w.notify i t p = some w') {j : ThreadId} (hj : j ≠ t) :
    (w'.thr j).tasks = (w.thr j).tasks := by
  rcases notify_tasks h j with h | ⟨h, -⟩
  · exact h
  · exact absurd h hj

/-- A move posts to one thread at most. -/
theorem Move.grows_at (hm : Move w₀ i ph w ph' w' es) (hq : NoQuit es) :
    ∃ j₀, ∀ j, j ≠ j₀ → (w'.thr j).tasks.length ≤ (w.thr j).tasks.length := by
  have hother : (∀ j, j ≠ i → w'.thr j = w.thr j) →
      ∃ j₀, ∀ j, j ≠ j₀ → (w'.thr j).tasks.length ≤ (w.thr j).tasks.length :=
    fun h => ⟨i, fun j hj => by rw [h j hj]⟩
  cases hm with
  | async j₀ => exact ⟨j₀, fun j hj => by rw [async_tasks, if_neg hj]; exact Nat.le_refl _⟩
  | asyncVoid j₀ => exact ⟨j₀, fun j hj => by rw [async_tasks, if_neg hj]; exact Nat.le_refl _⟩
  | sync ov j₀ =>
    refine ⟨j₀, fun j hj => ?_⟩
    show ((World.async _ j₀ _).thr j).tasks.length ≤ _
    rw [async_tasks, if_neg hj]
    exact Nat.le_refl _
  | cancel => exact ⟨i, fun j _ => by rw [cancelTask_tasks]⟩
  | quit => exact absurd (by simp) (hq i)
  | @expireWait _ _ _ c v p _ _ _ _ hx =>
    -- the thread that `m_blocked_thread` names, if there is one
    refine ⟨((w.prom p).blockedThread).getD 0, fun j hj => ?_⟩
    have hpop : ((w.setThr i (w.thr i).sleepPop).thr j).tasks = (w.thr j).tasks := by
      rw [setThr_thr]
      split
      · next h => rw [h]; rfl
      · rfl
    rcases setException_tasks hx j with h | ⟨hb, -⟩
    · rw [h, hpop]
    · have hb : (w.prom p).blockedThread = some j := hb
      rw [hb] at hj
      exact absurd rfl hj
  | @post _ _ _ _ _ _ t _ _ hn =>
    exact ⟨t, fun j hj => by show (_ : ThreadPrivate).tasks.length ≤ _; rw [← notify_grows hn hj]; rfl⟩
  | switch => exact ⟨i, fun j _ => by rw [switch_tasks]⟩
  | reschedule => exact ⟨i, fun j _ => by rw [switch_tasks]⟩
  | runTask _ hr => exact ⟨i, fun j _ => by rw [runTask_tasks hr]⟩
  | release => exact ⟨i, fun j _ => by show ((w.release _).thr j).tasks.length ≤ _; rw [release_thr]⟩
  | sleepOn | waitOn | expireSleep | dequeue | drain | resumeWait | resumeSleep =>
    exact hother (fun j hj => by simp [setCpu, hj])
  | _ => exact hother (fun _ _ => rfl)

/-- What a move posts is in one queue, and everything else holds no more than before. -/
theorem Move.posted_at (hm : Move w₀ i ph w ph' w' es) (hq : NoQuit es) {j : ThreadId} {t : Task}
    (hp : (w'.thr j).tasks = t :: (w.thr j).tasks) {j' : ThreadId} (hj : j' ≠ j) :
    held P ph' w' (.queue j') ≤ held P ph w (.queue j') := by
  obtain ⟨j₀, hj₀⟩ := hm.grows_at hq
  have hjj : j = j₀ := by
    by_contra hne
    have := hj₀ j hne
    rw [hp, List.length_cons] at this
    omega
  subst hjj
  rcases hm.tasks hq j' with h | ⟨-, s, -, h⟩ | ⟨s, -, h⟩
  · exact Nat.le_of_eq (h.countP_eq P).symm
  · have := h.countP_eq P
    simp only [List.countP_cons] at this
    simp only [held]
    omega
  · have := hj₀ j' hj
    rw [h, List.length_cons] at this
    omega

/-- A move keeps what `P` and `F` pick in one place, if it puts no more on a stack than it takes out of the hand,
and what it posts is the first of them. -/
theorem Move.soleBy {F : Frame V → Bool} (hm : Move w₀ i ph w ph' w' es) (hq : NoQuit es)
    (hstack : ∀ j c, heldBy P F ph' w' (.stack j c) ≤ heldBy P F ph w (.stack j c) +
      if j = i ∧ c = w.cur i then held P ph w .hand - held P ph' w' .hand else 0)
    (hfresh : ∀ j t, Posts w w' i j es t → (w'.thr j).tasks = t :: (w.thr j).tasks → P t = true →
      ∀ x, heldBy P F ph w x = 0)
    (h : AtMostOne (heldBy P F ph w)) : AtMostOne (heldBy P F ph' w') := by
  have hqueue : ∀ j, (∀ t, Posts w w' i j es t → (w'.thr j).tasks ≠ t :: (w.thr j).tasks) →
      heldBy P F ph' w' (.queue j) ≤ heldBy P F ph w (.queue j) := by
    intro j hno
    rcases hm.tasks hq j with h | ⟨-, s, -, h⟩ | ⟨t, hp, h⟩
    · exact Nat.le_of_eq (h.countP_eq P).symm
    · have := h.countP_eq P
      simp only [List.countP_cons] at this
      simp only [heldBy]
      omega
    · exact absurd h (hno t hp)
  rcases hm.hand_cases (P := P) with hh | ⟨hh, htasks⟩ | ⟨t, rfl, rfl, hperm, hother⟩
  · have hstack' : ∀ j c, heldBy P F ph' w' (.stack j c) ≤ heldBy P F ph w (.stack j c) := by
      intro j c
      have := hstack j c
      simp only [hh, Nat.sub_self, ite_self, Nat.add_zero] at this
      exact this
    by_cases hpost : ∃ j t, Posts w w' i j es t ∧ (w'.thr j).tasks = t :: (w.thr j).tasks
    · obtain ⟨j, t, hp, ht⟩ := hpost
      have hle : ∀ z, z ≠ .queue j → heldBy P F ph' w' z ≤ heldBy P F ph w z := by
        intro z hz
        cases z with
        | queue j' => exact hm.posted_at hq ht (fun e => hz (e ▸ rfl))
        | hand => exact Nat.le_of_eq hh
        | stack j' c => exact hstack' j' c
      have hcount : heldBy P F ph' w' (.queue j) = heldBy P F ph w (.queue j) + if P t then 1 else 0 := by
        simp only [heldBy, ht, List.countP_cons]
      by_cases hPt : P t = true
      · have h0 := hfresh j t hp ht hPt
        refine AtMostOne.create h0 hle ?_
        rw [hcount, h0, if_pos hPt]
      · refine h.mono (fun z => ?_)
        by_cases hz : z = .queue j
        · rw [hz, hcount, if_neg hPt]
          exact Nat.le_refl _
        · exact hle z hz
    · refine h.mono (fun z => ?_)
      cases z with
      | queue j => exact hqueue j (fun t hp ht => hpost ⟨j, t, hp, ht⟩)
      | hand => exact Nat.le_of_eq hh
      | stack j c => exact hstack' j c
  · -- the task in hand is started, or given up
    have hcur := hstack i (w.cur i)
    rw [if_pos ⟨rfl, rfl⟩] at hcur
    refine h.carry (x := .hand) (y := .stack i (w.cur i)) (by simp) (fun z hz => ?_) hcur
    cases z with
    | queue j => exact Nat.le_of_eq (by simp only [heldBy, htasks])
    | hand => exact Nat.le_trans (Nat.le_of_eq hh) (Nat.zero_le _)
    | stack j c =>
      have := hstack j c
      rwa [if_neg (fun e => hz (by rw [e.1, e.2])), Nat.add_zero] at this
  · have hcount := hperm.countP_eq P
    simp only [List.countP_cons] at hcount
    refine h.carry (x := .queue i) (y := .hand) (by simp) (fun z hz => ?_) ?_
    · cases z with
      | queue j =>
        by_cases hj : j = i
        · subst hj
          simp only [heldBy]
          omega
        · simp only [heldBy, hother j hj]
          exact Nat.le_refl _
      | hand => exact absurd rfl hz
      | stack j c =>
        have := hstack j c
        simp only [held, Nat.zero_sub, ite_self, Nat.add_zero] at this
        exact this
    · simp only [heldBy]
      omega

/-- A move keeps the tasks that `P` picks in one place, if what it posts is the first of them. -/
theorem Move.sole (hm : Move w₀ i ph w ph' w' es) (hq : NoQuit es) (hv : Valid w)
    (hfresh : ∀ j t, Posts w w' i j es t → P t = true → ∀ x, held P ph w x = 0) (h : AtMostOne (held P ph w)) :
    AtMostOne (held P ph' w') := by
  rw [held_eq] at h ⊢
  simp only [held_eq P ph w] at hfresh
  exact hm.soleBy hq (hm.stack_functors hv) (fun j t hp _ => hfresh j t hp) h

/-- Where nothing is that `P` and `F` pick, nothing comes but by a post. -/
theorem Move.none_heldBy {F : Frame V → Bool} (hm : Move w₀ i ph w ph' w' es) (hq : NoQuit es)
    (hstack : ∀ j c, heldBy P F ph' w' (.stack j c) ≤ heldBy P F ph w (.stack j c) +
      if j = i ∧ c = w.cur i then held P ph w .hand - held P ph' w' .hand else 0)
    (hpost : ∀ j t, Posts w w' i j es t → P t = false) (h : ∀ x, heldBy P F ph w x = 0) (x : Place) :
    heldBy P F ph' w' x = 0 := by
  have htask : ∀ j, ∀ t ∈ (w.thr j).tasks, P t = false := by
    intro j t ht
    have := List.countP_eq_zero.1 (h (.queue j)) t ht
    simpa using this
  cases x with
  | queue j =>
    refine List.countP_eq_zero.2 (fun t ht => ?_)
    rw [Bool.not_eq_true]
    rcases hm.tasks hq j with hp | ⟨-, s, -, hp⟩ | ⟨s, hp, he⟩
    · exact htask j t (hp.symm.subset ht)
    · exact htask j t (hp.symm.subset (List.mem_cons_of_mem _ ht))
    · rw [he] at ht
      rcases List.mem_cons.1 ht with rfl | ht
      · exact hpost j t hp
      · exact htask j t ht
  | hand =>
    cases ph' with
    | hand t =>
      refine if_neg ?_
      rw [Bool.not_eq_true]
      rcases hm.hand_from with rfl | ht
      · simpa [heldBy] using h .hand
      · exact htask i t ht
    | _ => rfl
  | stack j c =>
    have hhand : held P ph w .hand = 0 := h .hand
    have := hstack j c
    rw [h (.stack j c), hhand, Nat.zero_sub, ite_self] at this
    omega

/-- Where there is no task that `P` picks, none comes but by a post. -/
theorem Move.none_held (hm : Move w₀ i ph w ph' w' es) (hq : NoQuit es) (hv : Valid w)
    (hpost : ∀ j t, Posts w w' i j es t → P t = false) (h : ∀ x, held P ph w x = 0) (x : Place) : held P ph' w' x = 0 := by
  rw [held_eq]
  simp only [held_eq P ph w] at h
  exact hm.none_heldBy hq (hm.stack_functors hv) hpost h x

end World

end BoostCmt
