import BoostCmt.Placement
import BoostCmt.Queues
/-!
# Where tasks are

A task that has been posted is in one of the three queues of its thread until
`dequeue` takes it out; from then on it is in the hands of `process_tasks`, and
the frames of the stack that runs it hold it. `Move.tasks` says what a move does
to the queues, and `Alloc` that nothing refers to a promise that does not exist.
-/

namespace BoostCmt

open StdHeap ThreadPrivate Runs

variable {V : Type}

namespace ThreadPrivate

variable {s s' : ThreadPrivate}

theorem waitOn_tasks (s : ThreadPrivate) (c : CtxId) (p : PromId) (d : Int) :
    (s.waitOn c p d).tasks = s.tasks := by
  unfold waitOn
  dsimp only
  split <;> rfl

end ThreadPrivate

theorem SameCore.tasks {s s' : ThreadPrivate} (h : SameCore s s') : s'.tasks = s.tasks := by
  rw [ThreadPrivate.tasks, ThreadPrivate.tasks, h.inQueue, h.pqueue, h.schQueue]

/-- `done` stays as it is, and no context is marked as cancelled. -/
structure SameFlags (s s' : ThreadPrivate) : Prop where
  done : s'.done = s.done
  canceled : ∀ c, (s'.ctx c).canceled = true → (s.ctx c).canceled = true

theorem SameFlags.refl (s : ThreadPrivate) : SameFlags s s := ⟨rfl, fun _ => id⟩

theorem SameFlags.trans {s s₁ s₂ : ThreadPrivate} (h₁ : SameFlags s s₁) (h₂ : SameFlags s₁ s₂) : SameFlags s s₂ :=
  ⟨h₂.done.trans h₁.done, fun c h => h₁.canceled c (h₂.canceled c h)⟩

theorem SameCore.flags {s s' : ThreadPrivate} (h : SameCore s s') : SameFlags s s' :=
  ⟨h.done, fun c hc => (h.canceled c) ▸ hc⟩

theorem modCtx_flags (s : ThreadPrivate) (c : CtxId) {f : CmtContext → CmtContext}
    (hf : ∀ k : CmtContext, (f k).canceled = true → k.canceled = true) : SameFlags s (s.modCtx c f) := by
  refine ⟨rfl, fun x hx => ?_⟩
  simp only [modCtx_ctx] at hx
  split at hx
  · exact hf _ hx
  · exact hx

theorem newContext_flags (s : ThreadPrivate) : SameFlags s s.newContext.2 := by
  have h := modCtx_flags s s.nctx (f := fun _ => {}) (by simp)
  exact ⟨rfl, h.canceled⟩

theorem ensureCurrent_flags (s : ThreadPrivate) : SameFlags s s.ensureCurrent.2 := by
  unfold ensureCurrent
  split
  · exact .refl s
  · exact ⟨rfl, (newContext_flags s).canceled⟩

theorem waitOn_flags (s : ThreadPrivate) (c : CtxId) (p : PromId) (d : Int) : SameFlags s (s.waitOn c p d) := by
  refine ⟨by unfold waitOn; dsimp only; split <;> rfl, fun x hx => ?_⟩
  by_cases hxc : x = c
  · rw [hxc] at hx ⊢
    rwa [(waitOn_core s c p d).2.2.2.2.2.2.2.2.2] at hx
  · rwa [(waitOn_core s c p d).2.2.2.2.2.1 x hxc] at hx

theorem sleepOn_flags (s : ThreadPrivate) (c : CtxId) (tp : Int) : SameFlags s (s.sleepOn c tp) := by
  refine ⟨rfl, fun x hx => ?_⟩
  by_cases hxc : x = c
  · rw [hxc] at hx ⊢
    rwa [(sleepOn_core s c tp).2.2.2.2] at hx
  · rwa [(sleepOn_core s c tp).2.2.1 x hxc] at hx

namespace World

variable {w₀ w w' : World V} {i : ThreadId} {ph ph' : Phase} {es : List (Event V)}

/-! ## The queues -/

/-- A task that a move posts to thread `j`. -/
def Posts (w w' : World V) (i j : ThreadId) (es : List (Event V)) (t : Task) : Prop :=
  t.postedNum = w.taskCount + 1 ∧ w'.taskCount = w.taskCount + 1 ∧
    ((t.body = .rtask w.promCount ∧ w'.promCount = w.promCount + 1) ∨ t.body = .vtask ∨
      ∃ p, t.body = .notify p ∧ j ≠ i ∧
        ((∃ o b k, w.cpu i = .set (.post j) p o b :: k) ∨
          (w.prom p).blockedThread = some j ∧ ∃ c, es = [.expired i c p]))

theorem ensureCurrent_tasks (s : ThreadPrivate) : s.ensureCurrent.2.tasks = s.tasks := by
  unfold ensureCurrent
  split <;> rfl

theorem async_tasks (w : World V) (t : Task) (i j : ThreadId) :
    ((w.async j t).thr i).tasks = if i = j then t :: (w.thr i).tasks else (w.thr i).tasks := by
  simp only [async, setThr_thr]
  split
  · next h => subst h; rfl
  · rfl

/-- What a call of `notify` does to the queues. -/
theorem notify_tasks {t : ThreadId} {p : PromId} (h : w.notify i t p = some w') (j : ThreadId) :
    (w'.thr j).tasks = (w.thr j).tasks ∨
      (j = t ∧ j ≠ i ∧ w'.taskCount = w.taskCount + 1 ∧
        (w'.thr j).tasks = (w.newTask timePointMin 0 (.notify p) 1).1 :: (w.thr j).tasks) := by
  simp only [World.notify] at h
  split at h
  · simp only [Option.map_eq_some_iff] at h
    obtain ⟨s, hs, rfl⟩ := h
    rw [setThr_thr]
    split
    · next hj => rw [(notify_core hs).tasks, hj]; exact .inl rfl
    · exact .inl rfl
  · next hti =>
    obtain rfl := Option.some.inj h
    rw [async_tasks]
    split
    · next hj => exact .inr ⟨hj, hj ▸ hti, rfl, rfl⟩
    · exact .inl rfl

theorem setException_tasks {p : PromId} {e : Error} (h : w.setException i p e = some w') (j : ThreadId) :
    (w'.thr j).tasks = (w.thr j).tasks ∨
      ((w.prom p).blockedThread = some j ∧ j ≠ i ∧ w'.taskCount = w.taskCount + 1 ∧
        (w'.thr j).tasks = (w.newTask timePointMin 0 (.notify p) 1).1 :: (w.thr j).tasks) := by
  have hb : ((w.modProm p (fun q => { q with error := some e })).prom p).blockedThread = (w.prom p).blockedThread := by
    simp [modProm]
  simp only [World.setException, notifyBase, hb] at h
  split at h
  · obtain rfl := Option.some.inj h
    exact .inl rfl
  · next t ht =>
    rcases notify_tasks h j with h | ⟨rfl, hj, hc, h⟩
    · exact .inl h
    · exact .inr ⟨ht, hj, hc, h⟩

theorem switch_tasks (w : World V) (r : Bool) (k : List (Frame V)) (j : ThreadId) :
    ((w.switch i r k).thr j).tasks = (w.thr j).tasks := by
  by_cases hj : j = i
  · subst hj
    have hpop : ∀ {s s' : ThreadPrivate} {o}, s.readyPopFront = (o, s') → s'.tasks = s.tasks := by
      intro s s' o h
      unfold readyPopFront at h
      split at h <;> (obtain ⟨-, rfl⟩ := Prod.mk.inj h; rfl)
    have hpush : ∀ (s : ThreadPrivate) (c : CtxId), (if r then s.readyPushBack c else s).tasks = s.tasks := by
      intro s c
      split
      · exact (readyPushBack_core s c).1.tasks
      · rfl
    cases hp : (w.thr j).ensureCurrent.2.readyPopFront with
    | mk o s =>
      have hs := (hpop hp).trans (ensureCurrent_tasks (w.thr j))
      cases o with
      | none => rw [switch_fresh hp]; simp only [setCpu, setThr_thr, if_true]; exact (hpush s _).trans hs
      | some next => rw [switch_ready hp]; simp only [setCpu, setThr_thr, if_true]; exact (hpush s _).trans hs
  · rw [switch_thr_other w r k hj]

theorem cancelTask_tasks (w : World V) (n : Nat) (j : ThreadId) :
    ((w.cancelTask n).thr j).tasks = (w.thr j).tasks := by
  simp only [cancelTask]
  split
  · next j' c _ =>
    rw [setThr_thr]
    split
    · next hj => subst hj; rfl
    · rfl
  · rfl

theorem runTask_tasks {t : Task} {tm : Int} {k : List (Frame V)} (h : w.runTask i t tm k = some (w', es))
    (j : ThreadId) : (w'.thr j).tasks = (w.thr j).tasks := by
  simp only [runTask] at h
  split at h
  · split at h <;> (obtain ⟨rfl, -⟩ := Prod.mk.inj (Option.some.inj h); rfl)
  · simp only [Option.map_eq_some_iff] at h
    obtain ⟨s, hs, he⟩ := h
    obtain ⟨rfl, -⟩ := Prod.mk.inj he
    show ((setThr _ i s).thr j).tasks = _
    rw [setThr_thr]
    split
    · next hj => rw [(notify_core hs).tasks, hj]; rfl
    · rfl
  · obtain ⟨rfl, -⟩ := Prod.mk.inj (Option.some.inj h)
    rfl

/-- What a move does to the queues of thread `j`: nothing, a task is taken out of them, or one is posted. -/
theorem Move.tasks (hm : Move w₀ i ph w ph' w' es) (hq : NoQuit es) (j : ThreadId) :
    (w.thr j).tasks.Perm (w'.thr j).tasks ∨
    (j = i ∧ ∃ t, ph' = .hand t ∧ (w.thr j).tasks.Perm (t :: (w'.thr j).tasks)) ∨
    ∃ t, Posts w w' i j es t ∧ (w'.thr j).tasks = t :: (w.thr j).tasks := by
  have hown : ∀ {s : ThreadPrivate}, s.tasks = (w.thr i).tasks →
      (w.thr j).tasks.Perm ((w.setThr i s).thr j).tasks := by
    intro s hs
    rw [setThr_thr]
    split
    · next hj => rw [hs, hj]
    · exact .refl _
  cases hm with
  | async j' when prio =>
    by_cases hj : j = j'
    · exact .inr (.inr ⟨_, ⟨rfl, rfl, .inl ⟨rfl, rfl⟩⟩, by rw [async_tasks, if_pos hj]; rfl⟩)
    · exact .inl (by rw [async_tasks, if_neg hj]; exact .refl _)
  | asyncVoid j' when prio =>
    by_cases hj : j = j'
    · exact .inr (.inr ⟨_, ⟨rfl, rfl, .inr (.inl rfl)⟩, by rw [async_tasks, if_pos hj]; rfl⟩)
    · exact .inl (by rw [async_tasks, if_neg hj]; exact .refl _)
  | sync ov j' prio d =>
    by_cases hj : j = j'
    · exact .inr (.inr ⟨_, ⟨rfl, rfl, .inl ⟨rfl, rfl⟩⟩, by
        show ((World.async _ j' _).thr j).tasks = _; rw [async_tasks, if_pos hj]; rfl⟩)
    · exact .inl (by show (w.thr j).tasks.Perm ((World.async _ j' _).thr j).tasks; rw [async_tasks, if_neg hj]; exact .refl _)
  | cancel => exact .inl (by rw [cancelTask_tasks])
  | quit => exact absurd (by simp) (hq i)
  | sleepOn tp => exact .inl (hown (ensureCurrent_tasks _))
  | @waitOn _ p d =>
    refine .inl (hown ?_)
    rw [waitOn_tasks, ensureCurrent_tasks]
  | @expireSleep _ _ c =>
    exact .inl (hown ((readyPushBack_core (w.thr i).sleepPop c).1.tasks.trans (sleepPop_core _).tasks))
  | @expireWait _ _ _ c v p _ _ _ _ hx =>
    have hpop : ((w.setThr i (w.thr i).sleepPop).thr j).tasks = (w.thr j).tasks := by
      rw [setThr_thr]
      split
      · next hj => rw [hj]; rfl
      · rfl
    rcases setException_tasks hx j with h | ⟨hb, hj, hc, h⟩
    · exact .inl (by rw [h, hpop])
    · rw [hpop] at h
      exact .inr (.inr ⟨_, ⟨rfl, hc, .inr (.inr ⟨p, rfl, hj, .inr ⟨hb, c, rfl⟩⟩)⟩, h⟩)
  | switch => exact .inl (by rw [switch_tasks])
  | reschedule => exact .inl (by rw [switch_tasks])
  | dequeue _ _ _ _ hd =>
    rw [setThr_thr]
    split
    · next hj => subst hj; exact .inr (.inl ⟨rfl, _, rfl, (dequeue_perm hd).2⟩)
    · exact .inl (.refl _)
  | drain _ _ _ _ hd =>
    refine .inl ?_
    show (w.thr j).tasks.Perm ((w.setThr i _).thr j).tasks
    rw [setThr_thr]
    split
    · next hj => subst hj; exact (dequeue_perm hd).2
    · exact .refl _
  | runTask _ hr => exact .inl (by rw [runTask_tasks hr])
  | release => exact .inl (by show (w.thr j).tasks.Perm ((w.release _).thr j).tasks; rw [release_thr])
  | resumeWait => exact .inl (hown (ensureCurrent_tasks _))
  | resumeSleep => exact .inl (hown (ensureCurrent_tasks _))
  | post _ hcpu hn =>
    rcases notify_tasks hn j with h | ⟨rfl, hj, hc, h⟩
    · exact .inl (by rw [← h]; exact .refl _)
    · exact .inr (.inr ⟨_, ⟨rfl, hc, .inr (.inr ⟨_, rfl, hj, .inl ⟨_, _, _, hcpu⟩⟩)⟩, h⟩)
  | _ => exact .inl (.refl _)

/-! ## Flags -/

theorem notify_flags {t : ThreadId} {p : PromId} (h : w.notify i t p = some w') (j : ThreadId) :
    SameFlags (w.thr j) (w'.thr j) := by
  simp only [World.notify] at h
  split at h
  · simp only [Option.map_eq_some_iff] at h
    obtain ⟨s, hs, rfl⟩ := h
    rw [setThr_thr]
    split
    · next hj => rw [hj]; exact (notify_core hs).flags
    · exact .refl _
  · obtain rfl := Option.some.inj h
    simp only [async, setThr_thr]
    split
    · next hj => rw [hj]; exact ⟨rfl, fun _ => id⟩
    · exact .refl _

theorem switch_flags (w : World V) (r : Bool) (k : List (Frame V)) (j : ThreadId) :
    SameFlags (w.thr j) ((w.switch i r k).thr j) := by
  by_cases hj : j = i
  · subst hj
    have hpop : ∀ {s s' : ThreadPrivate} {o}, s.readyPopFront = (o, s') → SameFlags s s' := by
      intro s s' o h
      unfold readyPopFront at h
      split at h <;> obtain ⟨-, rfl⟩ := Prod.mk.inj h
      · exact .refl s
      · next tmp _ =>
        exact ⟨rfl, (modCtx_flags s tmp (f := fun k => { k with next := none }) (fun _ => id)).canceled⟩
    have hpush : ∀ (s : ThreadPrivate) (c : CtxId), SameFlags s (if r then s.readyPushBack c else s) := by
      intro s c
      split
      · exact (readyPushBack_core s c).1.flags
      · exact .refl s
    cases hp : (w.thr j).ensureCurrent.2.readyPopFront with
    | mk o s =>
      have hs := ((ensureCurrent_flags (w.thr j)).trans (hpop hp)).trans (hpush s (w.thr j).ensureCurrent.1)
      cases o with
      | none =>
        rw [switch_fresh hp]
        simp only [setCpu, setThr_thr, if_true]
        have := hs.trans (newContext_flags _)
        exact ⟨this.done, this.canceled⟩
      | some next =>
        rw [switch_ready hp]
        simp only [setCpu, setThr_thr, if_true]
        exact ⟨hs.done, hs.canceled⟩
  · rw [switch_thr_other w r k hj]
    exact .refl _

/-- Only `task::cancel` marks a context as cancelled. -/
theorem Move.flags (hm : Move w₀ i ph w ph' w' es) (hq : NoQuit es) (j : ThreadId) :
    SameFlags (w.thr j) (w'.thr j) ∨
      ∃ n c₀, w' = w.cancelTask n ∧ (w.cell n).activeContext = some (j, c₀) ∧ (w'.thr j).done = (w.thr j).done ∧
        (∀ c, c ≠ c₀ → (w'.thr j).ctx c = (w.thr j).ctx c) ∧ ph = .start ∧ external (w.cpu i) := by
  have hown : ∀ {s : ThreadPrivate}, SameFlags (w.thr i) s → SameFlags (w.thr j) ((w.setThr i s).thr j) := by
    intro s hs
    rw [setThr_thr]
    split
    · next hj => rw [hj]; exact hs
    · exact .refl _
  have hpost : ∀ (u : World V) (j' : ThreadId) (t : Task), SameFlags (u.thr j) ((u.async j' t).thr j) := by
    intro u j' t
    simp only [World.async, setThr_thr]
    split
    · next hj => rw [hj]; exact ⟨rfl, fun _ => id⟩
    · exact .refl _
  cases hm with
  | async j' when prio =>
    exact .inl (hpost ((w.newTask when prio (.rtask w.promCount) 1).2.newPromise _ false).2 j' _)
  | asyncVoid j' when prio => exact .inl (hpost (w.newTask when prio .vtask 1).2 j' _)
  | sync ov j' prio d =>
    exact .inl (hpost ((w.newTask timePointMin prio (.rtask w.promCount) (1 + ov.retains)).2.newPromise _ true).2 j' _)
  | @cancel _ n _ hx =>
    cases hact : (w.cell n).activeContext with
    | none => exact .inl (by simp only [cancelTask, hact]; exact .refl _)
    | some jc =>
      obtain ⟨j', c₀⟩ := jc
      by_cases hj : j = j'
      · subst hj
        refine .inr ⟨n, c₀, rfl, hact, ?_, fun c hc => ?_, rfl, hx⟩ <;>
          simp [cancelTask, hact, modCell, ThreadPrivate.modCtx]
        exact fun e => absurd e hc
      · refine .inl ?_
        simp only [cancelTask, hact, setThr_thr, if_neg hj]
        exact .refl _
  | quit => exact absurd (by simp) (hq i)
  | sleepOn tp => exact .inl (hown ((ensureCurrent_flags _).trans (sleepOn_flags _ _ tp)))
  | @waitOn _ p d => exact .inl (hown ((ensureCurrent_flags _).trans (waitOn_flags _ _ p d)))
  | @expireSleep _ _ c =>
    exact .inl (hown ((sleepPop_core _).flags.trans (readyPushBack_core (w.thr i).sleepPop c).1.flags))
  | @expireWait _ _ _ c v p _ _ _ _ hx =>
    refine .inl ((hown (sleepPop_core _).flags).trans ?_)
    simp only [setException, notifyBase] at hx
    split at hx
    · obtain rfl := Option.some.inj hx
      exact .refl _
    · exact notify_flags hx j
  | switch => exact .inl (switch_flags w false _ j)
  | reschedule => exact .inl (switch_flags w true _ j)
  | dequeue _ _ _ _ hd => exact .inl (hown ⟨(dequeue_sched hd).done, fun c h => (dequeue_sched hd).ctx ▸ h⟩)
  | drain _ _ _ _ hd => exact .inl (hown ⟨(dequeue_sched hd).done, fun c h => (dequeue_sched hd).ctx ▸ h⟩)
  | runTask _ hr =>
    refine .inl ?_
    simp only [World.runTask] at hr
    split at hr
    · split at hr <;> (obtain ⟨rfl, -⟩ := Prod.mk.inj (Option.some.inj hr); exact .refl _)
    · simp only [Option.map_eq_some_iff] at hr
      obtain ⟨s, hs, he⟩ := hr
      obtain ⟨rfl, -⟩ := Prod.mk.inj he
      exact hown (notify_core hs).flags
    · obtain ⟨rfl, -⟩ := Prod.mk.inj (Option.some.inj hr)
      exact .refl _
  | release =>
    refine .inl ?_
    show SameFlags (w.thr j) ((w.release _).thr j)
    rw [release_thr]
    exact .refl _
  | resumeWait => exact .inl (hown ((ensureCurrent_flags _).trans (modCtx_flags _ _ (fun _ => id))))
  | resumeSleep => exact .inl (hown ((ensureCurrent_flags _).trans (modCtx_flags _ _ (fun _ => id))))
  | post _ _ hn => exact .inl (notify_flags hn j)
  | _ => exact .inl (.refl _)

theorem Move.done (hm : Move w₀ i ph w ph' w' es) (hq : NoQuit es) (j : ThreadId) :
    (w'.thr j).done = (w.thr j).done := by
  rcases hm.flags hq j with h | ⟨_, _, _, _, h, _⟩
  · exact h.done
  · exact h

/-! ## The task in hand -/

/-- The task in hand comes from a queue. -/
theorem Move.hand_from {t : Task} (hm : Move w₀ i ph w (.hand t) w' es) : ph = .hand t ∨ t ∈ (w.thr i).tasks := by
  cases hm with
  | clock | expireSleep | expireWait | check => exact .inl rfl
  | dequeue _ _ _ _ hd => exact .inr ((dequeue_perm hd).2.symm.subset (by simp))

/-- While a task is in hand, `process_tasks` is at one of its calls of `dequeue`. -/
def InHand (ph : Phase) (w : World V) (i : ThreadId) : Prop :=
  ∀ t, ph = .hand t → ∃ pc tm k, w.cpu i = .processTasks pc tm :: k ∧
    (pc = .start ∨ pc = .again ∨ pc = .switched ∨ pc = .lock)

theorem Move.inHand (hm : Move w₀ i ph w ph' w' es) (h : InHand ph w i) : InHand ph' w' i := by
  intro t hph
  subst hph
  cases hm with
  | clock | expireSleep => exact h t rfl
  | expireWait _ _ _ _ hx => rw [(setException_frame hx).cpu]; exact h t rfl
  | dequeue hcpu hpc => exact ⟨_, _, _, hcpu, hpc⟩
  | check hcpu hpc =>
    obtain ⟨pc, tm, k, hk, hpc'⟩ := h t rfl
    obtain ⟨he, rfl⟩ := List.cons.inj (hcpu.symm.trans hk)
    simp only [Frame.processTasks.injEq] at he
    obtain ⟨rfl, rfl⟩ := he
    rcases hpc with ⟨h, -⟩ | ⟨rfl, -⟩
    · cases h
    · exact ⟨_, _, _, by simp only [setCpu_cpu, if_true]; rfl, hpc'⟩

end World

end BoostCmt
