import BoostCmt.Sole
/-!
# The functors of tasks

A run is kept together with a log of what happens to tasks: `future::cancel`
marks one, `run()` calls its functor, the functor returns or throws. As long as
nobody cancels a task that has been taken out of its queue, a functor is called
once at most, and not at all if the task was cancelled.
-/

namespace BoostCmt

open ThreadPrivate Places Runs

variable {V : Type}

namespace World

variable {w₀ w w' : World V} {i : ThreadId} {ph ph' : Phase} {es : List (Event V)} {a : Action V}

/-! ## Marks -/

/-- Nobody has been marked as cancelled, neither a context nor a task. -/
structure Quiet (w w' : World V) : Prop where
  contexts : ∀ j c, ((w'.thr j).ctx c).canceled = true → ((w.thr j).ctx c).canceled = true
  tasks : ∀ n, (w'.cell n).canceled = true → (w.cell n).canceled = true

theorem Quiet.refl (w : World V) : Quiet w w := ⟨fun _ _ => id, fun _ => id⟩

theorem Quiet.trans {w₁ w₂ : World V} (h₁ : Quiet w w₁) (h₂ : Quiet w₁ w₂) : Quiet w w₂ :=
  ⟨fun j c h => h₁.contexts j c (h₂.contexts j c h), fun n h => h₁.tasks n (h₂.tasks n h)⟩

theorem newTask_quiet (w : World V) (when prio : Int) (body : TaskBody) (refs : Int) :
    Quiet w (w.newTask when prio body refs).2 := by
  refine ⟨fun _ _ => id, fun n h => ?_⟩
  rw [newTask_cell] at h
  split at h
  · cases h
  · exact h

theorem async_quiet (w : World V) (j : ThreadId) (t : Task) : Quiet w (w.async j t) := by
  refine ⟨fun j' c h => ?_, fun _ => id⟩
  simp only [async, setThr_thr] at h
  split at h
  · next hj => rw [hj]; exact h
  · exact h

/-- `async` and `sync` of a functor with a result. -/
theorem postRtask_quiet (w : World V) (when prio : Int) (body : TaskBody) (refs : Int) (n : Option Nat) (b : Bool)
    (j : ThreadId) (t : Task) : Quiet w (((w.newTask when prio body refs).2.newPromise n b).2.async j t) := by
  have h := async_quiet ((w.newTask when prio body refs).2.newPromise n b).2 j t
  exact (newTask_quiet w when prio body refs).trans ⟨h.contexts, h.tasks⟩

theorem sync_quiet (w : World V) (when prio : Int) (body : TaskBody) (refs : Int) (n : Option Nat) (b : Bool)
    (j : ThreadId) (t : Task) (i : ThreadId) (k : List (Frame V)) :
    Quiet w ((((w.newTask when prio body refs).2.newPromise n b).2.async j t).setCpu i k) :=
  have h := postRtask_quiet w when prio body refs n b j t
  ⟨h.contexts, h.tasks⟩

theorem switch_quiet (w : World V) (r : Bool) (k : List (Frame V)) : Quiet w (w.switch i r k) :=
  ⟨fun j => (switch_flags w r k j).canceled, fun n h => by simp only [World.switch] at h; split at h <;> exact h⟩

theorem notify_quiet {t : ThreadId} {p : PromId} (h : w.notify i t p = some w') : Quiet w w' := by
  refine ⟨fun j => (notify_flags h j).canceled, fun n hn => ?_⟩
  rcases notify_cell h n with e | ⟨-, e⟩
  · rwa [e] at hn
  · rw [e] at hn
    cases hn

/-- Only the code outside the library marks anybody. -/
theorem Move.quiet (hm : Move w₀ i ph w ph' w' es) (hq : NoQuit es) :
    Quiet w w' ∨ (ph = .start ∧ external (w.cpu i)) := by
  have hflags : (∀ n, (w'.cell n).canceled = true → (w.cell n).canceled = true) →
      Quiet w w' ∨ (ph = .start ∧ external (w.cpu i)) := by
    intro hc
    by_cases hx : ph = .start ∧ external (w.cpu i)
    · exact .inr hx
    · refine .inl ⟨fun j => ?_, hc⟩
      rcases hm.flags hq j with h | ⟨_, _, _, _, _, _, h⟩
      · exact h.canceled
      · exact absurd h hx
  cases hm with
  | cancel hx => exact .inr ⟨rfl, hx⟩
  | async j when prio => exact hflags (newTask_quiet w when prio (.rtask w.promCount) 1).tasks
  | asyncVoid j when prio => exact hflags (newTask_quiet w when prio .vtask 1).tasks
  | sync ov j prio => exact hflags (newTask_quiet w timePointMin prio (.rtask w.promCount) (1 + ov.retains)).tasks
  | quit => exact absurd (by simp) (hq i)
  | expireWait _ _ _ _ hx =>
    refine hflags ?_
    simp only [setException, notifyBase] at hx
    split at hx
    · obtain rfl := Option.some.inj hx
      exact fun _ => id
    · exact (notify_quiet hx).tasks
  | post _ _ hn => exact hflags (notify_quiet hn).tasks
  | switch => exact hflags (switch_quiet w false _).tasks
  | reschedule => exact hflags (switch_quiet w true _).tasks
  | runTask _ hr =>
    refine hflags (fun n hn => ?_)
    have hcell := congrArg TaskCell.canceled (congrFun (runTask_cell hr) n)
    rw [hn] at hcell
    simp only [modCell] at hcell
    split at hcell <;> exact hcell.symm
  | ran =>
    refine hflags (fun n hn => ?_)
    simp only [setCpu, modCell] at hn
    split at hn <;> exact hn
  | release =>
    refine hflags (fun n hn => ?_)
    exact (release_cell w _ n).1 ▸ hn
  | _ => exact hflags (fun _ => id)

theorem Moves.quiet (hm : Moves w₀ i ph w ph' w' es) (hq : NoQuit es)
    (hx : ¬ external (w₀.cpu i)) (hs : ph = .start → AtStart w₀ w) : Quiet w w' := by
  have h :=
    hm.inv (fun ph' w' => Quiet w w' ∧ (ph' = .start → AtStart w₀ w')) (fun ph₁ w₁ ph₂ w₂ e hm he ⟨hw, hs⟩ => ?_)
    ⟨.refl w, hs⟩
  · exact h.1
  · refine ⟨hw.trans ?_, fun h => (h ▸ hm).atStart hs⟩
    rcases hm.quiet (fun j hj => hq j (he _ hj)) with h | ⟨rfl, h⟩
    · exact h
    · obtain ⟨t, -, rfl⟩ := hs rfl
      exact absurd h hx

/-- A step of the library does not start in the code outside of it. -/
theorem step_external (hs : w.step a = some (w', es))
    (ha : (∃ i t₁ t₂ t₃, a = .run i t₁ t₂ t₃) ∨ ∃ i t, a = .contend i t) :
    ¬ external (w.cpu a.thread) := by
  intro hx
  rcases ha with ⟨i, t₁, t₂, t₃, rfl⟩ | ⟨i, t, rfl⟩
  · simp only [step] at hs
    split at hs
    · simp only [stepRun] at hs
      simp only [Action.thread] at hx
      unfold external at hx
      split at hx
      · next h => rw [h] at hs; cases hs
      · next h => rw [h] at hs; cases hs
      · exact hx
    · cases hs
  · simp only [step] at hs
    split at hs
    · next h =>
      simp only [Action.thread] at hx
      unfold external at hx
      split at hx
      · next hk => rw [hk] at h; cases h.2.2
      · next hk => rw [hk] at h; cases h.2.2
      · exact hx
    · cases hs

theorem startNextTask_quiet {r : Bool} {k : List (Frame V)} (h : w.startNextTask i r k = some (w', es))
    (hq : NoQuit es) :
    Quiet w w' := by
  -- the moves are those of a thread that is inside the library
  have hph : Phase.out ≠ .start := by simp
  obtain ⟨w₁, hm, -, -, rfl⟩ := startNextTask_moves (w.setCpu i []) hph h
  have h₁ : Quiet (w.setCpu i k) w₁ := hm.quiet hq (by simp [external]) (by simp)
  exact Quiet.trans ⟨h₁.contexts, h₁.tasks⟩ (switch_quiet w₁ r _)

/-- A step marks somebody only by `future::cancel`. -/
theorem step_quiet (hs : w.step a = some (w', es)) (hq : NoQuit es) :
    Quiet w w' ∨ ∃ i t p n, a = .call i t (.cancel p) ∧ (w.prom p).ready = false ∧ (w.prom p).task = some n ∧
      w' = w.cancelTask n := by
  cases a with
  | tick t =>
    simp only [step] at hs
    split at hs
    · obtain ⟨rfl, -⟩ := Prod.mk.inj (Option.some.inj hs)
      exact .inl ⟨fun _ _ => id, fun _ => id⟩
    · cases hs
  | run i t₁ t₂ t₃ =>
    exact .inl ((step_moves hs).quiet hq (step_external hs (.inl ⟨_, _, _, _, rfl⟩)) (fun _ => atStart_refl w))
  | contend i t =>
    exact .inl ((step_moves hs).quiet hq (step_external hs (.inr ⟨_, _, rfl⟩)) (fun _ => atStart_refl w))
  | finish i o =>
    simp only [step] at hs
    split at hs
    · simp only [finish] at hs
      split at hs <;> (obtain ⟨rfl, -⟩ := Prod.mk.inj (Option.some.inj hs); exact .inl ⟨fun _ _ => id, fun _ => id⟩)
    · cases hs
  | call i t c =>
    have hc : w.stepCall i t (w.cpu i) c = some (w', es) := by
      simp only [step] at hs
      split at hs
      · split at hs
        · next hk => rw [hk]; rwa [hk] at hs
        · next hk => rw [hk]; rwa [hk] at hs
        · cases hs
      · cases hs
    cases c with
    | newPromise =>
      obtain ⟨rfl, -⟩ := Prod.mk.inj (Option.some.inj hc)
      exact .inl ⟨fun _ _ => id, fun _ => id⟩
    | async j when prio =>
      obtain ⟨rfl, -⟩ := Prod.mk.inj (Option.some.inj hc)
      exact .inl (postRtask_quiet w when prio (.rtask w.promCount) 1 _ false j _)
    | asyncVoid j prio =>
      obtain ⟨rfl, -⟩ := Prod.mk.inj (Option.some.inj hc)
      exact .inl ((newTask_quiet w timePointMin prio .vtask 1).trans (async_quiet _ j _))
    | scheduleVoid j when prio =>
      obtain ⟨rfl, -⟩ := Prod.mk.inj (Option.some.inj hc)
      exact .inl ((newTask_quiet w when prio .vtask 1).trans (async_quiet _ j _))
    | wait p d | set p o =>
      simp only [stepCall] at hc
      split at hc
      · obtain ⟨rfl, -⟩ := Prod.mk.inj (Option.some.inj hc)
        exact .inl ⟨fun _ _ => id, fun _ => id⟩
      · cases hc
    | cancel p =>
      simp only [stepCall] at hc
      split at hc
      · split at hc
        · next n hr ht =>
          obtain ⟨rfl, -⟩ := Prod.mk.inj (Option.some.inj hc)
          exact .inr ⟨i, t, p, n, rfl, hr, ht, rfl⟩
        · obtain ⟨rfl, -⟩ := Prod.mk.inj (Option.some.inj hc)
          exact .inl (.refl w)
      · cases hc
    | sleepUntil tp =>
      simp only [stepCall] at hc
      split at hc
      · obtain ⟨rfl, -⟩ := Prod.mk.inj (Option.some.inj hc)
        exact .inl (.refl w)
      · have h := startNextTask_quiet hc hq
        refine .inl ⟨fun j c hj => ?_, h.tasks⟩
        have hj := h.contexts j c hj
        simp only [setNow, setThr_thr] at hj
        split at hj
        · next e =>
          rw [e]
          exact ((ensureCurrent_flags (w.thr i)).trans (sleepOn_flags _ _ tp)).canceled c hj
        · exact hj
    | yield =>
      have h := startNextTask_quiet hc hq
      exact .inl ⟨h.contexts, h.tasks⟩
    | exec =>
      obtain ⟨rfl, -⟩ := Prod.mk.inj (Option.some.inj hc)
      exact .inl ⟨fun _ _ => id, fun _ => id⟩
    | quit =>
      obtain ⟨w₁, -, he⟩ := Option.map_eq_some_iff.1 hc
      obtain ⟨-, rfl⟩ := Prod.mk.inj he
      exact absurd (by simp) (hq i)
    | sync ov j prio d =>
      obtain ⟨rfl, -⟩ := Prod.mk.inj (Option.some.inj hc)
      exact .inl (sync_quiet w timePointMin prio (.rtask w.promCount) (1 + ov.retains) _ true j _ i _)

/-! ## Where a functor is called -/

theorem checkForTimeouts_valid {tm : Int} (h : w.checkForTimeouts i = some (tm, w', es)) (hv : Valid w) :
    Valid w' := by
  have hph : Phase.out ≠ .start := by simp
  exact (checkForTimeouts_moves w hph h).1.inv (fun _ w => Valid w) (fun _ _ _ _ _ hm _ => hm.valid) hv

/-- Where `start_next_task` goes on. -/
theorem startNextTask_lands {r : Bool} {saved : List (Frame V)} (hv : Valid w)
    (h : w.startNextTask i r saved = some (w', es)) :
    w'.cpu i = saved ∨ w'.cpu i = [.processTasks .start 0] ∨ ∃ c, c ≠ w.cur i ∧ w'.cpu i = w.myContext i c := by
  simp only [startNextTask, Option.bind_eq_bind, Option.bind_eq_some_iff] at h
  obtain ⟨⟨tm, w₁, e₁⟩, hc, he⟩ := h
  obtain ⟨rfl, -⟩ := Prod.mk.inj (Option.some.inj he)
  have hcur : (w₁.thr i).ensureCurrent.1 = w.cur i :=
    ((checkForTimeouts_valid hc hv i).ensureCurrent.2.2.1).trans (checkForTimeouts_cur hc i)
  cases hp : (w₁.thr i).ensureCurrent.2.readyPopFront with
  | mk o s =>
    cases o with
    | none =>
      rw [switch_fresh hp]
      exact .inr (.inl (by simp))
    | some next =>
      rw [switch_ready hp, hcur]
      by_cases hn : next = w.cur i
      · exact .inl (by simp [setThr, setMyContext, hn])
      · refine .inr (.inr ⟨next, hn, ?_⟩)
        simp [setThr, setMyContext, hn, (checkForTimeouts_frame hc).myContext]

/-- The functor of `t` has been called on the stack `k` of the running context. -/
def CallsFunctor (w w' : World V) (i : ThreadId) (k : List (Frame V)) (t : Task) (k' : List (Frame V)) : Prop :=
  k' = k ∧ w'.cur i = w.cur i ∧ ∀ p, t.body = .rtask p → (w'.cell t.postedNum).canceled = false

theorem runTask_calls {t t' : Task} {tm tm' : Int} {q : ProcPc} {k k' : List (Frame V)}
    (h : w.runTask i t tm k = some (w', es)) (hcpu : w'.cpu i = .task t' :: .processTasks q tm' :: k') :
    CallsFunctor w w' i k t' k' := by
  have hcur := (runTask_stackStep h).cur i
  simp only [runTask] at h
  split at h
  · split at h
    · obtain ⟨rfl, -⟩ := Prod.mk.inj (Option.some.inj h)
      simp at hcpu
    · next hc =>
      obtain ⟨rfl, -⟩ := Prod.mk.inj (Option.some.inj h)
      obtain ⟨ht, -, hk⟩ : t = t' ∧ _ ∧ k = k' := by simpa using hcpu
      subst ht hk
      exact ⟨rfl, hcur, fun _ _ => Bool.eq_false_iff.2 hc⟩
  · obtain ⟨s, -, he⟩ := Option.map_eq_some_iff.1 h
    obtain ⟨rfl, -⟩ := Prod.mk.inj he
    simp at hcpu
  · next hb =>
    obtain ⟨rfl, -⟩ := Prod.mk.inj (Option.some.inj h)
    obtain ⟨ht, -, hk⟩ : t = t' ∧ _ ∧ k = k' := by simpa using hcpu
    subst ht hk
    exact ⟨rfl, hcur, fun p hp => by rw [hb] at hp; cases hp⟩

theorem loopWith_calls {t t' : Task} {tm' : Int} {q : ProcPc} {k k' : List (Frame V)}
    (h : w.loopWith i t k = some (w', es)) (hcpu : w'.cpu i = .task t' :: .processTasks q tm' :: k')
    (hlen : k'.length = k.length) : CallsFunctor w w' i k t' k' := by
  simp only [loopWith] at h
  split at h
  · obtain ⟨rfl, -⟩ := Prod.mk.inj (Option.some.inj h)
    simp only [setCpu_cpu, if_true] at hcpu
    rw [hcpu, List.length_cons, List.length_cons] at hlen
    omega
  · simp only [Option.bind_eq_bind, Option.bind_eq_some_iff] at h
    obtain ⟨⟨tm, w₁, e₁⟩, hc, ⟨w₂, e₂⟩, hr, he⟩ := h
    obtain ⟨rfl, -⟩ := Prod.mk.inj (Option.some.inj he)
    obtain ⟨hk, hcur, hcan⟩ := runTask_calls hr hcpu
    exact ⟨hk, hcur.trans (checkForTimeouts_cur hc i), hcan⟩

theorem cur_dequeue {t₁ t₂ t₃ : Int} {o : Option Task} {s : ThreadPrivate} (h : (w.thr i).dequeue t₁ t₂ = (o, s)) :
    ((w.setThr i s).setNow t₃).cur i = w.cur i :=
  cur_setThr (w := w) (s := s) (by rw [(dequeue_sched h).current]; rfl) i

/-- `process_tasks` calls a functor in the context that runs. -/
theorem stepProcessTasks_calls {pc q : ProcPc} {tm tm' t₁ t₂ t₃ : Int} {t : Task} {k k' : List (Frame V)}
    (hv : Valid w) (hres : ∀ c, c ≠ w.cur i → ∀ t l, w.myContext i c ≠ .task t :: l)
    (h : w.stepProcessTasks i t₁ t₂ t₃ tm k pc = some (w', es))
    (hcpu : w'.cpu i = .task t :: .processTasks q tm' :: k') (hlen : k'.length = k.length) :
    CallsFunctor w w' i k t k' := by
  have hpop : ∀ {u : World V}, (u.setCpu i k).cpu i = .task t :: .processTasks q tm' :: k' → False := by
    intro u e
    simp only [setCpu_cpu, if_true] at e
    rw [e, List.length_cons, List.length_cons] at hlen
    omega
  have htop : ∀ {u : World V} {f : Frame V}, (∀ t, f ≠ .task t) →
      (u.setCpu i (f :: k)).cpu i = .task t :: .processTasks q tm' :: k' → False := by
    intro u f hf e
    simp only [setCpu_cpu, if_true, List.cons.injEq] at e
    exact hf t e.1
  have hloop : ∀ {s : ThreadPrivate} {t' : Task}, (w.thr i).dequeue t₁ t₂ = (some t', s) →
      ((w.setThr i s).setNow t₃).loopWith i t' k = some (w', es) → CallsFunctor w w' i k t k' := by
    intro s t' hd hl
    obtain ⟨hk, hcur, hcan⟩ := loopWith_calls hl hcpu hlen
    exact ⟨hk, hcur.trans (cur_dequeue hd), hcan⟩
  cases pc with
  | start | lock =>
    simp only [stepProcessTasks, dequeue] at h
    cases hd : (w.thr i).dequeue t₁ t₂ with
    | mk o s =>
      rw [hd] at h
      cases o with
      | some t' => exact hloop hd h
      | none =>
        obtain ⟨rfl, -⟩ := Prod.mk.inj (Option.some.inj h)
        exact (htop (by simp) hcpu).elim
  | top =>
    simp only [stepProcessTasks] at h
    split at h
    · obtain ⟨rfl, -⟩ := Prod.mk.inj (Option.some.inj h)
      exact (hpop hcpu).elim
    · simp only [Option.bind_eq_bind, Option.bind_eq_some_iff] at h
      obtain ⟨⟨tm₁, w₁, e₁⟩, -, he⟩ := h
      obtain ⟨rfl, -⟩ := Prod.mk.inj (Option.some.inj he)
      exact (htop (by simp) hcpu).elim
  | running t' | release t' | sleeping =>
    obtain ⟨rfl, -⟩ := Prod.mk.inj (Option.some.inj h)
    exact (htop (by simp) hcpu).elim
  | again =>
    simp only [stepProcessTasks, dequeue, Option.bind_eq_bind, Option.bind_eq_some_iff] at h
    obtain ⟨⟨tm₁, w₁, e₁⟩, hc, h⟩ := h
    have hcur₁ : w₁.cur i = w.cur i := checkForTimeouts_cur hc i
    dsimp only at h
    cases hd : (w₁.thr i).dequeue t₂ t₃ with
    | mk o s =>
      rw [hd] at h
      cases o with
      | some t' =>
        simp only [Option.bind_eq_some_iff] at h
        obtain ⟨⟨w₂, e₂⟩, hr, he⟩ := h
        obtain ⟨rfl, -⟩ := Prod.mk.inj (Option.some.inj he)
        obtain ⟨hk, hcur, hcan⟩ := runTask_calls hr hcpu
        exact ⟨hk, (hcur.trans (cur_dequeue hd)).trans hcur₁, hcan⟩
      | none =>
        obtain ⟨rfl, -⟩ := Prod.mk.inj (Option.some.inj h)
        exact (htop (by simp) hcpu).elim
  | tests =>
    simp only [stepProcessTasks] at h
    split at h
    · obtain ⟨rfl, -⟩ := Prod.mk.inj (Option.some.inj h)
      exact (hpop hcpu).elim
    · split at h
      · obtain ⟨rfl, -⟩ := Prod.mk.inj (Option.some.inj h)
        exact (htop (by simp) hcpu).elim
      · split at h
        · obtain ⟨rfl, -⟩ := Prod.mk.inj (Option.some.inj h)
          exact (htop (by simp) hcpu).elim
        · -- the thread goes on in another context, or starts one
          rcases startNextTask_lands (w := w.setNow t₃) hv h with e | e | ⟨c, hc, e⟩
          · rw [hcpu] at e
            cases e
          · rw [hcpu] at e
            cases e
          · exact absurd (e.symm.trans hcpu) (hres c hc t _)
  | switched =>
    simp only [stepProcessTasks, dequeue] at h
    split at h
    · obtain ⟨rfl, -⟩ := Prod.mk.inj (Option.some.inj h)
      exact (hpop hcpu).elim
    · cases hd : (w.thr i).dequeue t₁ t₂ with
      | mk o s =>
        rw [hd] at h
        cases o with
        | some t' => exact hloop hd h
        | none =>
          obtain ⟨rfl, -⟩ := Prod.mk.inj (Option.some.inj h)
          exact (htop (by simp) hcpu).elim

end World

/-! ## The log -/

/-- What happens to a task. -/
inductive TaskEvent (V : Type) where
  /-- `future::cancel` marks the task with this number. -/
  | canceled (n : Nat)
  /-- `run()` calls the functor. -/
  | invoked (t : Task)
  /-- The functor returns or throws. -/
  | returned (t : Task) (o : Outcome V)
  deriving DecidableEq, Repr

/-- The event is a call of the functor of the task with the number `n`. -/
def TaskEvent.invokes (n : Nat) : TaskEvent V → Bool
  | .invoked t => t.postedNum == n
  | _ => false

namespace World

variable {w₀ w w' : World V} {i : ThreadId} {ph ph' : Phase} {es : List (Event V)} {a : Action V} {n : Nat}
  {l : List (TaskEvent V)}

/-- The functor that `process_tasks` calls in a step from the stack `k` to the stack `k'`. -/
def invocation (k k' : List (Frame V)) : List (TaskEvent V) :=
  match k, k' with
  | .processTasks _ _ :: k, .task t :: .processTasks _ _ :: k' => if k'.length = k.length then [.invoked t] else []
  | _, _ => []

/-- What a step to `w'` does to tasks. -/
def taskEvents (w : World V) (a : Action V) (w' : World V) : List (TaskEvent V) :=
  match a with
  | .run i _ _ _ => invocation (w.cpu i) (w'.cpu i)
  | .finish i o =>
    match w.cpu i with
    | .task t :: _ => [.returned t o]
    | _ => []
  | .call _ _ (.cancel p) =>
    match (w.prom p).ready, (w.prom p).task with
    | false, some n => [.canceled n]
    | _, _ => []
  | _ => []

/-- A step with the log of what happens to tasks. -/
def stepLogged (s : World V × List (TaskEvent V)) (a : Action V) :
    Option ((World V × List (TaskEvent V)) × List (Event V)) :=
  (s.1.step a).map fun r => ((r.1, s.2 ++ taskEvents s.1 a r.1), r.2)

theorem stepLogged_step {s s' : World V × List (TaskEvent V)} (h : stepLogged s a = some (s', es)) :
    s.1.step a = some (s'.1, es) := by
  obtain ⟨⟨w', e⟩, hw, he⟩ := Option.map_eq_some_iff.1 h
  obtain ⟨rfl, rfl⟩ := Prod.mk.inj he
  exact hw

/-- `future::cancel` marks a task only while it is in a queue. -/
def CancelsQueued (w : World V) (a : Action V) : Prop :=
  ∀ i t p n, a = .call i t (.cancel p) → (w.prom p).ready = false → (w.prom p).task = some n →
    ∃ j, ∃ s ∈ (w.thr j).tasks, s.postedNum = n

/-- The task waits to be run. -/
def Waits (ph : Phase) (w : World V) (t : Task) : Prop := (∃ j, t ∈ (w.thr j).tasks) ∨ ph = .hand t

/-- A task that waits to be run did so before, or it is posted. -/
theorem Move.waits_from (hm : Move w₀ i ph w ph' w' es) (hq : NoQuit es) {t : Task} (h : Waits ph' w' t) :
    Waits ph w t ∨ ∃ j, Posts w w' i j es t := by
  rcases h with ⟨j, ht⟩ | rfl
  · rcases hm.tasks hq j with hp | ⟨-, s, -, hp⟩ | ⟨s, hp, he⟩
    · exact .inl (.inl ⟨j, hp.symm.subset ht⟩)
    · exact .inl (.inl ⟨j, hp.symm.subset (List.mem_cons_of_mem _ ht)⟩)
    · rw [he] at ht
      rcases List.mem_cons.1 ht with rfl | ht
      · exact .inr ⟨j, hp⟩
      · exact .inl (.inl ⟨j, ht⟩)
  · rcases hm.hand_from with rfl | ht
    · exact .inl (.inr rfl)
    · exact .inl (.inl ⟨i, ht⟩)

theorem Numbered.waits (h : Numbered ph w) {t : Task} (ht : Waits ph w t) : t.postedNum ≤ w.taskCount := by
  rcases ht with ⟨j, ht⟩ | ht
  · exact h.queues j t ht
  · exact h.hand t ht

/-- No place holds a task with a number that was not given out. -/
theorem Numbered.held_zero (h : Numbered ph w) (hn : w.taskCount < n) (x : Place) :
    held (fun t => t.postedNum == n) ph w x = 0 := by
  cases x with
  | queue j =>
    refine List.countP_eq_zero.2 (fun t ht e => ?_)
    have := h.queues j t ht
    simp at e
    omega
  | hand =>
    simp only [held]
    split
    · next t =>
      refine if_neg (fun e => ?_)
      have := h.hand t rfl
      simp at e
      omega
    · rfl
  | stack j c =>
    refine List.countP_eq_zero.2 (fun f hf e => ?_)
    cases f with
    | task t =>
      have := h.frames j c t _ hf rfl
      simp [Frame.functor] at e
      omega
    | _ => cases e

/-- What is known of the task with the number `n`: nobody runs it while it waits, it does not wait any more once
its functor has been called, and it stays marked. -/
structure Once (n : Nat) (l : List (TaskEvent V)) (ph : Phase) (w : World V) : Prop where
  sole : AtMostOne (held (fun t => t.postedNum == n) ph w)
  idle : ∀ t, Waits ph w t → t.postedNum = n → (w.cell n).activeContext = none
  gone : ∀ t, .invoked t ∈ l → t.postedNum = n → n ≤ w.taskCount ∧ ∀ s, Waits ph w s → s.postedNum ≠ n
  marked : .canceled n ∈ l → n ≤ w.taskCount ∧ (w.cell n).canceled = true

theorem Move.once (hm : Move w₀ i ph w ph' w' es) (hq : NoQuit es) (hr : TasksRun ph w i) (h : Once n l ph w) :
    Once n l ph' w' where
  sole := by
    refine hm.sole hq hr.sane.valid (fun j t hp ht => hr.numbered.held_zero ?_) h.sole
    have : t.postedNum = n := by simpa using ht
    have := hp.1
    omega
  idle := by
    intro t ht hn
    rcases (hm.cell_cases hq n).2 with he | he | ⟨s, tm, rfl, hs, -, -, -, rfl⟩
    · exact he
    · rw [he]
      rcases hm.waits_from hq ht with ht | ⟨j, hp⟩
      · exact h.idle t ht hn
      · -- a number that was not given out has no active context
        cases hact : (w.cell n).activeContext with
        | none => rfl
        | some jc =>
          have := (hr.active n jc.1 jc.2 hact).1
          have := hp.1
          omega
    · -- the task in hand is started: no other one has its number
      have hle := hr.numbered.hand s rfl
      have hhand : held (fun t => t.postedNum == n) (.hand s) w .hand ≠ 0 := by simp [held, hs]
      rcases ht with ⟨j, ht⟩ | ht
      · have hmem : t ∈ (w.thr j).tasks := by
          rcases hm.tasks hq j with hp | ⟨-, s, -, hp⟩ | ⟨s, hp, he⟩
          · exact hp.symm.subset ht
          · exact hp.symm.subset (List.mem_cons_of_mem _ ht)
          · rw [he] at ht
            rcases List.mem_cons.1 ht with rfl | ht
            · have := hp.1
              omega
            · exact ht
        have hqueue : held (fun t => t.postedNum == n) (.hand s) w (.queue j) ≠ 0 := by
          simp only [held]
          exact Nat.pos_iff_ne_zero.1 (List.countP_pos_iff.2 ⟨t, hmem, by simpa using hn⟩)
        cases h.sole.2 _ _ hqueue hhand
      · cases ht
  gone := by
    intro t ht hn
    obtain ⟨hle, hno⟩ := h.gone t ht hn
    refine ⟨Nat.le_trans hle (hm.taskCount_le hq), fun s hs hsn => ?_⟩
    rcases hm.waits_from hq hs with hs | ⟨j, hp⟩
    · exact hno s hs hsn
    · have := hp.1
      omega
  marked := by
    intro hc
    obtain ⟨hle, hcell⟩ := h.marked hc
    exact ⟨Nat.le_trans hle (hm.taskCount_le hq), (hm.cell_cases hq n).1 hle hcell⟩

/-- A functor with the number `n` that has been called is not called again in the step. -/
theorem Moves.functors_kept (hm : Moves w₀ i ph w ph' w' es) (hq : NoQuit es) (hone : OneTimed w₀)
    (ho : Orderly ph w i) (h : Once n l ph w) :
    Once n l ph' w' ∧ ∀ t, .invoked t ∈ l → t.postedNum = n → ∀ j c,
      held (fun t => t.postedNum == n) ph' w' (.stack j c) ≤ held (fun t => t.postedNum == n) ph w (.stack j c) := by
  have hI :=
    hm.inv (fun ph' w' => Orderly ph' w' i ∧ Once n l ph' w' ∧ ∀ t, .invoked t ∈ l → t.postedNum = n → ∀ j c,
      held (fun t => t.postedNum == n) ph' w' (.stack j c) ≤ held (fun t => t.postedNum == n) ph w (.stack j c))
    (fun ph₁ w₁ ph₂ w₂ e hm he ⟨ho, h, hle⟩ => ?_) ⟨ho, h, fun _ _ _ _ _ => Nat.le_refl _⟩
  · exact hI.2
  · have hq' : NoQuit e := fun j hj => hq j (he _ hj)
    refine ⟨hm.orderly hq' hone ho, hm.once hq' ho.tasks h, fun t ht hn j c => Nat.le_trans ?_ (hle t ht hn j c)⟩
    -- the hand holds no task with this number
    have hhand : held (fun t => t.postedNum == n) ph₁ w₁ .hand = 0 := by
      cases ph₁ with
      | hand s => exact if_neg (fun e => (h.gone t ht hn).2 s (.inr rfl) (by simpa using e))
      | _ => rfl
    have := hm.stack_functors (P := fun t => t.postedNum == n) ho.sane.valid j c
    rwa [hhand, Nat.zero_sub, ite_self, Nat.add_zero] at this

theorem mem_invocation {k k' : List (Frame V)} {x : TaskEvent V} (h : x ∈ invocation k k') :
    ∃ t pc tm l q tm' l', x = .invoked t ∧ k = .processTasks pc tm :: l ∧
    k' = .task t :: .processTasks q tm' :: l' ∧
      l'.length = l.length ∧ invocation k k' = [.invoked t] := by
  unfold invocation at h ⊢
  split at h
  · split at h
    · next hl => exact ⟨_, _, _, _, _, _, _, List.mem_singleton.1 h, rfl, rfl, hl, by simp [hl]⟩
    · cases h
  · cases h

/-- The log after a step. -/
theorem taskEvents_cases (hs : w.step a = some (w', es)) :
    taskEvents w a w' = [] ∨
    (∃ i t₁ t₂ t₃ t pc tm k q tm' k', a = .run i t₁ t₂ t₃ ∧ w.cpu i = .processTasks pc tm :: k ∧
      w'.cpu i = .task t :: .processTasks q tm' :: k' ∧ k'.length = k.length ∧ taskEvents w a w' = [.invoked t]) ∨
    (∃ i o t k, a = .finish i o ∧ w.cpu i = .task t :: k ∧ taskEvents w a w' = [.returned t o]) ∨
    (∃ i t p n, a = .call i t (.cancel p) ∧ (w.prom p).ready = false ∧ (w.prom p).task = some n ∧
      w' = w.cancelTask n ∧ taskEvents w a w' = [.canceled n]) := by
  cases a with
  | tick t => exact .inl rfl
  | contend i t => exact .inl rfl
  | run i t₁ t₂ t₃ =>
    cases hi : invocation (w.cpu i) (w'.cpu i) with
    | nil => exact .inl hi
    | cons x xs =>
      obtain ⟨t, pc, tm, k, q, tm', k', -, hk, hk', hlen, he⟩ := mem_invocation (x := x) (by rw [hi]; simp)
      exact .inr (.inl ⟨i, t₁, t₂, t₃, t, pc, tm, k, q, tm', k', rfl, hk, hk', hlen, he⟩)
  | finish i o =>
    simp only [step] at hs
    split at hs
    · next t k hk => exact .inr (.inr (.inl ⟨i, o, t, k, rfl, hk, by simp [taskEvents, hk]⟩))
    · cases hs
  | call i t c =>
    cases c with
    | cancel p =>
      simp only [step] at hs
      cases hr : (w.prom p).ready with
      | true => exact .inl (by simp [taskEvents, hr])
      | false =>
        cases ht : (w.prom p).task with
        | none => exact .inl (by simp [taskEvents, hr, ht])
        | some n =>
          refine .inr (.inr (.inr ⟨i, t, p, n, rfl, hr, ht, ?_, by simp [taskEvents, hr, ht]⟩))
          have hc : ∀ {k}, w.stepCall i t k (.cancel p) = some (w', es) → w' = w.cancelTask n := by
            intro k hc
            simp only [stepCall, hr, ht] at hc
            split at hc
            · exact (Prod.mk.inj (Option.some.inj hc)).1.symm
            · cases hc
          split at hs
          · split at hs
            · exact hc hs
            · exact hc hs
            · cases hs
          · cases hs
    | _ => exact .inl rfl

/-- What holds of the log between steps. -/
structure Functors (l : List (TaskEvent V)) (w : World V) : Prop where
  orderly : ∀ i, Orderly .start w i
  once : ∀ n, Once n l .start w
  marks : ∀ n, (w.cell n).canceled = true → .canceled n ∈ l
  unmarked : ∀ j c, ((w.thr j).ctx c).canceled = false
  count : ∀ n, l.countP (TaskEvent.invokes n) ≤ 1
  apart : ∀ t p, t.body = .rtask p → .invoked t ∈ l → .canceled t.postedNum ∉ l

theorem Once.start (h : Once n l .out w) : Once n l .start w :=
  ⟨h.sole, fun t ht => h.idle t (ht.imp_right (by simp)),
    fun t ht hn => ⟨(h.gone t ht hn).1, fun s hs => (h.gone t ht hn).2 s (hs.imp_right (by simp))⟩, h.marked⟩

theorem cancelTask_contexts (hact : (w.cell n).activeContext = none) : (w.cancelTask n).thr = w.thr := by
  simp [cancelTask, hact, modCell]

theorem cancelTask_cell {m : Nat} (hne : m ≠ n) : (w.cancelTask n).cell m = w.cell m := by
  simp only [cancelTask]
  split <;> simp [modCell, setThr, hne]

theorem cancelTask_canceled (w : World V) (n : Nat) : ((w.cancelTask n).cell n).canceled = true := by
  simp only [cancelTask]
  split <;> simp [modCell, setThr]

/-- No mark is set on a context. -/
theorem Functors.unmarked_step (h : Functors l w) (hs : w.step a = some (w', es)) (hq : NoQuit es)
    (hc : CancelsQueued w a) (j : ThreadId) (c : CtxId) : ((w'.thr j).ctx c).canceled = false := by
  rcases step_quiet hs hq with hquiet | ⟨i, t, p, n, rfl, hr, ht, rfl⟩
  · cases hx : ((w'.thr j).ctx c).canceled with
    | false => rfl
    | true =>
      have := hquiet.contexts j c hx
      rw [h.unmarked j c] at this
      cases this
  · obtain ⟨j', s, hs', hn⟩ := hc i t p n rfl hr ht
    rw [cancelTask_contexts ((h.once n).idle s (.inl ⟨j', hs'⟩) hn)]
    exact h.unmarked j c

/-- Tasks are marked by `future::cancel` only. -/
theorem Functors.marks_step (h : Functors l w) (hs : w.step a = some (w', es)) (hq : NoQuit es)
    (hn : (w'.cell n).canceled = true) : .canceled n ∈ l ++ taskEvents w a w' := by
  rcases step_quiet hs hq with hquiet | ⟨i, t, p, m, rfl, hr, ht, rfl⟩
  · exact List.mem_append_left _ (h.marks n (hquiet.tasks n hn))
  · by_cases hnm : n = m
    · subst hnm
      exact List.mem_append_right _ (by simp [taskEvents, hr, ht])
    · rw [cancelTask_cell hnm] at hn
      exact List.mem_append_left _ (h.marks n hn)

/-- The task whose functor is called was not called before, and is not cancelled if it has a future. -/
theorem Functors.calls (h : Functors l w) {i : ThreadId} {t₁ t₂ t₃ tm tm' : Int} {t : Task} {pc q : ProcPc}
    {k k' : List (Frame V)} (hs : w.step (.run i t₁ t₂ t₃) = some (w', es)) (hq : NoQuit es) (hone : OneTimed w)
    (hcpu : w.cpu i = .processTasks pc tm :: k) (hcpu' : w'.cpu i = .task t :: .processTasks q tm' :: k')
    (hlen : k'.length = k.length) :
    (∀ s, .invoked s ∈ l → s.postedNum ≠ t.postedNum) ∧ ∀ p, t.body = .rtask p → .canceled t.postedNum ∉ l := by
  have ho := h.orderly i
  obtain ⟨hk, hcur, hcan⟩ : CallsFunctor w w' i k t k' := by
    have hs' := hs
    simp only [step] at hs'
    split at hs'
    · simp only [stepRun, hcpu] at hs'
      refine stepProcessTasks_calls ho.sane.valid (fun c hc s l e => ?_) hs' hcpu' hlen
      have hst : w.stack i c = .task s :: l := (if_neg hc).trans e
      rcases ho.resume i c hc with hr | hr <;> (rw [hst] at hr; cases hr)
    · cases hs'
  obtain ⟨honce, hkept⟩ := (step_moves hs).functors_kept hq hone ho (h.once t.postedNum)
  refine ⟨fun s hin hsn => ?_, fun p hp hc => ?_⟩
  · have hle := hkept s hin hsn i (w.cur i)
    simp only [held] at hle
    rw [← hcur, stack_cur, hcpu', hcur, stack_cur, hcpu, hk, List.countP_cons_of_pos (by simp [Frame.functor]),
      List.countP_cons_of_neg (by simp [Frame.functor]), List.countP_cons_of_neg (by simp [Frame.functor])] at hle
    omega
  · have := (honce.marked hc).2
    rw [hcan p hp] at this
    cases this

/-- After its call a task waits no more. -/
theorem Once.called (h : Once n l .out w) (hr : Numbered .out w) {t : Task} (hn : t.postedNum = n)
    {k : List (Frame V)} (hcpu : w.cpu i = .task t :: k) : n ≤ w.taskCount ∧ ∀ s, Waits .out w s →
    s.postedNum ≠ n := by
  have hmem : Frame.task t ∈ w.stack i (w.cur i) := by
    rw [stack_cur, hcpu]
    exact List.mem_cons_self
  refine ⟨hn ▸ hr.frames i (w.cur i) t _ hmem rfl, fun s hs hsn => ?_⟩
  have hstack : held (fun t => t.postedNum == n) .out w (.stack i (w.cur i)) ≠ 0 :=
    Nat.pos_iff_ne_zero.1 (List.countP_pos_iff.2 ⟨_, hmem, by simpa [Frame.functor] using hn⟩)
  rcases hs with ⟨j, hs⟩ | hs
  · have hqueue : held (fun t => t.postedNum == n) .out w (.queue j) ≠ 0 :=
      Nat.pos_iff_ne_zero.1 (List.countP_pos_iff.2 ⟨s, hs, by simpa using hsn⟩)
    cases h.sole.2 _ _ hstack hqueue
  · cases hs

theorem Functors.once_step (h : Functors l w) (hs : w.step a = some (w', es)) (hq : NoQuit es) (hone : OneTimed w)
    (hc : CancelsQueued w a) (n : Nat) : Once n (l ++ taskEvents w a w') .out w' := by
  have ho := h.orderly a.thread
  have h' : Once n l .out w' := ((step_moves hs).functors_kept hq hone ho (h.once n)).1
  have hnum : Numbered .out w' := ((step_moves hs).inv (fun ph w => Orderly ph w a.thread)
    (fun _ _ _ _ _ hm he => hm.orderly (fun j hj => hq j (he _ hj)) hone) ho).tasks.numbered
  refine ⟨h'.sole, h'.idle, fun t ht hn => ?_, fun hcn => ?_⟩
  · rcases List.mem_append.1 ht with ht | ht
    · exact h'.gone t ht hn
    · rcases taskEvents_cases hs with he | ⟨i, t₁, t₂, t₃, s, pc, tm, k, q, tm', k', rfl, -, hk', -, he⟩ |
        ⟨i, o, s, k, rfl, -, he⟩ | ⟨i, t', p, m, rfl, -, -, -, he⟩ <;> rw [he] at ht
      · cases ht
      · obtain rfl : t = s := by simpa using ht
        exact h'.called hnum hn hk'
      · simp at ht
      · simp at ht
  · rcases List.mem_append.1 hcn with hcn | hcn
    · exact h'.marked hcn
    · rcases taskEvents_cases hs with he | ⟨i, t₁, t₂, t₃, s, pc, tm, k, q, tm', k', rfl, -, -, -, he⟩ |
        ⟨i, o, s, k, rfl, -, he⟩ | ⟨i, t', p, m, rfl, hr, ht, rfl, he⟩ <;> rw [he] at hcn
      · cases hcn
      · simp at hcn
      · simp at hcn
      · obtain rfl : n = m := by simpa using hcn
        obtain ⟨j, s, hs', hn⟩ := hc i t' p n rfl hr ht
        refine ⟨?_, cancelTask_canceled w n⟩
        have hle := ho.tasks.numbered.queues j s hs'
        have : (w.cancelTask n).taskCount = w.taskCount := by
          simp only [cancelTask]
          split <;> rfl
        omega

/-- The calls in the log after a step. -/
theorem Functors.count_step (h : Functors l w) (hs : w.step a = some (w', es)) (hq : NoQuit es) (hone : OneTimed w)
    (hc : CancelsQueued w a) : (∀ n, (l ++ taskEvents w a w').countP (TaskEvent.invokes n) ≤ 1) ∧
      ∀ t p, t.body = .rtask p → .invoked t ∈ l ++ taskEvents w a w' →
      .canceled t.postedNum ∉ l ++ taskEvents w a w' := by
  rcases taskEvents_cases hs with he | ⟨i, t₁, t₂, t₃, t, pc, tm, k, q, tm', k', rfl, hk, hk', hlen, he⟩ |
    ⟨i, o, s, k, rfl, -, he⟩ | ⟨i, t', p, m, rfl, hr, ht, rfl, he⟩ <;> rw [he]
  · rw [List.append_nil]
    exact ⟨h.count, h.apart⟩
  · obtain ⟨hnew, hcan⟩ := h.calls hs hq hone hk hk' hlen
    refine ⟨fun n => ?_, fun s p hb hin => ?_⟩
    · rw [List.countP_append]
      by_cases hn : t.postedNum = n
      · have h0 : l.countP (TaskEvent.invokes n) = 0 := by
          refine List.countP_eq_zero.2 (fun x hx e => ?_)
          cases x with
          | invoked s => exact hnew s hx (by rw [hn]; simpa [TaskEvent.invokes] using e)
          | _ => cases e
        rw [h0]
        simp [TaskEvent.invokes, hn]
      · simpa [TaskEvent.invokes, hn] using h.count n
    · have hin : .invoked s ∈ l ∨ s = t := by simpa using hin
      rw [List.mem_append]
      rintro (hc | hc)
      · rcases hin with hin | rfl
        · exact h.apart s p hb hin hc
        · exact hcan p hb hc
      · simp at hc
  · refine ⟨fun n => ?_, fun t p hb hin => ?_⟩
    · simpa [List.countP_append, TaskEvent.invokes] using h.count n
    · have hin : .invoked t ∈ l := by simpa using hin
      simpa using h.apart t p hb hin
  · refine ⟨fun n => ?_, fun t p' hb hin => ?_⟩
    · simpa [List.countP_append, TaskEvent.invokes] using h.count n
    · have hin' : .invoked t ∈ l := by simpa using hin
      rw [List.mem_append]
      rintro (hcm | hcm)
      · exact h.apart t p' hb hin' hcm
      · -- a task whose functor was called is in no queue
        obtain rfl : t.postedNum = m := by simpa using hcm
        obtain ⟨j, s, hs', hn⟩ := hc i t' p _ rfl hr ht
        exact ((h.once _).gone t hin' rfl).2 s (.inl ⟨j, hs'⟩) hn

theorem Functors.step (h : Functors l w) (hs : w.step a = some (w', es)) (hq : NoQuit es) (hone : OneTimed w)
    (hc : CancelsQueued w a) : Functors (l ++ taskEvents w a w') w' where
  orderly := orderly_step h.orderly hs hq hone
  once := fun n => (h.once_step hs hq hone hc n).start
  marks := fun _ hn => h.marks_step hs hq hn
  unmarked := h.unmarked_step hs hq hc
  count := (h.count_step hs hq hone hc).1
  apart := (h.count_step hs hq hone hc).2

theorem heldBy_init {P : Task → Bool} {F : Frame V → Bool} (hF : F .user = false) (x : Place) :
    heldBy P F .start (init : World V) x = 0 := by
  cases x with
  | queue j => rfl
  | hand => rfl
  | stack j c =>
    have hstack : (init : World V).stack j c = if c = 0 then [.user] else [] := rfl
    simp only [heldBy, hstack]
    by_cases hc : c = 0 <;> simp [hc, hF]

theorem held_init (P : Task → Bool) (x : Place) : held P .start (init : World V) x = 0 := heldBy_init rfl x

theorem waits_init {t : Task} : ¬ Waits .start (init : World V) t := by
  rintro (⟨j, h⟩ | h) <;> cases h

theorem functors_init : Functors [] (init : World V) where
  orderly := orderly_init
  once := fun n => ⟨AtMostOne.zero (held_init _), fun t ht => absurd ht waits_init, by simp, by simp⟩
  marks := by intro n h; cases h
  unmarked := fun _ _ => rfl
  count := by simp
  apart := by simp

end World

end BoostCmt
