import BoostCmt.Shapes
/-!
# What a thread leaves unfinished when it quits

A run is kept together with a log of the futures whose tasks were posted to a thread
that had not quit. Such a task waits in the queues of its thread, or `process_tasks`
holds it, or it is inside `run()`; from there it goes on until its promise is settled.
`process_tasks` leaves its loop when `done` is set, whatever there is.
-/

namespace BoostCmt

open ThreadPrivate Runs

variable {V : Type}

namespace World

variable {w₀ w w' : World V} {i j : ThreadId} {ph ph' : Phase} {es es₀ es' : List (Event V)} {a : Action V}
    {p : PromId}
  {l : List (ThreadId × PromId)}

/-! ## Settled promises -/

/-- `set_value` or `set_exception` has returned. -/
def Settled (p : PromId) (es : List (Event V)) : Prop := ∃ o, .setDone p o ∈ es

theorem Settled.append (h : Settled p es₀) (es : List (Event V)) : Settled p (es₀ ++ es) :=
  h.imp fun _ => List.mem_append_left es

/-- The call of `process_tasks` in `k` is inside the `run()` of the `rtask` of `p`. -/
def Runs (p : PromId) (k : List (Frame V)) : Prop :=
  ∃ t tm, Frame.processTasks (.running t) tm ∈ k ∧ t.body = .rtask p

/-- What a frame that stands on a call of `run()` is. -/
theorem Nested.above_running {f : Frame V} {t : Task} {tm : Int} {k : List (Frame V)}
    (h : Nested (f :: .processTasks (.running t) tm :: k)) :
    f = .task t ∨ ∃ pc q o b, f = .set pc q o b ∧ t.body = .rtask q := by
  have hs := (List.isChain_cons.1 h).1 _ rfl
  cases f with
  | task t' =>
    obtain rfl : t' = t := hs
    exact .inl rfl
  | set pc q o b => exact .inr ⟨pc, q, o, b, rfl, hs⟩
  | yield => rcases hs with hs | hs <;> cases hs
  | _ => cases hs

/-- The unwinding of a contended lock does not leave `run()` of an `rtask`. -/
theorem unwind_running_top {k k' : List (Frame V)} {t : Task} {tm : Int} (h : Nested (.yield :: k))
    (he : (unwind i k).1 = .processTasks (.running t) tm :: k') : False := by
  unfold unwind at he
  split at he
  · obtain rfl := he
    rcases h.tail.above_running with e | ⟨_, _, _, _, e, -⟩ <;> cases e
  · cases he
  · next hne =>
    obtain rfl := he
    -- the lock that was contended is that of the store
    rcases (List.isChain_cons.1 h).1 _ rfl with hs | hs
    · cases hs
    · unfold locks at hs
      split at hs
      · next e => cases e
      · next e => cases e
      · next e => cases e; exact hne _ _ _ rfl rfl
      · cases hs
  · obtain rfl := he
    rcases h.above_running with e | ⟨_, _, _, _, e, -⟩ <;> cases e

/-- When the settling call has returned to `run()`, the promise is settled. -/
theorem Local.running_top {k k₁ k' : List (Frame V)} {t : Task} {tm : Int} (hl : Local w i k k₁ es)
    (he : k₁ = .processTasks (.running t) tm :: k') (h : Nested k) (hb : t.body = .rtask p) : Settled p es := by
  have habove : ∀ {f : Frame V}, Nested (f :: .processTasks (.running t) tm :: k') → (∀ s, f ≠ .task s) →
      (∀ pc q o b, f ≠ .set pc q o b) → Settled p es := fun h ht hs => by
    rcases h.above_running with e | ⟨_, _, _, _, e, -⟩
    · exact absurd e (ht _)
    · exact absurd e (hs _ _ _ _)
  have hset : ∀ {pc : SetPc} {q : PromId} {o : Outcome V} {b : Bool},
      Nested (.set pc q o b :: .processTasks (.running t) tm :: k') → es = [.setDone q o] → Settled p es :=
        fun h he => by
    rcases h.above_running with e | ⟨_, _, _, _, e, hq⟩
    · cases e
    · cases e
      obtain rfl : p = _ := TaskBody.rtask.inj (hb.symm.trans hq)
      exact ⟨_, by rw [he]; exact List.mem_singleton_self _⟩
  cases hl with
  | finishTask hne =>
    subst he
    rcases h.above_running with e | ⟨_, _, _, _, e, -⟩ <;> cases e
    exact absurd hb (hne p)
  | drop | notifyNone => exact hset (he ▸ h) rfl
  | raiseYield => exact (unwind_running_top h he).elim
  | callWait | callSet | callExec | startYield | finishSet | again | toLock | toSwitch | wakeup | isReady | notReady
  | notifyRead => cases he
  | _ => exact habove (he ▸ h) (by simp) (by simp)

theorem Move.running_top (hm : Move w₀ i ph w ph' w' es) (hsw : ∀ r, w' ≠ w.switch i r (w.cpu i))
    (hhand : InHand ph w i)
    (hn : Nested (w.cpu i)) {t : Task} {tm : Int} {k : List (Frame V)} (hk : w'.cpu i = .processTasks (.running t) tm :: k)
    (hb : t.body = .rtask p) : w'.cpu i = w.cpu i ∨ Settled p es := by
  -- a call that returns to `run()` has settled the promise, and no other one does
  have hpop : ∀ {f : Frame V}, w.cpu i = f :: w'.cpu i → (∀ s, f ≠ .task s) → (∀ pc q o b, f ≠ .set pc q o b) →
      w'.cpu i = w.cpu i ∨ Settled p es := fun he ht hs => by
    rw [he, hk] at hn
    rcases hn.above_running with e | ⟨_, _, _, _, e, -⟩
    · exact absurd e (ht _)
    · exact absurd e (hs _ _ _ _)
  cases hm with
  | stackTop _ hl =>
    rw [setCpu_cpu, if_pos rfl] at hk
    exact .inr (hl.running_top hk hn hb)
  | switch | reschedule => exact absurd rfl (hsw _)
  | post _ hcpu =>
    rw [setCpu_cpu, if_pos rfl] at hk
    rw [hcpu, hk] at hn
    rcases hn.above_running with e | ⟨_, _, _, _, e, hq⟩
    · cases e
    · cases e
      obtain rfl : p = _ := TaskBody.rtask.inj (hb.symm.trans hq)
      exact .inr ⟨_, List.mem_singleton_self _⟩
  | runTask _ hr =>
    rcases runTask_cpu hr with ⟨q, -, -, e⟩ | ⟨-, e⟩ | ⟨q, hq, -, e⟩ <;> rw [e] at hk <;> cases hk
    rw [hb] at hq
    cases hq
  | check hcpu hpc =>
    rw [setCpu_cpu, if_pos rfl] at hk
    cases hk
    rcases hpc with ⟨-, -, e⟩ | ⟨rfl, ⟨-, e⟩ | ⟨t', rfl⟩⟩
    · cases e
    · cases e
    · exact absurd rfl (hhand.not_running hcpu)
  | drain hcpu hpc =>
    rw [setCpu_cpu, if_pos rfl] at hk
    cases hk
    rcases hpc with ⟨-, e, -⟩ | ⟨-, e, -⟩ | ⟨-, e, -⟩ | ⟨-, e, -⟩ <;> cases e
  | abandon hcpu | finishError _ hcpu | resumeSleep hcpu =>
    exact hpop (by simpa using hcpu) (by simp) (by simp)
  | sync | sleepOn | waitOn | ran | release | enqueueThread | resumeWait | storeValue | storeError =>
    rw [setCpu_cpu, if_pos rfl] at hk
    cases hk
  | cancel => exact .inl (by simp only [cancelTask]; split <;> rfl)
  | quit hx => exact .inl (by rw [(quit_stacks hx).2.1])
  | expireWait _ _ _ _ hx => exact .inl (by rw [(setException_frame hx).cpu]; rfl)
  | _ => exact .inl rfl

/-- What is known of calls of `run()` in the middle of a step: one that nothing stands on any more has settled its
promise. -/
structure Tended (es : List (Event V)) (ph : Phase) (w : World V) (i : ThreadId) : Prop where
  sane : Sane w
  nested : ∀ j c, Nested (w.stack j c)
  inHand : InHand ph w i
  top : ∀ j c t tm k p, w.stack j c = .processTasks (.running t) tm :: k → t.body = .rtask p → Settled p es

theorem Move.tended (hm : Move w₀ i ph w ph' w' es) (h : Tended es₀ ph w i) : Tended (es₀ ++ es) ph' w' i := by
  refine ⟨hm.sane h.sane, hm.nested h.sane.valid h.nested, hm.inHand h.inHand, fun j c t tm k p hk hb => ?_⟩
  have hsame : w'.stack j c = w.stack j c → Settled p (es₀ ++ es) := fun e =>
    (h.top j c t tm k p (e ▸ hk) hb).append es
  by_cases hsw : ∃ r, w' = w.switch i r (w.cpu i)
  · obtain ⟨r, rfl⟩ := hsw
    rcases stack_switch h.sane.valid r j c with e | ⟨-, -, -, -, e⟩
    · exact hsame e
    · rw [e] at hk
      cases hk
  · have hst := ((hm.stackStep h.sane.valid).resolve_right hsw).stack j c
    split at hst
    · next hjc =>
      obtain ⟨rfl, rfl⟩ := hjc
      have hn := h.nested j (w.cur j)
      rw [stack_cur] at hn
      rcases hm.running_top (fun r e => hsw ⟨r, e⟩) h.inHand hn (hst ▸ hk) hb with e | ⟨o, ho⟩
      · exact hsame (by rw [hst, e, stack_cur])
      · exact ⟨o, List.mem_append_right _ ho⟩
    · exact hsame hst

theorem Tended.start (h : Tended es .out w i) (j : ThreadId) : Tended es .start w j :=
  ⟨h.sane, h.nested, by simp [InHand], h.top⟩

theorem Tended.step (h : Tended es₀ .start w i) (hi : i = a.thread) (hs : w.step a = some (w', es)) :
    Tended (es₀ ++ es) .out w' i := by
  subst hi
  exact (step_moves hs).inv_events es₀ (fun es ph w => Tended es ph w a.thread)
    (fun _ _ _ _ _ _ hm _ h => hm.tended h) h

theorem tended_init (i : ThreadId) : Tended [] .start (init : World V) i := by
  refine ⟨sane_init, (shaped_init i).nested, by simp [InHand], fun j c t tm k p hk => ?_⟩
  by_cases hc : c = (init : World V).cur j
  · rw [stack, if_pos hc] at hk
    cases hk
  · rw [stack, if_neg hc] at hk
    cases hk

/-! ## Unfinished tasks -/

/-- The `rtask` of `p` is in the queues of thread `i`, or inside `run()` in one of its contexts. -/
def Unfinished (w : World V) (i : ThreadId) (p : PromId) : Prop :=
  (∃ t ∈ (w.thr i).tasks, t.body = .rtask p) ∨ ∃ c, Runs p (w.stack i c)

/-- The same in the middle of a step of thread `i`, which may hold the task. -/
def UnfinishedIn (ph : Phase) (w : World V) (i j : ThreadId) (p : PromId) : Prop :=
  Unfinished w j p ∨ (j = i ∧ ∃ t, ph = .hand t ∧ t.body = .rtask p)

theorem quitReady_tasks {fuel : Nat} : ∀ {s s' : ThreadPrivate} {c : Option CtxId}, quitReady fuel s c = some s' →
    s'.tasks = s.tasks := by
  induction fuel with
  | zero => intro _ _ _ h; cases h
  | succ fuel ih =>
    intro s s' c h
    cases c with
    | none => obtain rfl := Option.some.inj h; rfl
    | some c => exact (ih h).trans rfl

theorem quitSleep_tasks (l : List CtxId) : ∀ s : ThreadPrivate,
    (l.foldl (fun s c => (s.modCtx c (fun k => { k with canceled := true })).readyPushFront c) s).tasks = s.tasks := by
  induction l with
  | nil => exact fun _ => rfl
  | cons c l ih =>
    intro s
    rw [List.foldl_cons, ih]
    exact (readyPushFront_core (s.modCtx c (fun k => { k with canceled := true })) c).1.tasks

theorem quitBlocked_tasks {fuel : Nat} {c : Option CtxId} (h : quitBlocked i fuel w c = some w') {t : Task}
    (ht : t ∈ (w.thr j).tasks) : t ∈ (w'.thr j).tasks := by
  induction fuel generalizing w c with
  | zero => cases h
  | succ fuel ih =>
    cases c with
    | none => obtain rfl := Option.some.inj h; exact ht
    | some c =>
      simp only [quitBlocked] at h
      split at h
      · cases h
      · simp only [Option.bind_eq_bind, Option.bind_eq_some_iff] at h
        obtain ⟨w₁, h₁, h⟩ := h
        refine ih h ?_
        rcases setException_tasks h₁ j with e | ⟨-, -, -, e⟩ <;> rw [e]
        · exact ht
        · exact List.mem_cons_of_mem _ ht

/-- `quit` leaves the queues alone, but for the `notify` tasks that it posts to other threads. -/
theorem quit_tasks (h : w.quit i = some w') {t : Task} (ht : t ∈ (w.thr j).tasks) : t ∈ (w'.thr j).tasks := by
  simp only [quit, Option.bind_eq_bind, Option.bind_eq_some_iff] at h
  obtain ⟨w₁, h₁, s, hs, he⟩ := h
  obtain rfl := Option.some.inj he
  have ht₁ := quitBlocked_tasks h₁ ht
  rw [setThr_thr]
  split
  · next hj =>
    subst hj
    rw [← quitReady_tasks hs, ← quitSleep_tasks s.sleepPqueue s] at ht₁
    exact ht₁
  · exact ht₁

/-- A task stays in its queue, or `process_tasks` takes it out. -/
theorem Move.queued (hm : Move w₀ i ph w ph' w' es) {t : Task} (ht : t ∈ (w.thr j).tasks) :
    t ∈ (w'.thr j).tasks ∨ (j = i ∧ ph' = .hand t) := by
  rcases hm.quitted_cases with hq | ⟨-, -, -, hq⟩
  · rcases hm.tasks hq j with hp | ⟨rfl, s, hph, hp⟩ | ⟨s, -, he⟩
    · exact .inl (hp.subset ht)
    · rcases List.mem_cons.1 (hp.subset ht) with rfl | ht
      · exact .inr ⟨rfl, hph⟩
      · exact .inl ht
    · exact .inl (by rw [he]; exact List.mem_cons_of_mem _ ht)
  · exact .inl (quit_tasks hq ht)

/-- A task in hand is run, unless `process_tasks` finds `done` set. -/
theorem Move.hand_runs {t : Task} (hm : Move w₀ i (.hand t) w ph' w' es) (hd : ¬ SeesDone w₀ i) :
    ph' = .hand t ∨ ∃ tm, Frame.processTasks (.running t) tm ∈ w'.stack i (w'.cur i) := by
  cases hm with
  | clock | expireSleep | expireWait | check => exact .inl rfl
  | abandon _ _ hd' => exact absurd hd' hd
  | @runTask _ _ _ pc tm k _ hcpu hr =>
    refine .inr ⟨tm, ?_⟩
    rw [stack_cur]
    rcases runTask_cpu hr with ⟨q, -, -, e⟩ | ⟨-, e⟩ | ⟨q, -, -, e⟩ <;> rw [e] <;> simp

/-- An unfinished task stays unfinished until its promise is settled. -/
theorem Move.unfinished (hm : Move w₀ i ph w ph' w' es) (hd : j = i → ¬ SeesDone w₀ i) (h : Tended es₀ ph w i)
    (hu : UnfinishedIn ph w i j p) : UnfinishedIn ph' w' i j p ∨ Settled p es₀ := by
  rcases hu with (⟨t, ht, hb⟩ | ⟨c, t, tm, hf, hb⟩) | ⟨rfl, t, rfl, hb⟩
  · rcases hm.queued ht with ht | ⟨rfl, hph⟩
    · exact .inl (.inl (.inl ⟨t, ht, hb⟩))
    · exact .inl (.inr ⟨rfl, t, hph, hb⟩)
  · rcases hm.running_kept h.sane h.inHand hf with hf | ⟨-, ⟨k, hk, -⟩, -⟩
    · exact .inl (.inl (.inr ⟨c, t, tm, hf, hb⟩))
    · exact .inr (h.top j c t tm k p hk hb)
  · rcases hm.hand_runs (hd rfl) with rfl | ⟨tm, hf⟩
    · exact .inl (.inr ⟨rfl, t, rfl, hb⟩)
    · exact .inl (.inl (.inr ⟨_, t, tm, hf, hb⟩))

/-! ## Leaving the loop -/

/-- `process_tasks` of thread `i`, which has quit, takes the task `t` out of the queues in this step and ends. -/
def Abandons (w : World V) (a : Action V) (i : ThreadId) (t : Task) : Prop :=
  ∃ t₁ t₂ t₃ pc tm k, a = .run i t₁ t₂ t₃ ∧ w.cpu i = .processTasks pc tm :: k ∧
    (pc = .start ∨ pc = .lock ∨ (pc = .switched ∧ w.currentCanceled i = false)) ∧ (w.thr i).done = true ∧
    ((w.thr i).dequeue t₁ t₂).1 = some t

/-- In the step from `w` to `w'` the `process_tasks` of `exec` ends on thread `i`, which has quit. -/
def ExecEnds (w w' : World V) (i : ThreadId) : Prop :=
  (w.thr i).done = true ∧ ∃ pc tm k, w.cpu i = .processTasks pc tm :: k ∧ external k ∧ w'.cpu i = k

/-- Frames below the call of `process_tasks` that goes on. -/
theorem runs_below {pc : ProcPc} {tm : Int} {k : List (Frame V)} {c : CtxId} (hst : StackStep i w w')
    (hcpu : w.cpu i = .processTasks pc tm :: k) (hpc : ∀ t, pc ≠ .running t) (hk : ∀ f ∈ k, f ∈ w'.cpu i)
    (h : Runs p (w.stack i c)) : Runs p (w'.stack i c) := by
  obtain ⟨t, tm', hf, hb⟩ := h
  refine ⟨t, tm', ?_, hb⟩
  rw [hst.stack]
  split
  · next hc =>
    rw [hc.2, stack_cur, hcpu] at hf
    rcases List.mem_cons.1 hf with e | hf
    · simp only [Frame.processTasks.injEq] at e
      exact absurd e.1.symm (hpc t)
    · exact hk _ hf
  · exact hf

/-- An unfinished task that is in no queue after a `dequeue` was returned by it. -/
theorem Unfinished.dequeued {pc : ProcPc} {t₁ t₂ t₃ tm : Int} {k k' : List (Frame V)} {o : Option Task}
    {s : ThreadPrivate}
    (hd : (w.thr i).dequeue t₁ t₂ = (o, s)) (hcpu : w.cpu i = .processTasks pc tm :: k) (hpc : ∀ t, pc ≠ .running t)
    (hk : ∀ f ∈ k, f ∈ k') (h : Unfinished w i p) :
    Unfinished (((w.setThr i s).setNow t₃).setCpu i k') i p ∨ ∃ t, o = some t ∧ t.body = .rtask p := by
  rcases h with ⟨t, ht, hb⟩ | ⟨c, hc⟩
  · rcases List.mem_append.1 ((dequeue_perm hd).2.subset ht) with ho | ht
    · exact .inr ⟨t, Option.mem_toList.1 ho, hb⟩
    · exact .inl (.inl ⟨t, by simpa [setCpu, setNow] using ht, hb⟩)
  · have hcur : ∀ j, (w.setThr i s).cur j = w.cur j := cur_setThr (by rw [(dequeue_sched hd).current]; rfl)
    have hst : StackStep i w (((w.setThr i s).setNow t₃).setCpu i k') :=
      ⟨fun j => hcur j, fun j hj => by rw [setCpu_cpu, if_neg hj]; rfl, rfl⟩
    exact .inl (.inr ⟨c, runs_below hst hcpu hpc (by simpa using hk) hc⟩)

/-- When `process_tasks` is about to see `done`, an unfinished task stays unfinished, or it is abandoned. -/
theorem step_seesDone (hs : w.step a = some (w', es)) (hi : a.thread = i) (hd : SeesDone w i)
    (h : Unfinished w i p) :
    Unfinished w' i p ∨ ∃ t, Abandons w a i t ∧ t.body = .rtask p := by
  obtain ⟨hdone, pc, tm, k, hcpu, hpc⟩ := hd
  cases a with
  | tick t =>
    simp only [step] at hs
    split at hs
    · obtain ⟨rfl, -⟩ := Prod.mk.inj (Option.some.inj hs)
      exact .inl h
    · cases hs
  | call i' t c =>
    obtain rfl : i' = i := hi
    have := (step_call hs).1
    rw [hcpu] at this
    cases this
  | finish i' o =>
    obtain rfl : i' = i := hi
    simp [step, hcpu] at hs
  | contend i' t =>
    obtain rfl : i' = i := hi
    simp [step, hcpu, locks] at hs
  | run i' t₁ t₂ t₃ =>
    obtain rfl : i' = i := hi
    have hrun : w.stepProcessTasks i' t₁ t₂ t₃ tm k pc = some (w', es) := by
      simp only [step, stepRun, hcpu] at hs
      split at hs
      · exact hs
      · cases hs
    have hnr : ∀ t, pc ≠ .running t := by
      rintro t rfl
      rcases hpc with e | e | e <;> cases e
    -- the dequeue, and what is left of the stack
    have hdeq : ∀ {k' : List (Frame V)} {o : Option Task} {s : ThreadPrivate}, (w.thr i').dequeue t₁ t₂ = (o, s) →
        (pc = .start ∨ pc = .lock ∨ (pc = .switched ∧ w.currentCanceled i' = false)) → (∀ f ∈ k, f ∈ k') →
        w' = ((w.setThr i' s).setNow t₃).setCpu i' k' →
        Unfinished w' i' p ∨ ∃ t, Abandons w (.run i' t₁ t₂ t₃) i' t ∧ t.body = .rtask p := by
      intro k' o s hdq hpc' hk he
      subst he
      refine (h.dequeued hdq hcpu hnr hk).imp_right ?_
      rintro ⟨t, ho, hb⟩
      exact ⟨t, ⟨_, _, _, _, _, _, rfl, hcpu, hpc', hdone, by rw [hdq]; exact ho⟩, hb⟩
    have hloop : ∀ {t : Task} {s : ThreadPrivate}, (w.thr i').dequeue t₁ t₂ = (some t, s) →
        ((w.setThr i' s).setNow t₃).loopWith i' t k = some (w', es) →
        w' = ((w.setThr i' s).setNow t₃).setCpu i' k := by
      intro t s hdq hl
      have hd' : (((w.setThr i' s).setNow t₃).thr i').done = true := by
        show ((w.setThr i' s).thr i').done = true
        rw [setThr_thr, if_pos rfl, (dequeue_sched hdq).done, hdone]
      rw [loopWith, if_pos hd'] at hl
      exact (Prod.mk.inj (Option.some.inj hl)).1.symm
    cases hdq : (w.thr i').dequeue t₁ t₂ with
    | mk o s =>
      rcases hpc with rfl | rfl | rfl
      · simp only [stepProcessTasks, dequeue, hdq] at hrun
        cases o with
        | none => exact hdeq hdq (.inl rfl) (fun f hf => List.mem_cons_of_mem _ hf) (Prod.mk.inj (Option.some.inj hrun)).1.symm
        | some t => exact hdeq hdq (.inl rfl) (fun _ hf => hf) (hloop hdq hrun)
      · cases hc : w.currentCanceled i' with
        | true =>
          simp only [stepProcessTasks, hc, if_true] at hrun
          obtain ⟨rfl, -⟩ := Prod.mk.inj (Option.some.inj hrun)
          have hst : StackStep i' w ((w.setNow t₃).setCpu i' k) :=
            ⟨fun _ => rfl, fun j hj => by rw [setCpu_cpu, if_neg hj]; rfl, rfl⟩
          refine .inl (h.imp id ?_)
          rintro ⟨c, hr⟩
          exact ⟨c, runs_below hst hcpu hnr (by simp) hr⟩
        | false =>
          simp only [stepProcessTasks, hc, dequeue, hdq] at hrun
          cases o with
          | none => exact hdeq hdq (.inr (.inr ⟨rfl, hc⟩)) (fun f hf => List.mem_cons_of_mem _ hf) (Prod.mk.inj (Option.some.inj hrun)).1.symm
          | some t => exact hdeq hdq (.inr (.inr ⟨rfl, hc⟩)) (fun _ hf => hf) (hloop hdq hrun)
      · simp only [stepProcessTasks, dequeue, hdq] at hrun
        cases o with
        | none => exact hdeq hdq (.inr (.inl rfl)) (fun f hf => List.mem_cons_of_mem _ hf) (Prod.mk.inj (Option.some.inj hrun)).1.symm
        | some t => exact hdeq hdq (.inr (.inl rfl)) (fun _ hf => hf) (hloop hdq hrun)

/-! ## Runs -/

/-- The future of the `rtask` that a call posts, unless its thread has quit. -/
def posted (w : World V) : Action V → List (ThreadId × PromId)
  | .call _ _ (.async j _ _) => if (w.thr j).done then [] else [(j, w.promCount)]
  | .call _ _ (.sync _ j _ _) => if (w.thr j).done then [] else [(j, w.promCount)]
  | _ => []

/-- A step with the log of what is posted. -/
def stepPosted (s : World V × List (ThreadId × PromId)) (a : Action V) :
    Option ((World V × List (ThreadId × PromId)) × List (Event V)) :=
  (s.1.step a).map fun r => ((r.1, s.2 ++ posted s.1 a), r.2)

theorem mem_async (w : World V) (t : Task) (j : ThreadId) : t ∈ ((w.async j t).thr j).tasks := by
  rw [async_tasks, if_pos rfl]
  exact List.mem_cons_self

/-- What is posted is unfinished. -/
theorem posted_unfinished (hs : w.step a = some (w', es)) (hp : (i, p) ∈ posted w a) : Unfinished w' i p := by
  have hmem : ∀ {j : ThreadId}, (i, p) ∈ (if (w.thr j).done then [] else [(j, w.promCount)]) → i = j ∧
      p = w.promCount := by
    intro j h
    split at h
    · cases h
    · simpa using h
  unfold posted at hp
  split at hp
  · obtain ⟨rfl, rfl⟩ := hmem hp
    obtain ⟨rfl, -⟩ := Prod.mk.inj (Option.some.inj (step_call hs).2)
    exact .inl ⟨_, mem_async _ _ _, rfl⟩
  · next i' t ov j prio d =>
    obtain ⟨rfl, rfl⟩ := hmem hp
    obtain ⟨rfl, -⟩ := Prod.mk.inj (Option.some.inj (step_call hs).2)
    exact .inl ⟨_, mem_async _ _ _, rfl⟩
  · cases hp

/-- `process_tasks` does not leave its loop on `done` with a task in hand, and that of `exec` does not leave it
with an unfinished one; `l` are the tasks that were posted before `quit`. -/
structure LeavesNone (i : ThreadId) (l : List (ThreadId × PromId)) (w : World V) (a : Action V) : Prop where
  abandons : ∀ t p, Abandons w a i t → t.body = .rtask p → (i, p) ∉ l
  ends : ∀ w' e, w.step a = some (w', e) → ExecEnds w w' i → ∀ p, (i, p) ∈ l → ¬ Unfinished w i p

/-- What holds of the log between steps. -/
structure Kept (i : ThreadId) (l : List (ThreadId × PromId)) (es : List (Event V)) (w : World V) : Prop where
  tended : ∀ j, Tended es .start w j
  kept : ∀ p, (i, p) ∈ l → Settled p es ∨ Unfinished w i p

theorem step_unfinished (h : Tended es₀ .start w a.thread) (hs : w.step a = some (w', es))
    (hl : ∀ t, Abandons w a i t → t.body ≠ .rtask p) (hu : Unfinished w i p) :
    Unfinished w' i p ∨ Settled p (es₀ ++ es) := by
  by_cases hd : a.thread = i ∧ SeesDone w i
  · rcases step_seesDone hs hd.1 hd.2 hu with hu | ⟨t, ha, hb⟩
    · exact .inl hu
    · exact absurd hb (hl t ha)
  · have hI := (step_moves hs).inv_events es₀ (fun es ph w => Tended es ph w a.thread ∧
      (UnfinishedIn ph w a.thread i p ∨ Settled p es)) (fun es₁ ph w₁ ph' w₂ e hm _ ⟨ht, hu⟩ => ⟨hm.tended ht, ?_⟩)
      ⟨h, .inl (.inl hu)⟩
    · rcases hI.2 with (hu | ⟨-, t, hph, -⟩) | hset
      · exact .inl hu
      · cases hph
      · exact .inr hset
    · rcases hu with hu | hset
      · have hnot : i = a.thread → ¬ SeesDone w a.thread := fun e hsd => hd ⟨e.symm, e ▸ hsd⟩
        exact (hm.unfinished hnot ht hu).imp id (fun hset => hset.append e)
      · exact .inr (hset.append e)

theorem Kept.step (h : Kept i l es₀ w) (hs : w.step a = some (w', es)) (hl : LeavesNone i l w a) :
    Kept i (l ++ posted w a) (es₀ ++ es) w' := by
  refine ⟨fun j => ((h.tended a.thread).step rfl hs).start j, fun p hp => ?_⟩
  rcases List.mem_append.1 hp with hp | hp
  · rcases h.kept p hp with hset | hu
    · exact .inl (hset.append es)
    · exact (step_unfinished (h.tended a.thread) hs (fun t ha hb => hl.abandons t p ha hb hp) hu).symm
  · exact .inr (posted_unfinished hs hp)

theorem kept_run {s : World V × List (ThreadId × PromId)}
    (h : Run stepPosted (fun _ s a _ => LeavesNone i s.2 s.1 a) (init, []) s es) : Kept i s.2 es s.1 := by
  refine h.inv (fun es s => Kept i s.2 es s.1) ⟨tended_init, by simp⟩ (fun es s a s' e hI hok hs => ?_)
  obtain ⟨⟨w', e'⟩, hw, he⟩ := Option.map_eq_some_iff.1 hs
  obtain ⟨rfl, rfl⟩ := Prod.mk.inj he
  exact hI.step hw hok

theorem stepPosted_step {s s' : World V × List (ThreadId × PromId)} (h : stepPosted s a = some (s', es)) :
    s.1.step a = some (s'.1, es) := by
  obtain ⟨⟨w', e⟩, hw, he⟩ := Option.map_eq_some_iff.1 h
  obtain ⟨rfl, rfl⟩ := Prod.mk.inj he
  exact hw

/-- The check of `LeavesNone`: after `quit` no task of `l` is unfinished. -/
def leavesNoneCheck (i : ThreadId) (l : List (ThreadId × PromId)) (w : World V) : Bool :=
  let lost (t : Task) : Bool := l.any fun x => x.1 == i && t.body == .rtask x.2
  !(w.thr i).done || ((w.thr i).tasks.all fun t => !lost t) &&
    (List.range ((w.thr i).nctx + 1)).all fun c => (w.stack i c).all fun
      | .processTasks (.running t) _ => !lost t
      | _ => true

theorem leavesNoneCheck_sound {N : Nat} (hs : Small N w) (h : leavesNoneCheck i l w = true) (a : Action V) :
    LeavesNone i l w a := by
  have hlost : ∀ {t : Task} {p : PromId}, t.body = .rtask p →
      (l.any fun x => x.1 == i && t.body == .rtask x.2) = false →
      (i, p) ∉ l := by
    intro t p hb hl hp
    simpa [hb] using List.any_eq_false.1 hl _ hp
  simp only [leavesNoneCheck, Bool.or_eq_true, Bool.and_eq_true, Bool.not_eq_true', List.all_eq_true, List.mem_range] at h
  constructor
  · rintro t p ⟨t₁, t₂, t₃, pc, tm, k, -, -, -, hd, hdq⟩ hb
    have hmem : t ∈ (w.thr i).tasks := by
      cases he : (w.thr i).dequeue t₁ t₂ with
      | mk o s =>
        obtain rfl : o = some t := by rw [he] at hdq; exact hdq
        exact (dequeue_perm he).2.symm.subset (by simp)
    obtain ⟨htasks, -⟩ := h.resolve_left (by simp [hd])
    exact hlost hb (htasks t hmem)
  · rintro w' e - ⟨hd, -⟩ p hp hu
    obtain ⟨htasks, hstacks⟩ := h.resolve_left (by simp [hd])
    rcases hu with ⟨t, ht, hb⟩ | ⟨c, t, tm, hf, hb⟩
    · exact hlost hb (htasks t ht) hp
    · have hc := (hs.bound (fun e => by rw [e] at hf; cases hf) (fun e => by rw [e] at hf; simp at hf)).2
      exact hlost hb (by simpa using hstacks c hc _ hf) hp

end World

end BoostCmt
