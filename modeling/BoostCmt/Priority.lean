import Mathlib.Logic.Relation
import BoostCmt.Stacks
/-!
# Priorities are not inherited

`current_priority` reads `prio` of the running context, and `async<T>`, `schedule`
and `sync` post with at least that priority. But nothing ever writes `prio` of a
context: `NoPrio` holds in every run. So the current priority is the default one
whatever task runs, and a task passes its priority on exactly when it has no more
than the default.
-/

namespace BoostCmt

open ThreadPrivate Runs

variable {V : Type}

/-- Every context has the default priority. -/
def NoPrio (s : ThreadPrivate) : Prop := ∀ c, (s.ctx c).prio = 0

namespace NoPrio
variable {s s' : ThreadPrivate}

theorem congr (h : NoPrio s) (hc : s'.ctx = s.ctx) : NoPrio s' := fun c => hc ▸ h c

theorem writeCtx (h : NoPrio s) (c : CtxId) {f : CmtContext → CmtContext}
    (hf : ∀ k : CmtContext, (f k).prio = k.prio) :
    NoPrio (s.modCtx c f) := by
  intro x
  simp only [modCtx_ctx]
  split
  · exact (hf _).trans (h x)
  · exact h x

/-- A change that leaves `prio` alone. -/
theorem writes (h : NoPrio s) (hw : ∀ c, (s'.ctx c).prio = (s.ctx c).prio) : NoPrio s' :=
  fun c => (hw c).trans (h c)

theorem foreign (h : NoPrio s) (hf : Foreign s s') : NoPrio s' := by
  intro c
  obtain ⟨b, hb⟩ := hf.ctx c
  rw [hb]
  exact h c

theorem currentPriority (h : NoPrio s) : s.currentPriority = 0 := by
  unfold ThreadPrivate.currentPriority
  split
  · exact h _
  · rfl

/-! ## The functions of the scheduler -/

theorem pushBack (h : NoPrio s) (c : CtxId) : NoPrio (s.readyPushBack c) := by
  refine h.writes fun x => ?_
  unfold readyPushBack
  split <;> simp only [modCtx] <;> grind

theorem pushFront (h : NoPrio s) (c : CtxId) : NoPrio (s.readyPushFront c) := by
  refine h.writes fun x => ?_
  simp only [readyPushFront, modCtx]
  split <;> rfl

theorem popFront (h : NoPrio s) : NoPrio s.readyPopFront.2 := by
  refine h.writes fun x => ?_
  unfold readyPopFront
  split
  · rfl
  · simp only [modCtx]
    split <;> rfl

theorem newContext (h : NoPrio s) : NoPrio s.newContext.2 := by
  intro c
  simp only [ThreadPrivate.newContext, modCtx_ctx]
  split
  · rfl
  · exact h c

theorem ensureCurrent (h : NoPrio s) : NoPrio s.ensureCurrent.2 := by
  unfold ThreadPrivate.ensureCurrent
  split
  · exact h
  · exact h.newContext.congr rfl

theorem sleepOn (h : NoPrio s) (c : CtxId) (tp : Int) : NoPrio (s.sleepOn c tp) := by
  refine h.writes fun x => ?_
  simp only [ThreadPrivate.sleepOn, sleepPush, modCtx]
  split <;> rfl

theorem waitOn (h : NoPrio s) (c : CtxId) (p : PromId) (d : Int) : NoPrio (s.waitOn c p d) := by
  refine h.writes fun x => ?_
  unfold ThreadPrivate.waitOn
  split <;> simp only [addToBlocked, sleepPush, modCtx] <;> grind

theorem unblock (h : NoPrio s) (prev : Option CtxId) (c : CtxId) : NoPrio (s.unblock prev c) := by
  unfold ThreadPrivate.unblock
  cases prev with
  | some q =>
    refine pushFront (writeCtx (writeCtx h q ?_) c ?_) c <;> exact fun _ => rfl
  | none =>
    refine pushFront (writeCtx (h.congr ?_) c ?_) c
    · rfl
    · exact fun _ => rfl

theorem notifySleep (h : NoPrio s) (p : PromId) : NoPrio (notifySleep p s) := by
  unfold ThreadPrivate.notifySleep
  split
  · split
    · refine h.writes fun x => ?_
      simp only [modCtx]
      split <;> rfl
    · exact h
  · exact h

theorem notify {p : PromId} (h : NoPrio s) (hn : s.notify p = some s') : NoPrio s' := by
  simp only [ThreadPrivate.notify, Option.map_eq_some_iff] at hn
  obtain ⟨u, hu, rfl⟩ := hn
  exact (notifyBlocked_keeps (P := NoPrio) (fun _ prev x hx => hx.unblock prev x) h hu).notifySleep p

theorem quitReady (fuel : Nat) : ∀ {s : ThreadPrivate} {c : Option CtxId}, NoPrio s →
    World.quitReady fuel s c = some s' → NoPrio s' := by
  induction fuel with
  | zero => intro s c _ hq; cases hq
  | succ fuel ih =>
    intro s c h hq
    cases c with
    | none => rwa [← Option.some.inj hq]
    | some c =>
      refine ih (writeCtx h c ?_) hq
      exact fun _ => rfl

theorem quitSleepers (l : List CtxId) (h : NoPrio s) :
    NoPrio (l.foldl (fun s c => (s.modCtx c (fun k => { k with canceled := true })).readyPushFront c) s) := by
  induction l generalizing s with
  | nil => exact h
  | cons c l ih =>
    refine ih (pushFront (writeCtx h c ?_) c)
    exact fun _ => rfl

end NoPrio

theorem sleepPop_ctx (s : ThreadPrivate) : s.sleepPop.ctx = s.ctx := rfl

namespace World

variable {w₀ w w' : World V} {i : ThreadId} {ph ph' : Phase} {es : List (Event V)}

/-- Every context of every thread has the default priority. -/
def AllNoPrio (w : World V) : Prop := ∀ j, NoPrio (w.thr j)

theorem AllNoPrio.setThr {s : ThreadPrivate} (h : AllNoPrio w) (hs : NoPrio s) : AllNoPrio (w.setThr i s) := by
  intro j
  rw [setThr_thr]
  split
  · exact hs
  · exact h j

theorem AllNoPrio.notify {t : ThreadId} {p : PromId} (h : AllNoPrio w) (hn : w.notify i t p = some w') :
    AllNoPrio w' := by
  intro j
  by_cases hj : j = i
  · subst hj
    simp only [World.notify] at hn
    split at hn
    · simp only [Option.map_eq_some_iff] at hn
      obtain ⟨s, hs, rfl⟩ := hn
      exact h.setThr ((h j).notify hs) j
    · obtain rfl := Option.some.inj hn
      exact (h j).foreign (foreign_async (w.newTask timePointMin 0 (.notify p) 1).2 _ t j)
  · exact (h j).foreign (notify_foreign hn hj)

theorem AllNoPrio.setException {p : PromId} {e : Error} (h : AllNoPrio w) (hn : w.setException i p e = some w') :
    AllNoPrio w' := by
  simp only [World.setException, notifyBase] at hn
  split at hn
  · obtain rfl := Option.some.inj hn
    exact h
  · exact AllNoPrio.notify (w := w.modProm p _) h hn

theorem AllNoPrio.quitBlocked (fuel : Nat) : ∀ {w : World V} {c : Option CtxId}, AllNoPrio w →
    World.quitBlocked i fuel w c = some w' → AllNoPrio w' := by
  induction fuel with
  | zero => intro w c _ hq; cases hq
  | succ fuel ih =>
    intro w c h hq
    cases c with
    | none => rwa [← Option.some.inj hq]
    | some c =>
      simp only [World.quitBlocked] at hq
      split at hq
      · cases hq
      · simp only [Option.bind_eq_bind, Option.bind_eq_some_iff] at hq
        obtain ⟨w₁, hw, hq⟩ := hq
        exact ih (h.setException hw) hq

theorem AllNoPrio.quit (h : AllNoPrio w) (hq : w.quit i = some w') : AllNoPrio w' := by
  simp only [World.quit, Option.bind_eq_bind, Option.bind_eq_some_iff, Option.pure_def, Option.some.injEq] at hq
  obtain ⟨w₁, hw, s, hs, rfl⟩ := hq
  have h₁ := h.quitBlocked _ hw
  exact h₁.setThr ((((h₁ i).quitReady _ hs).quitSleepers _).congr rfl)

theorem AllNoPrio.runTask {t : Task} {tm : Int} {k : List (Frame V)} (h : AllNoPrio w)
    (hr : w.runTask i t tm k = some (w', es)) : AllNoPrio w' := by
  simp only [World.runTask] at hr
  split at hr
  · split at hr <;> (obtain ⟨rfl, -⟩ := Prod.mk.inj (Option.some.inj hr); exact h)
  · simp only [Option.map_eq_some_iff] at hr
    obtain ⟨s, hs, he⟩ := hr
    obtain ⟨rfl, -⟩ := Prod.mk.inj he
    exact AllNoPrio.setThr h ((h i).notify hs)
  · obtain ⟨rfl, -⟩ := Prod.mk.inj (Option.some.inj hr)
    exact h

theorem AllNoPrio.switch (h : AllNoPrio w) (r : Bool) (k : List (Frame V)) : AllNoPrio (w.switch i r k) := by
  have hpush : ∀ {s : ThreadPrivate}, NoPrio s →
      NoPrio (if r then s.readyPushBack (w.thr i).ensureCurrent.1 else s) := by
    intro s hs
    split
    · exact hs.pushBack _
    · exact hs
  obtain ⟨x, s, hp⟩ : ∃ x s, (w.thr i).ensureCurrent.2.readyPopFront = (x, s) := ⟨_, _, rfl⟩
  have hpop : NoPrio s := by simpa only [hp] using (h i).ensureCurrent.popFront
  cases x with
  | some next =>
    rw [switch_ready hp]
    exact AllNoPrio.setThr h ((hpush hpop).congr rfl)
  | none =>
    rw [switch_fresh hp]
    exact AllNoPrio.setThr h ((hpush hpop).newContext.congr rfl)

/-- No move writes `prio` of a context. -/
theorem Move.allNoPrio (hm : Move w₀ i ph w ph' w' es) (h : AllNoPrio w) : AllNoPrio w' := by
  have hpost : ∀ {u : World V}, u.thr = w.thr → ∀ (t : Task) (j : ThreadId), AllNoPrio (u.async j t) :=
    fun hu t j k => (h k).foreign (by rw [← hu]; exact foreign_async _ t j k)
  cases hm with
  | async j | asyncVoid j => exact hpost rfl _ j
  | sync _ j => exact hpost rfl _ j
  | cancel => exact fun k => (h k).foreign (cancelTask_foreign _ _ k)
  | quit hq => exact h.quit hq
  | sleepOn t => exact AllNoPrio.setThr h ((h i).ensureCurrent.sleepOn _ t)
  | waitOn => exact AllNoPrio.setThr h ((h i).ensureCurrent.waitOn _ _ _)
  | expireSleep => exact AllNoPrio.setThr h (NoPrio.pushBack (NoPrio.congr (h i) (sleepPop_ctx _)) _)
  | expireWait _ _ _ _ hx =>
    exact AllNoPrio.setException (AllNoPrio.setThr h (NoPrio.congr (h i) (sleepPop_ctx _))) hx
  | switch | reschedule => exact h.switch _ _
  | dequeue _ _ _ _ hd | drain _ _ _ _ hd => exact AllNoPrio.setThr h ((h i).congr (dequeue_sched hd).ctx)
  | runTask _ hr => exact h.runTask hr
  | release => exact fun k => by rw [show (((w.release _).setCpu _ _).thr k) = w.thr k from congrFun (release_thr w _) k]; exact h k
  | resumeWait | resumeSleep => exact AllNoPrio.setThr h ((h i).ensureCurrent.writeCtx _ fun _ => rfl)
  | post _ _ hn =>
    have h' := h.notify hn
    exact h'
  | _ => exact h

theorem allNoPrio_step {a : Action V} (h : AllNoPrio w) (hs : w.step a = some (w', es)) : AllNoPrio w' :=
  (step_moves hs).inv (fun _ w => AllNoPrio w) (fun _ _ _ _ _ hm _ hI => hm.allNoPrio hI) h

/-! ## Who posts what -/

/-- The thread that a call posts a task to, where the function takes the maximum with `current_priority`:
`async<T>` and `schedule<T>`, `schedule` of a `void()` functor, and `sync`. -/
def postsTo : Call V → Option ThreadId
  | .async j _ _ => some j
  | .scheduleVoid j _ _ => some j
  | .sync _ j _ _ => some j
  | _ => none

/-- The tasks whose functors a stack is inside of. -/
def executing (k : List (Frame V)) : List Task :=
  k.filterMap fun
    | .task t => some t
    | _ => none

theorem mem_executing {t : Task} {k : List (Frame V)} : t ∈ executing k ↔ Frame.task t ∈ k := by
  rw [executing, List.mem_filterMap]
  constructor
  · rintro ⟨f, hf, he⟩
    cases f <;> cases he
    exact hf
  · exact fun h => ⟨_, h, rfl⟩

/-- The posts of a step from `w` to `w'`: the task that a call has left at the head of the queue of its target,
with each task that makes the call. -/
def posts (w : World V) (a : Action V) (w' : World V) : List (Task × Task) :=
  match a with
  | .call i _ c =>
    match (postsTo c).bind fun j => (w'.thr j).taskInQueue.head? with
    | some t' => (executing (w.cpu i)).map (·, t')
    | none => []
  | _ => []

/-- A step that shows who posted what. -/
def postStep (w : World V) (a : Action V) : Option (World V × List (Task × Task)) :=
  (w.step a).map fun r => (r.1, posts w a r.1)

/-- A posted task has at least the default priority. -/
theorem posted_prio {t : Int} {c : Call V} {j : ThreadId} {t' : Task} (h : AllNoPrio w)
    (hs : w.step (.call i t c) = some (w', es)) (hc : postsTo c = some j)
    (ht : (w'.thr j).taskInQueue.head? = some t') : 0 ≤ t'.prio := by
  have hcur := (h j).currentPriority
  obtain ⟨k, hs⟩ : ∃ k, w.stepCall i t k c = some (w', es) := by
    simp only [step] at hs
    split at hs
    · split at hs <;> first | exact ⟨_, hs⟩ | cases hs
    · cases hs
  cases c with
  | async j' when prio | scheduleVoid j' when prio =>
    obtain rfl := Option.some.inj hc
    obtain ⟨rfl, -⟩ := Prod.mk.inj (Option.some.inj hs)
    simp only [async, setThr_thr, if_true, List.head?_cons, Option.some.injEq] at ht
    subst ht
    simp only [hcur]
    exact Int.le_max_left _ _
  | sync ov j' prio d =>
    obtain rfl := Option.some.inj hc
    obtain ⟨rfl, -⟩ := Prod.mk.inj (Option.some.inj hs)
    simp only [setCpu, async, setThr_thr, if_true, List.head?_cons, Option.some.injEq] at ht
    subst ht
    cases ov
    all_goals simp only [hcur]
    · exact Int.le_max_left _ _
    · exact Int.le_refl _
    · exact Int.le_refl _
  | _ => cases hc

theorem mem_posts {a : Action V} {x : Task × Task} (hx : x ∈ posts w a w') :
    ∃ i t c j, a = .call i t c ∧ Frame.task x.1 ∈ w.cpu i ∧ postsTo c = some j ∧
      (w'.thr j).taskInQueue.head? = some x.2 := by
  cases a with
  | call i t c =>
    simp only [posts] at hx
    split at hx
    · next t' ht =>
      obtain ⟨j, hj, ht⟩ := Option.bind_eq_some_iff.1 ht
      obtain ⟨u, hu, rfl⟩ := List.mem_map.1 hx
      exact ⟨i, t, c, j, rfl, mem_executing.1 hu, hj, ht⟩
    · cases hx
  | _ => cases hx

/-- What holds in every run: no context has a priority, and no task has been posted with less than the default. -/
theorem posts_run {ps : List (Task × Task)} {ok} (h : Run postStep ok (init : World V) w ps) :
    AllNoPrio w ∧ ∀ x ∈ ps, 0 ≤ x.2.prio := by
  refine h.inv (fun ps w => AllNoPrio w ∧ ∀ x ∈ ps, 0 ≤ x.2.prio) ⟨fun _ _ => rfl, by simp⟩ ?_
  rintro ps w a w' e ⟨hI, hps⟩ - hs
  obtain ⟨⟨w₁, es⟩, hstep, he⟩ := Option.map_eq_some_iff.1 hs
  obtain ⟨rfl, rfl⟩ := Prod.mk.inj he
  refine ⟨allNoPrio_step hI hstep, fun x hx => ?_⟩
  rcases List.mem_append.1 hx with hx | hx
  · exact hps x hx
  · obtain ⟨i, t, c, j, rfl, -, hc, ht⟩ := mem_posts hx
    exact posted_prio hI hstep hc ht

/-- In every run, the current priority is at least that of a task that executes exactly when the task has no more
than the default; and such a task passes its priority on to every task on every chain of posts that starts with
it. -/
theorem priority_inherited {ps : List (Task × Task)}
    (h : Run postStep (fun _ _ _ _ => True) (init : World V) w ps) :
    (∀ i t, Frame.task t ∈ w.cpu i → (t.prio ≤ (w.thr i).currentPriority ↔ t.prio ≤ 0)) ∧
      ∀ t t', t.prio ≤ 0 → Relation.TransGen (fun a b => (a, b) ∈ ps) t t' → t.prio ≤ t'.prio := by
  obtain ⟨hI, hps⟩ := posts_run h
  refine ⟨fun i t _ => by rw [(hI i).currentPriority], fun t t' ht hchain => ?_⟩
  obtain ⟨u, -, hu⟩ := Relation.TransGen.tail'_iff.1 hchain
  exact Int.le_trans ht (hps _ hu)

/-- A task of priority 0 posts a second one, which runs and posts a third one with priority 2. -/
theorem priority_inherited_chain : ∃ (w : World Nat) (ps : List (Task × Task)) (t t' t'' : Task),
    (Run postStep (fun _ _ _ _ => True) init w ps ∧ (t, t') ∈ ps ∧ (t', t'') ∈ ps ∧ Frame.task t' ∈ w.cpu 0) ∧
      t.prio ≤ t''.prio ∧ t'.prio ≤ (w.thr 0).currentPriority := by
  let t : Task := { postedNum := 1, prio := 0, body := .vtask }
  let t' : Task := { postedNum := 2, prio := 0, body := .rtask 0 }
  let t'' : Task := { postedNum := 3, when := 100, prio := 2, body := .vtask }
  obtain ⟨w, ps, h, hf⟩ := run_of_check (postStep (V := Nat)) (fun _ _ _ _ => True) (fun _ _ _ _ => true) init
    (fun w ps => decide (Frame.task t' ∈ w.cpu 0 ∧ (t, t') ∈ ps ∧ (t', t'') ∈ ps))
    [.call 0 0 (.asyncVoid 0 0), .call 0 0 .exec, .run 0 0 0 0, .call 0 0 (.async 0 timePointMin 0), .finish 0 (.value 7),
      .run 0 0 0 0, .run 0 0 0 0, .run 0 0 0 0, .call 0 0 (.scheduleVoid 0 100 2)]
    (fun _ _ _ _ _ => trivial) (by decide)
  obtain ⟨hexec, h₁, h₂⟩ := of_decide_eq_true hf
  obtain ⟨hcur, hchain⟩ := priority_inherited h
  exact ⟨w, ps, t, t', t'', ⟨h, h₁, h₂, hexec⟩, hchain t t'' (by decide) (.tail (.single h₁) h₂),
    (hcur 0 t' hexec).2 (by decide)⟩

/-- A task of priority 1 executes while the current priority is 0, and posts a task of priority 0. -/
theorem priority_not_inherited : ∃ (w : World Nat) (ps : List (Task × Task)) (t t' : Task),
    Run postStep (fun _ _ _ _ => True) init w ps ∧ Frame.task t ∈ w.cpu 0 ∧ t.prio = 1 ∧
      (w.thr 0).currentPriority < t.prio ∧ (t, t') ∈ ps ∧ t'.prio < t.prio := by
  let t : Task := { postedNum := 1, prio := 1, body := .vtask }
  let t' : Task := { postedNum := 2, prio := 0, body := .rtask 0 }
  obtain ⟨w, ps, h, hf⟩ := run_of_check (postStep (V := Nat)) (fun _ _ _ _ => True) (fun _ _ _ _ => true) init
    (fun w ps => decide (Frame.task t ∈ w.cpu 0 ∧ (w.thr 0).currentPriority = 0 ∧ (t, t') ∈ ps))
    [.call 0 0 (.asyncVoid 0 1), .call 0 0 .exec, .run 0 0 0 0, .call 0 0 (.async 0 timePointMin 0)]
    (fun _ _ _ _ _ => trivial) (by decide)
  obtain ⟨ht, hcur, hps⟩ := of_decide_eq_true hf
  exact ⟨w, ps, t, t', h, ht, rfl, by rw [hcur]; decide, hps, by decide⟩

end World

end BoostCmt
