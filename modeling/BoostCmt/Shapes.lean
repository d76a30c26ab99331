import Mathlib.Data.List.Chain
import BoostCmt.Cancel
/-!
# The shape of stacks

Which call can stand on which, and where a suspended context is. A call of the
library is made by the code outside it, or by `process_tasks` for the task it
runs; only a contended lock puts `yield` on top of another call of the library.
So a wait, or a call that settles a promise, is at the top of its stack.
-/

namespace BoostCmt

open ThreadPrivate Runs

variable {V : Type}

/-- Code outside the library. -/
def Frame.outside : Frame V → Prop
  | .user => True
  | .task _ => True
  | _ => False

/-- Whether the first frame can stand on the second one. -/
def Frame.standsOn : Frame V → Frame V → Prop
  | .task t, .processTasks (.running t') _ => t = t'
  | .processTasks _ _, g => g.outside
  | .wait _ p _, .sync q _ => p = q
  | .wait _ _ _, g => g.outside
  | .set _ p _ _, .processTasks (.running t) _ => t.body = .rtask p
  | .set _ _ _ _, g => g.outside
  | .sleep, g => g.outside
  | .sync _ _, g => g.outside
  | .yield, g => g.outside ∨ World.locks [g] = true
  | _, _ => False

/-- A frame that has called what stands on it and is no call of a promise or of the scheduler. -/
def Frame.calls : Frame V → Prop
  | .user => True
  | .task _ => True
  | .processTasks (.running _) _ => True
  | .sync _ _ => True
  | _ => False

theorem Frame.outside.calls {f : Frame V} (h : f.outside) : f.calls := by
  cases f with
  | user | task => trivial
  | _ => cases h

/-- What a frame other than `yield` stands on. -/
theorem Frame.standsOn.calls {f g : Frame V} (h : f.standsOn g) (hf : f ≠ .yield) : g.calls ∧ g ≠ .yield := by
  have houtside : g.outside → g.calls ∧ g ≠ .yield := by
    intro ho
    exact ⟨ho.calls, fun e => by rw [e] at ho; cases ho⟩
  cases f with
  | user => cases h
  | yield => exact absurd rfl hf
  | task t =>
    unfold standsOn at h
    split at h <;> first | trivial | simp_all [Frame.calls]
  | processTasks => exact houtside h
  | wait | set =>
    unfold standsOn at h
    split at h <;> simp_all [Frame.calls]
  | sleep | sync => exact houtside h

theorem Frame.standsOn.wait {pc pc' : WaitPc} {p : PromId} {d : Int} {g : Frame V}
    (h : (Frame.wait pc p d).standsOn g) :
    (Frame.wait pc' p d).standsOn g := by
  unfold standsOn at h ⊢
  split at h <;> simp_all

theorem Frame.standsOn.set {pc pc' : SetPc} {p : PromId} {o o' : Outcome V} {b b' : Bool} {g : Frame V}
    (h : (Frame.set pc p o b).standsOn g) : (Frame.set pc' p o' b').standsOn g := by
  unfold standsOn at h ⊢
  split at h <;> simp_all

theorem Frame.standsOn.processTasks {pc pc' : ProcPc} {tm tm' : Int} {g : Frame V}
    (h : (Frame.processTasks pc tm).standsOn g) : (Frame.processTasks pc' tm').standsOn g := h

namespace World

variable {w₀ w w' : World V} {i : ThreadId} {ph ph' : Phase} {es : List (Event V)} {a : Action V} {p : PromId}

theorem locks_cons (f : Frame V) (k : List (Frame V)) : locks (f :: k) = locks [f] := by
  unfold locks
  split <;> simp_all

/-- Each frame stands on one that can call it. -/
def Nested (k : List (Frame V)) : Prop := k.IsChain Frame.standsOn

theorem Nested.tail {f : Frame V} {k : List (Frame V)} (h : Nested (f :: k)) : Nested k := List.IsChain.tail h

theorem Nested.push {f : Frame V} {k : List (Frame V)} (h : Nested k) (hf : ∀ g ∈ k.head?, f.standsOn g) :
    Nested (f :: k) :=
  List.isChain_cons.2 ⟨hf, h⟩

/-- A call made by the code outside the library. -/
theorem Nested.push_external {f : Frame V} {k : List (Frame V)} (h : Nested k) (hx : external k)
    (hf : ∀ g : Frame V, g.outside → f.standsOn g) : Nested (f :: k) := by
  refine h.push (fun g hg => hf g ?_)
  cases k with
  | nil => cases hg
  | cons x k =>
    obtain rfl : x = g := by simpa using hg
    cases x with
    | user | task => trivial
    | _ => cases hx

/-- Replacing the top frame by another one that can stand where it stood. -/
theorem Nested.replace {f g : Frame V} {k : List (Frame V)} (h : Nested (f :: k))
    (hfg : ∀ x, f.standsOn x → g.standsOn x) : Nested (g :: k) :=
  List.isChain_cons.2 ⟨fun x hx => hfg x ((List.isChain_cons.1 h).1 x hx), (List.isChain_cons.1 h).2⟩

/-- Below a frame other than `yield` there are only calls that run what is above them. -/
theorem Nested.calls {f : Frame V} {k : List (Frame V)} (h : Nested (f :: k)) (hf : f ≠ .yield) :
    ∀ g ∈ k, g.calls := by
  induction k generalizing f with
  | nil => simp
  | cons x k ih =>
    obtain ⟨hc, hx⟩ := ((List.isChain_cons.1 h).1 x rfl).calls hf
    intro g hg
    rcases List.mem_cons.1 hg with rfl | hg
    · exact hc
    · exact ih h.tail hx g hg

theorem unwind_nested {k : List (Frame V)} (h : Nested k) : Nested (unwind i k).1 := by
  unfold unwind
  split
  · exact h.tail
  · exact h.replace (fun _ hx => hx.set)
  · exact h.tail
  · exact h

theorem Local.nested {k k' : List (Frame V)} (hl : Local w i k k' es) (h : Nested k) : Nested k' := by
  cases hl with
  | callWait hx | callSet hx | callExec hx =>
    exact h.push_external hx (fun g hg => by cases g <;> first | exact hg | cases hg)
  | @startYield k hx =>
    rcases hx with hx | hx
    · exact h.push_external hx (fun g hg => .inl hg)
    · refine h.push (fun g hg => .inr ?_)
      cases k with
      | nil => cases hg
      | cons x k =>
        obtain rfl : x = g := by simpa using hg
        rw [← locks_cons x k]
        exact hx
  | finishSet hb =>
    refine h.replace (fun x hx => ?_)
    unfold Frame.standsOn at hx ⊢
    split at hx <;> simp_all
  | raiseYield => exact unwind_nested h.tail
  | again | toLock | toSwitch | wakeup => exact h.replace (fun _ hx => hx.processTasks)
  | isReady | notReady => exact h.replace (fun _ hx => hx.wait)
  | notifyRead => exact h.replace (fun _ hx => hx.set)
  | _ => exact h.tail

/-- The stacks are nested, and a suspended context is where `start_next_task` was called. -/
structure Shaped (ph : Phase) (w : World V) (i : ThreadId) : Prop where
  nested : ∀ j c, Nested (w.stack j c)
  resume : ∀ j c, c ≠ w.cur j → w.stack j c = [] ∨ atResume (w.stack j c) = true
  own : ph = .suspended → atResume (w.cpu i) = true

theorem Move.nested (hm : Move w₀ i ph w ph' w' es) (hv : Valid w) (h : ∀ j c, Nested (w.stack j c)) (j : ThreadId)
    (c : CtxId) : Nested (w'.stack j c) := by
  by_cases hsw : ∃ r, w' = w.switch i r (w.cpu i)
  · obtain ⟨r, rfl⟩ := hsw
    rcases stack_switch (i := i) hv r j c with e | ⟨-, -, -, -, e⟩ <;> rw [e]
    · exact h j c
    · exact List.isChain_singleton _
  · rw [((hm.stackStep hv).resolve_right hsw).stack]
    split
    · next hjc =>
      obtain ⟨rfl, rfl⟩ := hjc
      have hk := h j (w.cur j)
      rw [stack_cur] at hk
      cases hm with
      | switch | reschedule => exact absurd ⟨_, rfl⟩ hsw
      | clock | go | newPromise | async | asyncVoid | expireSleep | dequeue => exact hk
      | cancel => rw [show (w.cancelTask _).cpu = w.cpu by simp only [cancelTask]; split <;> rfl]; exact hk
      | quit hq => rw [(quit_stacks hq).2.1]; exact hk
      | expireWait _ _ _ _ hx => rw [(setException_frame hx).cpu]; exact hk
      | stackTop _ hl => simpa using hl.nested hk
      | sync ov t prio d hs hx =>
        simp only [setCpu_cpu, if_true]
        refine Nested.push (f := .wait .check w.promCount d) (Nested.push_external hk hx (fun g hg => ?_))
          (fun g hg => ?_)
        · exact hg
        · obtain rfl : _ = g := by simpa using hg
          rfl
      | sleepOn tp hs hx =>
        simp only [setCpu_cpu, if_true]
        exact hk.push_external hx (fun g hg => hg)
      | waitOn _ hcpu | enqueueThread _ hcpu | resumeWait _ hcpu =>
        rw [hcpu] at hk
        simp only [setCpu_cpu, if_true]
        exact hk.replace (fun _ hx => hx.wait)
      | storeValue _ hcpu | storeError _ hcpu =>
        rw [hcpu] at hk
        simp only [setCpu_cpu, if_true]
        exact hk.replace (fun _ hx => hx.set)
      | ran hcpu | release hcpu | drain hcpu | check hcpu =>
        rw [hcpu] at hk
        simp only [setCpu_cpu, if_true]
        exact hk.replace (fun _ hx => hx.processTasks)
      | finishError _ hcpu | post _ hcpu | resumeSleep hcpu | abandon hcpu =>
        rw [hcpu] at hk
        simp only [setCpu_cpu, if_true]
        exact hk.tail
      | @runTask _ _ t pc tm k _ hcpu hr =>
        rw [hcpu] at hk
        have hrun : Nested (.processTasks (.running t) tm :: k) := hk.replace (fun x hx => by cases x <;> exact hx)
        rcases runTask_cpu hr with ⟨q, hb, -, e⟩ | ⟨-, e⟩ | ⟨q, -, -, e⟩ <;> rw [e]
        · refine hrun.push (fun g hg => ?_)
          obtain rfl : _ = g := by simpa using hg
          exact hb
        · refine hrun.push (fun g hg => ?_)
          obtain rfl : _ = g := by simpa using hg
          rfl
        · exact hrun
    · exact h j c

theorem Move.shaped (hm : Move w₀ i ph w ph' w' es) (hv : Valid w) (h : Shaped ph w i) : Shaped ph' w' i := by
  refine ⟨hm.nested hv h.nested, fun j c hc => ?_, fun hph => ?_⟩
  · rcases hm.stackStep_or_switch hv with hst | ⟨r, rfl, -, hr⟩
    · rw [hst.cur] at hc
      rw [hst.stack, if_neg (fun e => hc (by rw [e.1, e.2]))]
      exact h.resume j c hc
    · rcases stack_switch (i := i) hv r j c with e | ⟨rfl, -, -, e, -⟩
      · rw [e]
        by_cases hcur : c = w.cur j
        · by_cases hj : j = i
          · subst hj hcur
            rw [stack_cur]
            refine .inr ?_
            rcases hr with hs | ⟨-, f, k, hcpu, rfl | ⟨tm, rfl⟩⟩
            · exact h.own hs
            · rw [hcpu]; rfl
            · rw [hcpu]; rfl
          · exact absurd hcur (by rwa [cur, switch_thr_other w r _ hj] at hc)
        · exact h.resume j c hcur
      · exact absurd e.symm hc
  · subst hph
    cases hm with
    | clock | expireSleep => exact h.own rfl
    | expireWait _ _ _ _ hx => rw [(setException_frame hx).cpu]; exact h.own rfl
    | sleepOn | waitOn => simp [atResume]
    | check _ hpc => simp at hpc

theorem shaped_init (i : ThreadId) : Shaped .start (init : World V) i := by
  have hst : ∀ j c, (init : World V).stack j c = [.user] ∨ (init : World V).stack j c = [] := by
    intro j c
    by_cases hc : c = (init : World V).cur j
    · exact .inl (by rw [stack, if_pos hc]; rfl)
    · exact .inr (by rw [stack, if_neg hc]; rfl)
  refine ⟨fun j c => ?_, fun j c hc => .inl (by rw [stack, if_neg hc]; rfl), by simp⟩
  rcases hst j c with e | e <;> rw [e]
  · exact List.isChain_singleton _
  · exact List.isChain_nil

/-- A wait that is past its locks has nothing above it. -/
theorem Nested.not_above_wait {f : Frame V} {pc : WaitPc} {d : Int} {k : List (Frame V)}
    (h : Nested (f :: .wait pc p d :: k)) : f = .yield ∧ (pc = .check ∨ pc = .ready) := by
  have hs := (List.isChain_cons.1 h).1 _ rfl
  cases f with
  | yield =>
    refine ⟨rfl, ?_⟩
    cases pc <;> simp [Frame.standsOn, Frame.outside, locks] at hs ⊢
  | _ => cases hs

/-- A call of a promise or of the scheduler is on top of its stack, or `yield` stands on it. -/
theorem Nested.mem_top {f : Frame V} {k : List (Frame V)} (h : Nested k) (hf : f ∈ k) (hc : ¬ f.calls)
    (hy : f ≠ .yield) :
    ∃ k', (k = f :: k' ∨ k = .yield :: f :: k') ∧ ∀ g ∈ k', g.calls := by
  cases k with
  | nil => cases hf
  | cons x k =>
    rcases List.mem_cons.1 hf with rfl | hk
    · exact ⟨k, .inl rfl, h.calls hy⟩
    · by_cases hx : x = .yield
      · subst hx
        cases k with
        | nil => cases hk
        | cons g k =>
          have hg : g ≠ .yield := by
            rintro rfl
            rcases (List.isChain_cons.1 h).1 _ rfl with h | h <;> cases h
          rcases List.mem_cons.1 hk with rfl | hk
          · exact ⟨k, .inr rfl, h.tail.calls hg⟩
          · exact absurd (h.tail.calls hg f hk) hc
      · exact absurd (h.calls hx f hk) hc

theorem Shaped.phase (h : Shaped ph w i) (hph : ph' ≠ .suspended) (j : ThreadId) : Shaped ph' w j :=
  ⟨h.nested, h.resume, fun e => absurd e hph⟩

/-- What is known in the middle of a step of thread `i`, as long as waits with a deadline do not share their
promise on one thread and `quit` is not called. -/
structure Orderly (ph : Phase) (w : World V) (i : ThreadId) : Prop extends IntactIn ph w i, Shaped ph w i where
  tasks : TasksRun ph w i

theorem Move.orderly (hm : Move w₀ i ph w ph' w' es) (hq : NoQuit es) (hone : OneTimed w₀) (h : Orderly ph w i) :
    Orderly ph' w' i :=
  ⟨hm.intactIn hq hone h.toIntactIn, hm.shaped h.sane.valid h.toShaped, hm.tasksRun hq h.tasks⟩

theorem Orderly.start (h : Orderly .out w i) (j : ThreadId) : Orderly .start w j :=
  ⟨h.intact.start j, h.toShaped.phase (by simp) j,
    ⟨h.tasks.sane, h.tasks.undone, by simp [InHand], ⟨h.tasks.numbered.frames, h.tasks.numbered.queues, by simp⟩,
      h.tasks.active⟩⟩

theorem orderly_step {a : Action V} (h : ∀ j, Orderly .start w j) (hs : w.step a = some (w', es)) (hq : NoQuit es)
    (hone : OneTimed w) (j : ThreadId) : Orderly .start w' j :=
  ((step_moves hs).inv (fun ph w => Orderly ph w a.thread)
    (fun _ _ _ _ _ hm he => hm.orderly (fun j hj => hq j (he _ hj)) hone) (h a.thread)).start j

theorem orderly_init (i : ThreadId) : Orderly .start (init : World V) i :=
  ⟨intact_init.start i, shaped_init i, marks_init.tasks i⟩

end World

end BoostCmt
