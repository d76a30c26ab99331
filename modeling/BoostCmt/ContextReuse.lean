import BoostCmt.Placement
/-!
# How many contexts a thread makes

`start_next_task` makes a new context, with a stack of its own, when no context is
ready. No context is ever deleted, and one whose `process_tasks` has nothing to do goes
back to the ready list. So the contexts of a thread are bounded by how many of them
were inside of `wait` or `sleep_until` at the same time.
-/

namespace BoostCmt

open ThreadPrivate Runs

variable {V : Type}

namespace World

/-- The context is inside of the `start_next_task()` of `wait` or `sleep_until`. -/
def parkedIn : List (Frame V) → Bool
  | .wait .resumed _ _ :: _ => true
  | .sleep :: _ => true
  | _ => false

/-- How many contexts of thread `i` are inside of `wait` or `sleep_until`. -/
def parked (w : World V) (i : ThreadId) : Nat :=
  (List.range (w.thr i).nctx).countP fun c => parkedIn (w.stack i c)

/-- A step, with the most contexts of thread `i` that have been inside of `wait` or `sleep_until` between steps. -/
def stepPeak (i : ThreadId) (s : World V × Nat) (a : Action V) : Option ((World V × Nat) × List (Event V)) :=
  (s.1.step a).map fun r => ((r.1, max s.2 (r.1.parked i)), r.2)

/-! ## Counting contexts -/

section Count
variable {w w' : World V} {i : ThreadId} {R B : List CtxId}

/-- Every context runs, is ready, or is inside of `wait` or `sleep_until`. -/
theorem ThreadOk.nctx_le {x : Option CtxId} (h : ThreadOk w i x R B) :
    (w.thr i).nctx ≤ x.toList.length + R.length + w.parked i := by
  have hsplit := List.length_eq_countP_add_countP (fun c => parkedIn (w.stack i c)) (l := List.range (w.thr i).nctx)
  rw [List.length_range] at hsplit
  have hrest : (List.range (w.thr i).nctx).countP (fun c => ¬ parkedIn (w.stack i c) = true) ≤ (x.toList ++ R).length := by
    rw [List.countP_eq_length_filter]
    refine (List.subperm_of_subset (List.nodup_range.filter _) fun c hc => ?_).length_le
    simp only [List.mem_filter, List.mem_range, decide_eq_true_eq] at hc
    obtain ⟨hlt, hp⟩ := hc
    rcases h.cover c hlt with rfl | hR | hB | hS
    · simp
    · exact List.mem_append_right _ hR
    · obtain ⟨p, d, k, hk, -⟩ := h.waits c hB
      rw [hk] at hp
      exact absurd rfl hp
    · by_cases hB : c ∈ B
      · obtain ⟨p, d, k, hk, -⟩ := h.waits c hB
        rw [hk] at hp
        exact absurd rfl hp
      · obtain ⟨k, hk⟩ := h.sleeps c hS hB
        rw [hk] at hp
        exact absurd rfl hp
  rw [List.length_append] at hrest
  show (w.thr i).nctx ≤ _ + _ + (List.range (w.thr i).nctx).countP fun c => parkedIn (w.stack i c)
  omega

/-- More contexts and the same stacks. -/
theorem parked_le (hn : (w.thr i).nctx ≤ (w'.thr i).nctx)
    (hk : ∀ c, c < (w.thr i).nctx → parkedIn (w.stack i c) = true → parkedIn (w'.stack i c) = true) :
    w.parked i ≤ w'.parked i := by
  have hmono : w.parked i ≤ (List.range (w.thr i).nctx).countP fun c => parkedIn (w'.stack i c) :=
    List.countP_mono_left fun c hc => hk c (List.mem_range.1 hc)
  obtain ⟨d, hd⟩ := Nat.exists_eq_add_of_le hn
  refine Nat.le_trans hmono ?_
  show _ ≤ (List.range (w'.thr i).nctx).countP fun c => parkedIn (w'.stack i c)
  rw [hd, List.range_add, List.countP_append]
  exact Nat.le_add_right _ _

end Count

/-! ## What a move makes -/

section Moves
variable {w₀ w w' : World V} {i : ThreadId} {ph ph' : Phase} {es : List (Event V)} {R B : List CtxId}

theorem ensureCurrent_nctx (hv : ValidThr (w.thr i)) :
    (w.thr i).ensureCurrent.2.nctx = (w.thr i).nctx ∨ (w.thr i).ensureCurrent.2.nctx ≤ 1 := by
  unfold ThreadPrivate.ensureCurrent
  split
  · exact .inl rfl
  · next hc => exact .inr (by simp [newContext, hv.noCurrent hc])

/-- A switch makes a context only where none is ready. -/
theorem switch_nctx {r : Bool} {k : List (Frame V)} {next : CtxId}
    (hl : Lists (w.thr i).ensureCurrent.2 (next :: R) B) :
    ((w.switch i r k).thr i).nctx = (w.thr i).ensureCurrent.2.nctx := by
  obtain ⟨s, hp, core, -⟩ := hl.popFront
  rw [switch_ready hp]
  simp only [setCpu, setThr_thr, if_true]
  exact (readyPushBack_nctx s _ r).trans core.nctx

/-- A switch makes no context, or it leaves no more than one that is ready. -/
theorem switch_contexts {r : Bool} (hv : Valid w)
    (h : ThreadOk (w.setThr i (w.thr i).ensureCurrent.2) i (if r then some (w.thr i).ensureCurrent.1 else none) R B) :
    ((w.switch i r (w.cpu i)).thr i).nctx = (w.thr i).ensureCurrent.2.nctx ∨
      ∃ R' B', PlacedAs R' B' .out (w.switch i r (w.cpu i)) i ∧ R'.length ≤ 1 := by
  have hok := ThreadOk.switch hv h
  have hl := h.lists
  rw [setThr_thr, if_pos rfl] at hl
  cases R with
  | nil => exact .inr ⟨_, B, ⟨by simp, hok⟩, by cases r <;> simp⟩
  | cons next R => exact .inl (switch_nctx hl)

/-- Only a switch makes a context other than the first one. -/
theorem Move.first_context (hm : Move w₀ i ph w ph' w' es) (hv : Valid w) :
    ((w'.thr i).nctx = (w.thr i).nctx ∨ (w'.thr i).nctx ≤ 1) ∨
      ∃ r, w' = w.switch i r (w.cpu i) ∧ ph' = .out ∧ ph = if r then .out else .suspended := by
  have hens := ensureCurrent_nctx (hv i)
  have hfirst : (w'.thr i).nctx = (w.thr i).ensureCurrent.2.nctx →
      (w'.thr i).nctx = (w.thr i).nctx ∨ (w'.thr i).nctx ≤ 1 := fun e => by rwa [e]
  have hthr : ∀ {s : ThreadPrivate} {k : List (Frame V)}, ((w.setThr i s).setCpu i k).thr i = s := by simp [setCpu]
  cases hm with
  | switch | reschedule => exact .inr ⟨_, rfl, rfl, rfl⟩
  | async j when prio =>
    exact .inl (.inl
      (foreign_async ((w.newTask when prio (.rtask w.promCount) 1).2.newPromise _ false).2 _ j i).nctx)
  | asyncVoid j when prio => exact .inl (.inl (foreign_async (w.newTask when prio .vtask 1).2 _ j i).nctx)
  | sync ov j prio d =>
    exact .inl (.inl (foreign_async
      ((w.newTask timePointMin prio (.rtask w.promCount) (1 + ov.retains)).2.newPromise _ true).2 _ j i).nctx)
  | cancel => exact .inl (.inl (cancelTask_foreign w _ i).nctx)
  | quit hq => exact .inl (.inl (quit_stacks hq).2.2.2)
  | sleepOn tp => exact .inl (hfirst (by rw [hthr]; rfl))
  | waitOn => exact .inl (hfirst (by rw [hthr, (waitOn_core _ _ _ _).2.1]))
  | resumeWait => exact .inl (hfirst (by rw [hthr]; rfl))
  | resumeSleep => exact .inl (hfirst (by rw [hthr]; rfl))
  | expireSleep => exact .inl (.inl (by simp [(readyPushBack_core _ _).1.nctx, sleepPop]))
  | expireWait _ _ _ _ hx => exact .inl (.inl (by simp [setException_nctx hx, sleepPop]))
  | dequeue _ _ _ _ hd => exact .inl (.inl (by simp [(dequeue_sched hd).nctx]))
  | drain _ _ _ _ hd => exact .inl (.inl (by rw [hthr, (dequeue_sched hd).nctx]))
  | runTask _ hr => exact .inl (.inl (runTask_nctx hr))
  | release => exact .inl (.inl (by show ((w.release _).thr i).nctx = _; rw [release_thr]))
  | post _ _ hn =>
    have hn' := notify_nctx hn
    exact .inl (.inl hn')
  | _ => exact .inl (.inl rfl)

/-- A move makes no context, or the first one, or it leaves no more than one that is ready. -/
theorem Move.contexts (hm : Move w₀ i ph w ph' w' es) (hv : Valid w) (h : PlacedAs R B ph w i) :
    (w'.thr i).nctx = (w.thr i).nctx ∨ (w'.thr i).nctx ≤ 1 ∨ ∃ R' B', PlacedAs R' B' ph' w' i ∧ R'.length ≤ 1 := by
  rcases hm.first_context hv with (hn | hn) | ⟨_ | _, rfl, rfl, rfl⟩
  · exact .inl hn
  · exact .inr (.inl hn)
  · obtain ⟨hc, hok⟩ := h
    -- the suspended context exists, so nothing is made here
    obtain ⟨c, hcc⟩ := Option.ne_none_iff_exists'.1 (hc rfl)
    have he : (w.thr i).ensureCurrent.2 = w.thr i := by simp [ThreadPrivate.ensureCurrent, hcc]
    have hcur : (w.thr i).ensureCurrent.2.current.getD 0 = w.cur i := by rw [he]; rfl
    have hok' : ThreadOk (w.setThr i (w.thr i).ensureCurrent.2) i
        (if false = true then some (w.thr i).ensureCurrent.1 else none) R B := by
      refine hok.congr ?_ (fun c _ => stack_setThr hcur i c)
      rw [setThr_thr, if_pos rfl, he]
      exact ⟨rfl, rfl, rfl, rfl, rfl, fun _ _ => ⟨rfl, rfl, rfl, rfl⟩⟩
    exact (switch_contexts hv hok').imp (fun hn => by rw [hn, he]) .inr
  · rcases switch_contexts (r := true) hv (h.2.ensureCurrent (hv i)) with hn | hR
    · exact (ensureCurrent_nctx (hv i)).imp (hn.trans ·) fun hle => .inl (hn ▸ hle)
    · exact .inr (.inr hR)

/-- Behind the first move of a step, no context leaves `wait` or `sleep_until`. -/
theorem Move.parked_le (hm : Move w₀ i ph w ph' w' es) (hv : Valid w) (hph : ph ≠ .start) :
    w.parked i ≤ w'.parked i := by
  refine World.parked_le (hm.nctx_le hv) fun c hc hp => ?_
  have hrun : ∀ {u : World V} {f : Frame V} {k : List (Frame V)}, StackStep i w u → w.cpu i = f :: k →
      parkedIn (f :: k) = false → parkedIn (u.stack i c) = true := by
    intro u f k hs hcpu hf
    rw [hs.stack]
    split
    · next hcur =>
      rw [hcur.2, stack_cur, hcpu, hf] at hp
      cases hp
    · exact hp
  have hkeep : ∀ {u : World V}, StackStep i w u → u.cpu = w.cpu → parkedIn (u.stack i c) = true := by
    intro u hs hcpu
    rw [hs.stack]
    split
    · next hcur =>
      rw [hcur.2, stack_cur] at hp
      rw [hcpu]
      exact hp
    · exact hp
  have hswitch : ∀ r, parkedIn ((w.switch i r (w.cpu i)).stack i c) = true := by
    intro r
    rcases stack_switch (i := i) hv r i c with hs | ⟨-, hle, -⟩
    · rw [hs]
      exact hp
    · exact absurd hc (Nat.not_lt.2 hle)
  rcases hm.stackStep_or_switch hv with hs | ⟨r, rfl, -⟩
  · cases hm with
    | clock | expireSleep | dequeue => exact hkeep hs rfl
    | expireWait _ _ _ _ hx => exact hkeep hs (setException_frame hx).cpu
    | switch | reschedule => exact hswitch _
    | drain hcpu | check hcpu | abandon hcpu | runTask hcpu => exact hrun hs hcpu rfl
    | _ => exact absurd rfl hph
  · exact hswitch r

end Moves

/-! ## Runs -/

/-- Thread `i` in the middle of a step that has begun with a peak of `m`. -/
structure Reused (i : ThreadId) (m : Nat) (ph : Phase) (w : World V) : Prop where
  intact : IntactIn ph w i
  bound : (w.thr i).nctx ≤ max m (w.parked i) + 2
  start : ph = .start → (w.thr i).nctx ≤ m + 2

section Runs
variable {w w' : World V} {i : ThreadId} {m : Nat} {es e : List (Event V)} {a : Action V}

theorem Move.reused {w₀ : World V} {ph ph' : Phase} (hm : Move w₀ i ph w ph' w' e) (hq : NoQuit e) (hone : OneTimed w₀)
    (h : Reused i m ph w) : Reused i m ph' w' := by
  have hv := h.intact.sane.valid
  obtain ⟨R, B, hR⟩ := h.intact.placed
  refine ⟨hm.intactIn hq hone h.intact, ?_, fun hph' => ?_⟩
  · rcases hm.contexts hv hR with hn | hn | ⟨R', B', hR', hlen⟩
    · rw [hn]
      by_cases hph : ph = .start
      · exact Nat.le_trans (h.start hph) (Nat.add_le_add_right (Nat.le_max_left _ _) _)
      · have hle := hm.parked_le hv hph
        have hbound := h.bound
        omega
    · omega
    · have hle := hR'.2.nctx_le
      have hx : (runs ph' (w'.thr i)).toList.length ≤ 1 := by cases runs ph' (w'.thr i) <;> simp
      omega
  · subst hph'
    cases hm with
    | clock => exact h.start rfl
    | expireSleep hph => exact absurd rfl hph
    | expireWait hph => exact absurd rfl hph
    | check _ hpc => rcases hpc with ⟨hph, -⟩ | ⟨-, ⟨hph, -⟩ | ⟨t, hph⟩⟩ <;> cases hph

theorem Reused.step {s : World V × Nat} (h : Intact s.1 ∧ (s.1.thr i).nctx ≤ s.2 + 2) (hq : NoQuit e)
    (hone : OneTimed s.1) (hs : s.1.step a = some (w', e)) :
    Intact w' ∧ (w'.thr i).nctx ≤ max s.2 (w'.parked i) + 2 := by
  refine ⟨h.1.step hs hq hone, ?_⟩
  by_cases hi : a.thread = i
  · have hstart : Reused a.thread s.2 .start s.1 :=
      ⟨h.1.start _, Nat.le_trans (hi ▸ h.2) (Nat.add_le_add_right (Nat.le_max_left _ _) _), fun _ => hi ▸ h.2⟩
    have hend := (step_moves hs).inv (fun ph w => Reused a.thread s.2 ph w)
      (fun _ _ _ _ _ hm he hI => hm.reused (fun j hj => hq j (he _ hj)) hone hI) hstart
    rw [← hi]
    exact hend.bound
  · have hn : (w'.thr i).nctx = (s.1.thr i).nctx :=
      (step_moves hs).inv (fun _ w => (w.thr i).nctx = (s.1.thr i).nctx)
        (fun _ _ _ _ _ hm _ hI => (hm.foreign (Ne.symm hi)).nctx.trans hI) rfl
    rw [hn]
    exact Nat.le_trans h.2 (Nat.add_le_add_right (Nat.le_max_left _ _) _)

theorem stepPeak_step {s s' : World V × Nat} (hs : stepPeak i s a = some (s', e)) :
    s.1.step a = some (s'.1, e) := by
  obtain ⟨r, hr, he⟩ := Option.map_eq_some_iff.1 hs
  obtain ⟨rfl, rfl⟩ := Prod.mk.inj he
  exact hr

/-- The check of a step of thread 0. -/
def peakCheck (w : World V) (e : List (Event V)) : Bool :=
  singleWaiterCheck 1 w && e.all fun x => !(x matches .quitted _)

theorem peakCheck_sound (hs : Small 1 w) (h : peakCheck w e = true) : OneTimed w ∧ NoQuit e := by
  simp only [peakCheck, Bool.and_eq_true, List.all_eq_true] at h
  exact ⟨(singleWaiterCheck_sound hs h.1).oneTimed, fun j hj => by simpa using h.2 _ hj⟩

end Runs

end World

end BoostCmt
