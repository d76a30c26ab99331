import BoostCmt.Promises
/-!
# Who gets a timeout

`check_for_timeouts` tells a waiter that its deadline has passed by storing
`future_wait_timeout` into the promise, where any other wait on that promise finds
it too. `TimeoutsHeld` is the invariant of runs in which it does not: a promise
that holds this error has a waiter whose own deadline has passed and which will
take the error away.
-/

namespace BoostCmt

open ThreadPrivate Runs

variable {V : Type}

namespace World

variable {w₀ w w' : World V} {i : ThreadId} {ph ph' : Phase} {es : List (Event V)}

/-- The stack is in the part of a wait on `p` from which it takes an error away. -/
def Holder (k : List (Frame V)) (p : PromId) (d : Int) : Prop :=
  ∃ pc k', k = .wait pc p d :: k' ∧ (pc = .resumed ∨ pc = .finish)

/-- A promise that holds a timeout has a waiter whose own deadline has passed. -/
def TimeoutsHeld (w : World V) : Prop :=
  ∀ p, (w.prom p).error = some .futureWaitTimeout →
    ∃ j c d, Holder (w.stack j c) p d ∧ d ≤ w.now ∧ d ≠ timePointMax

/-- Nobody is about to store a timeout but `check_for_timeouts`. -/
def NoTimeoutSet (w : World V) : Prop :=
  ∀ j c pc p b, Frame.set pc p (.error .futureWaitTimeout) b ∉ w.stack j c

theorem Move.noTimeoutSet (hm : Move w₀ i ph w ph' w' es) (hv : Valid w)
    (hs : ∀ p, Event.setStart p (.error .futureWaitTimeout) ∉ es) (h : NoTimeoutSet w) : NoTimeoutSet w' := by
  intro j c pc p b hm'
  rcases hm.set_frames hv hm' with ⟨pc', b', hf, -⟩ | ⟨-, he⟩
  · exact h j c pc' p b' hf
  · exact hs p he

theorem Move.now_le (hm : Move w₀ i ph w ph' w' es) : w.now ≤ w'.now :=
  hm.globals.1.elim (fun e => Int.le_of_eq e.symm) And.left

theorem Move.now_max (hm : Move w₀ i ph w ph' w' es) (h : w.now ≤ timePointMax) :
    w'.now ≤ timePointMax :=
  hm.globals.1.elim (fun e => e ▸ h) And.right

/-- After the first move of a step only `process_tasks` goes on. -/
theorem Move.stack_later (hm : Move w₀ i ph w ph' w' es) (hph : ph ≠ .start) (hs : Sane w) {j : ThreadId}
    {c : CtxId}
    {f : Frame V} {k : List (Frame V)} (hk : w.stack j c = f :: k) (hf : ∀ pc tm, f ≠ .processTasks pc tm) :
    w'.stack j c = f :: k := by
  by_cases hsw : ∃ r, w' = w.switch i r (w.cpu i)
  · obtain ⟨r, rfl⟩ := hsw
    exact (hs.stack_switch r (by simp [hk])).trans hk
  · rw [((hm.stackStep hs.valid).resolve_right hsw).stack]
    split
    · next hjc =>
      obtain ⟨rfl, rfl⟩ := hjc
      rw [stack_cur] at hk
      cases hm with
      | clock | expireSleep | dequeue => exact hk
      | expireWait _ _ _ _ hx => exact (congrFun (setException_frame hx).cpu j).trans hk
      | switch | reschedule => exact absurd ⟨_, rfl⟩ hsw
      | drain hcpu | check hcpu | abandon hcpu | runTask hcpu =>
        rw [hk] at hcpu
        cases hcpu
        exact absurd rfl (hf _ _)
      | _ => exact absurd rfl hph
    · exact hk

/-- A waiter that can take an error away stays one, unless it leaves the wait with no error left in the promise, or
cancelled. -/
theorem Local.holder {k' : List (Frame V)} {pc : WaitPc} {p : PromId} {d : Int} {k : List (Frame V)}
    (hl : Local w i (.wait pc p d :: k) k' es) (hpc : pc = .resumed ∨ pc = .finish) :
    (w.prom p).error = none ∨ ∃ b, Event.waitDone i p d b (.error .taskCanceled) ∈ es := by
  cases hl with
  | callWait hx | callSet hx | callExec hx => cases hx
  | startYield hx =>
    rcases hpc with rfl | rfl <;> rcases hx with hx | hx <;> cases hx
  | raiseWait => exact .inr ⟨true, by simp⟩
  | finishValue he => exact .inl he
  | finishNone he => exact .inl he
  | _ => rcases hpc with h | h <;> cases h

theorem Move.holder (hm : Move w₀ i ph w ph' w' es) (hs : Sane w) {j : ThreadId} {c : CtxId} {p : PromId} {d : Int}
    (h : Holder (w.stack j c) p d) :
    Holder (w'.stack j c) p d ∨ (w'.prom p).error = none ∨
      ∃ b, Event.waitDone i p d b (.error .taskCanceled) ∈ es ∧ w'.prom = w.prom := by
  obtain ⟨pc, k, hk, hpc⟩ := h
  by_cases hsw : ∃ r, w' = w.switch i r (w.cpu i)
  · obtain ⟨r, rfl⟩ := hsw
    exact .inl ⟨pc, k, (hs.stack_switch r (by simp [hk])).trans hk, hpc⟩
  · rw [((hm.stackStep hs.valid).resolve_right hsw).stack]
    split
    · next hjc =>
      obtain ⟨rfl, rfl⟩ := hjc
      rw [stack_cur] at hk
      have hsame : w'.cpu j = w.cpu j → Holder (w'.cpu j) p d := fun e => ⟨pc, k, e.trans hk, hpc⟩
      cases hm with
      | stackTop _ hl =>
        rw [hk] at hl
        rcases hl.holder hpc with he | ⟨b, he⟩
        · exact .inr (.inl he)
        · exact .inr (.inr ⟨b, he, rfl⟩)
      | resumeWait _ hcpu =>
        rw [hk] at hcpu
        cases hcpu
        exact .inl ⟨.finish, k, by simp, .inr rfl⟩
      | finishError _ hcpu he =>
        rw [hk] at hcpu
        cases hcpu
        exact .inr (.inl (by simp [setCpu, modProm]))
      | clock | go | newPromise | async | asyncVoid | expireSleep | dequeue => exact .inl (hsame rfl)
      | cancel => exact .inl (hsame (by simp only [cancelTask]; split <;> rfl))
      | quit hq => exact .inl (hsame (congrFun (quit_stacks hq).2.1 j))
      | expireWait _ _ _ _ hx => exact .inl (hsame (congrFun (setException_frame hx).cpu j))
      | sync _ _ _ _ _ hx | sleepOn _ _ hx => rw [hk] at hx; cases hx
      | switch => exact absurd ⟨_, rfl⟩ hsw
      | reschedule => exact absurd ⟨_, rfl⟩ hsw
      | waitOn _ hcpu | enqueueThread _ hcpu => rw [hk] at hcpu; cases hcpu; rcases hpc with h | h <;> cases h
      | post _ hcpu | storeValue _ hcpu | storeError _ hcpu | drain hcpu | check hcpu | abandon hcpu | ran hcpu
      | release hcpu | resumeSleep hcpu | runTask hcpu => rw [hk] at hcpu; cases hcpu
    · exact .inl ⟨pc, k, hk, hpc⟩

/-! ## The invariant -/

/-- Waits on one promise overlap, on whatever threads, only if neither has a deadline. -/
def TimedAlone (w : World V) : Prop :=
  ∀ i c i' c' p d d', (i, c) ≠ (i', c') → waitOf (w.stack i c) = some (p, d) →
    waitOf (w.stack i' c') = some (p, d') →
    d = timePointMax ∧ d' = timePointMax

theorem TimedAlone.oneTimed (h : TimedAlone w) : OneTimed w :=
  fun i c c' p d d' hne => h i c i c' p d d' (fun e => hne (Prod.mk.inj e).2)

/-- A wait that leaves cancelled leaves no timeout behind. -/
def NoTimeoutLeft (w : World V) (e : List (Event V)) : Prop :=
  ∀ i p d b, Event.waitDone i p d b (.error .taskCanceled) ∈ e → (w.prom p).error ≠ some .futureWaitTimeout

theorem Holder.waitOf {k : List (Frame V)} {p : PromId} {d : Int} (h : Holder k p d) : waitOf k = some (p, d) := by
  obtain ⟨pc, k', rfl, -⟩ := h
  rfl

theorem Move.timeoutsHeld (hm : Move w₀ i ph w ph' w' es) (hq : NoQuit es) (hs : Sane w) (hpl : Placed ph w i)
    (hset : NoTimeoutSet w) (hleft : NoTimeoutLeft w₀ es) (h : TimeoutsHeld w) : TimeoutsHeld w' := by
  intro p hp
  -- whoever holds the timeout of `p` before the move holds it after
  have hkeep : ∀ {j c d}, Holder (w.stack j c) p d →
      (w'.prom = w.prom → (w.prom p).error = some .futureWaitTimeout) →
      Holder (w'.stack j c) p d := by
    intro j c d hh hw
    rcases hm.holder hs hh with hh | he | ⟨b, he, hprom⟩
    · exact hh
    · rw [he] at hp; cases hp
    · obtain ⟨⟨t, -, rfl⟩, -⟩ := hm.waitEnds he
      exact absurd (hw hprom) (hleft i p d b he)
  have hnow := hm.now_le
  rcases hm.prom_cases hq p with ⟨he, -⟩ | ⟨-, he, -⟩ | ⟨-, ⟨d, k, -, -, -, -, -, he⟩ | ⟨e, b, k, hcpu, -, -, he⟩ |
    ⟨c, v, hv, hle, hc, -⟩⟩ | ⟨v, b, k, -, -, -, -, he, -⟩
  · rw [he] at hp
    obtain ⟨j, c, d, hh, hd, hmax⟩ := h p hp
    exact ⟨j, c, d, hkeep hh (fun _ => hp), Int.le_trans hd hnow, hmax⟩
  · rw [he] at hp; cases hp
  · rw [he] at hp; cases hp
  · rw [he] at hp
    obtain rfl := Option.some.inj hp
    refine absurd ?_ (hset i (w.cur i) .store p b)
    rw [stack_cur, hcpu]
    simp
  · obtain ⟨R, B, -, hok⟩ := hpl
    obtain ⟨-, k, hk, hmax⟩ := hok.sleeper (by simp [hv]) hc
    refine ⟨i, c, _, hkeep ⟨.resumed, k, hk, .inl rfl⟩ (fun e => e ▸ hp), Int.le_trans hle hnow, hmax⟩
  · rw [he] at hp; cases hp

/-- A wait that throws `future_wait_timeout` has reached its own deadline. -/
theorem Move.timeout_thrown (hm : Move w₀ i ph w ph' w' es) (halone : TimedAlone w₀) (hmax : w.now ≤ timePointMax)
    (h : TimeoutsHeld w) {j : ThreadId} {p : PromId} {d : Int} {b : Bool}
    (he : Event.waitDone j p d b (.error .futureWaitTimeout) ∈ es) : d ≤ w.now ∧ d ≠ timePointMax := by
  obtain ⟨⟨t, -, rfl⟩, rfl, hends⟩ := hm.waitEnds he
  -- somebody else who holds the timeout would be a second wait with a deadline
  have hother : ∀ {pc k}, w₀.cpu j = .wait pc p d :: k → (w₀.prom p).error = some .futureWaitTimeout →
      d ≤ (w₀.setNow t).now ∧ d ≠ timePointMax := by
    intro pc k hcpu hp
    obtain ⟨j', c', d', hh, hd', hmax'⟩ := h p hp
    by_cases hjc : (j', c') = (j, w₀.cur j)
    · obtain ⟨rfl, rfl⟩ := Prod.mk.inj hjc
      obtain ⟨pc', k', hk, -⟩ := hh
      have hk : w₀.cpu j' = _ := (stack_cur w₀ j').symm.trans hk
      rw [hcpu] at hk
      cases hk
      exact ⟨hd', hmax'⟩
    · have hcur : waitOf (w₀.stack j (w₀.cur j)) = some (p, d) := by rw [stack_cur, hcpu]; rfl
      exact absurd (halone j' c' j _ p d' d hjc hh.waitOf hcur).1 hmax'
  generalize hk : (w₀.setNow t).cpu j = k₀ at hends
  cases hends with
  | error _ hp => exact hother hk hp
  | late hd => omega

/-! ## Runs -/

/-- A wait that throws `future_wait_timeout` has a deadline and has reached it, and only the deadline of the wait
that a context is inside of sets the error. -/
def TimeoutsIsolated (w : World V) (e : List (Event V)) : Prop :=
  (∀ i p d b, Event.waitDone i p d b (.error .futureWaitTimeout) ∈ e → d ≤ w.now ∧ d ≠ timePointMax) ∧
  ∀ i c p, Event.expired i c p ∈ e → ∃ d k, w.stack i c = .wait .resumed p d :: k ∧ d ≤ w.now ∧ d ≠ timePointMax

/-- What keeps timeouts apart. -/
structure TimeoutsInv (ph : Phase) (w : World V) (i : ThreadId) : Prop extends IntactIn ph w i where
  noSet : NoTimeoutSet w
  held : TimeoutsHeld w
  max : w.now ≤ timePointMax

/-- Steps of runs in which waits with a deadline do not share their promise, nobody else stores the error, and no
wait is cancelled with the error in its promise. -/
def TimeoutsApart (w : World V) (e : List (Event V)) : Prop :=
  TimedAlone w ∧ NoQuit e ∧ (∀ p, Event.setStart p (.error .futureWaitTimeout) ∉ e) ∧ NoTimeoutLeft w e

theorem TimeoutsApart.mono {e : List (Event V)} (h : TimeoutsApart w es) (he : ∀ x ∈ e, x ∈ es) :
    TimeoutsApart w e :=
  ⟨h.1, fun j hj => h.2.1 j (he _ hj), fun p hp => h.2.2.1 p (he _ hp),
    fun i p d b hd => h.2.2.2 i p d b (he _ hd)⟩

theorem Move.timeoutsInv (hm : Move w₀ i ph w ph' w' es) (hok : TimeoutsApart w₀ es) (h : TimeoutsInv ph w i) :
    TimeoutsInv ph' w' i where
  toIntactIn := hm.intactIn hok.2.1 hok.1.oneTimed h.toIntactIn
  noSet := hm.noTimeoutSet h.sane.valid hok.2.2.1 h.noSet
  held := hm.timeoutsHeld hok.2.1 h.sane h.placed h.noSet hok.2.2.2 h.held
  max := hm.now_max h.max

/-- Deadlines pass after the first move of a step, to a context that is inside of the wait they belong to. -/
theorem Move.expired_wait (hm : Move w₀ i ph w ph' w' es) (hpl : Placed ph w i) {j : ThreadId} {c : CtxId}
    {p : PromId} (he : Event.expired j c p ∈ es) :
    ph ≠ .start ∧ ∃ d k, w.stack j c = .wait .resumed p d :: k ∧ d ≤ w.now ∧ d ≠ timePointMax := by
  obtain ⟨rfl, hph, -, hc, -, hle, hprom, -⟩ := hm.expired_cases he
  obtain ⟨R, B, -, hok⟩ := hpl
  obtain ⟨-, k, hk, hmax⟩ := hok.sleeper hc hprom
  exact ⟨hph, _, k, hk, hle, hmax⟩

/-- A step starts once. -/
theorem Move.not_start (hm : Move w₀ i ph w ph' w' es) (hph : ph ≠ .start) : ph' ≠ .start := by
  cases hm <;> first | exact hph | simp

theorem TimeoutsInv.start (h : TimeoutsInv .out w i) (j : ThreadId) : TimeoutsInv .start w j :=
  ⟨h.intact.start j, h.noSet, h.held, h.max⟩

theorem timeoutsInv_init (i : ThreadId) : TimeoutsInv .start (init : World V) i := by
  refine ⟨intact_init.start i, fun j c pc p b hm => ?_, fun p hp => ?_, show (0 : Int) ≤ timePointMax by decide⟩
  · simp only [stack] at hm
    split at hm <;> simp [init] at hm
  · simp [init] at hp

theorem timeoutsInv_run (h : Run step (fun _ w _ e => TimeoutsApart w e) init w es) (i : ThreadId) :
    TimeoutsInv .start w i :=
  h.inv (fun _ w => ∀ i, TimeoutsInv .start w i) timeoutsInv_init (fun _ _ a _ _ hI hok hs =>
    ((step_moves hs).inv (fun ph w => TimeoutsInv ph w a.thread)
      (fun _ _ _ _ _ hm he hI => hm.timeoutsInv (hok.mono he) hI) (hI _)).start) i

/-- One step keeps timeouts apart. -/
theorem timeoutsIsolated_step {a : Action V} {e : List (Event V)} (h : TimeoutsInv .start w a.thread)
    (hs : w.step a = some (w', e)) (hok : TimeoutsApart w e) : TimeoutsIsolated w' e := by
  have hI := (step_moves hs).inv_events []
    (fun es₀ ph w => TimeoutsInv ph w a.thread ∧ TimeoutsIsolated w es₀ ∧
      ∀ i c p, Event.expired i c p ∈ es₀ → ph ≠ .start) ?_
    ⟨h, by simp [TimeoutsIsolated], by simp⟩
  · simpa using hI.2.1
  rintro es₀ ph w₁ ph' w₂ e₁ hm he ⟨hI, ⟨hdone, hexp⟩, hph⟩
  have hok := hok.mono he
  have hnow := hm.now_le
  -- what is known of an expired deadline before the move stays true
  have hlater : ∀ {i c p}, ph ≠ .start →
      (∃ d k, w₁.stack i c = .wait .resumed p d :: k ∧ d ≤ w₁.now ∧ d ≠ timePointMax) →
      ∃ d k, w₂.stack i c = .wait .resumed p d :: k ∧ d ≤ w₂.now ∧ d ≠ timePointMax := by
    rintro i c p hph ⟨d, k, hk, hd, hmax⟩
    exact ⟨d, k, hm.stack_later hph hI.sane hk (by simp), Int.le_trans hd hnow, hmax⟩
  refine ⟨hm.timeoutsInv hok hI, ⟨fun i p d b hx => ?_, fun i c p hx => ?_⟩, fun i c p hx => ?_⟩
  · rcases List.mem_append.1 hx with hx | hx
    · exact ⟨Int.le_trans (hdone i p d b hx).1 hnow, (hdone i p d b hx).2⟩
    · obtain ⟨hd, hmax⟩ := hm.timeout_thrown hok.1 hI.max hI.held hx
      exact ⟨Int.le_trans hd hnow, hmax⟩
  · rcases List.mem_append.1 hx with hx | hx
    · exact hlater (hph i c p hx) (hexp i c p hx)
    · obtain ⟨hph, hk⟩ := hm.expired_wait hI.placed hx
      exact hlater hph hk
  · rcases List.mem_append.1 hx with hx | hx
    · exact hm.not_start (hph i c p hx)
    · exact hm.not_start (hm.expired_wait hI.placed hx).1

/-- The check of `TimeoutsApart` on the threads below `N`. -/
def timeoutsApartCheck (N : Nat) (w : World V) (e : List (Event V)) : Bool :=
  (List.range N).all (fun i => (List.range ((w.thr i).nctx + 1)).all fun c =>
    (List.range N).all fun i' => (List.range ((w.thr i').nctx + 1)).all fun c' =>
      match waitOf (w.stack i c), waitOf (w.stack i' c') with
      | some (p, d), some (p', d') => (i, c) == (i', c') || p != p' || (d == timePointMax && d' == timePointMax)
      | _, _ => true) &&
  e.all fun
    | .setStart _ (.error .futureWaitTimeout) => false
    | .waitDone _ _ _ _ (.error .taskCanceled) => false
    | _ => true

theorem timeoutsApartCheck_sound {N : Nat} (hs : Small N w) (hq : NoQuit es)
    (h : timeoutsApartCheck N w es = true) :
    TimeoutsApart w es := by
  simp only [timeoutsApartCheck, Bool.and_eq_true, List.all_eq_true, List.mem_range] at h
  refine ⟨fun i c i' c' p d d' hne hc hc' => ?_, hq, fun p hp => ?_, fun i p d b hd => ?_⟩
  · obtain ⟨hi, hcn⟩ := hs.waitOf_bound hc
    obtain ⟨hi', hcn'⟩ := hs.waitOf_bound hc'
    have := h.1 i hi c hcn i' hi' c' hcn'
    simp only [hc, hc', Bool.or_eq_true, Bool.and_eq_true, beq_iff_eq, bne_self_eq_false, or_false,
      Bool.false_eq_true] at this
    exact this.resolve_left hne
  · simpa using h.2 _ hp
  · simpa using h.2 _ hd

/-- No call stores `future_wait_timeout`. -/
def noTimeoutSet (e : List (Event V)) : Bool :=
  e.all fun
    | .setStart _ (.error .futureWaitTimeout) => false
    | _ => true

theorem noTimeoutSet_sound (h : noTimeoutSet es = true) (p : PromId) :
    .setStart p (.error .futureWaitTimeout) ∉ es :=
  fun hp => by simpa using List.all_eq_true.1 h _ hp

end World

end BoostCmt
