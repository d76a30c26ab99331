import BoostCmt.Promises
/-!
# How long a promise keeps what it was given

`set_value` does nothing when the promise holds an error, and a wait that blocked
takes the error away with it. So a value lasts if no timeout gets into the
promise, and an exception lasts until the first wait that blocked has taken it.
-/

namespace BoostCmt

open ThreadPrivate Runs

variable {V : Type}

namespace World

variable {w₀ w w' : World V} {i : ThreadId} {ph ph' : Phase} {es : List (Event V)} {a : Action V} {p : PromId}

/-! ## Values -/

/-- No wait on `p` is resumed cancelled or finds its own deadline passed. -/
def WaitsUndisturbed (p : PromId) (w : World V) (a : Action V) (e : List (Event V)) : Prop :=
  (∀ i c, Event.expired i c p ∉ e) ∧
  ∀ i t₁ t₂ t₃, a = .run i t₁ t₂ t₃ → (∀ d k, w.cpu i = .wait .block p d :: k → t₁ ≤ d) ∧
    ∀ d, waitOf (w.cpu i) = some (p, d) → w.currentCanceled i = false

/-- Steps of a run in which everybody who settles `p` calls `set_value(v)`, the promise holds no error when the
value is stored, and from then on no deadline of a wait on it passes. -/
def ValueKept (p : PromId) (v : V) (es : List (Event V)) (w : World V) (a : Action V) (e : List (Event V)) :
    Prop :=
  NoQuit e ∧ (∀ o, Event.setStart p o ∈ e → o = .value v) ∧
  (∀ i t₁ t₂ t₃ b k, a = .run i t₁ t₂ t₃ → w.cpu i = .set .store p (.value v) b :: k → (w.prom p).error = none) ∧
  (.stored p (.value v) ∈ es → WaitsUndisturbed p w a e)

structure ValueInv (p : PromId) (v : V) (es : List (Event V)) (ph : Phase) (w : World V) : Prop where
  sane : Sane w
  alloc : Alloc ph w
  sets : ∀ j c pc o b, Frame.set pc p o b ∈ w.stack j c → o = .value v ∧ (pc ≠ .store → .stored p (.value v) ∈ es)
  kept : .stored p (.value v) ∈ es → p < w.promCount ∧ (w.prom p).error = none ∧ (w.prom p).value = some v

theorem Move.valueInv {v : V} {es₀ : List (Event V)} (hm : Move w₀ i ph w ph' w' es) (hq : NoQuit es)
    (hset : ∀ o, Event.setStart p o ∈ es → o = .value v)
    (hexp : .stored p (.value v) ∈ es₀ → ∀ i c, Event.expired i c p ∉ es) (h : ValueInv p v es₀ ph w) :
    ValueInv p v (es₀ ++ es) ph' w' := by
  have hstore : ∀ {pc o b k}, w.cpu i = .set pc p o b :: k → o = .value v ∧ p < w.promCount := by
    intro pc o b k hcpu
    have hmem : Frame.set pc p o b ∈ w.stack i (w.cur i) := by rw [stack_cur, hcpu]; simp
    exact ⟨(h.sets i _ pc o b hmem).1, h.alloc.frames i _ p _ hmem rfl⟩
  refine ⟨hm.sane h.sane, hm.alloc hq h.sane.valid h.alloc, fun j c pc o b hf => ?_, fun hst => ?_⟩
  · rcases hm.set_frames h.sane.valid hf with ⟨pc', b', hf', hpc⟩ | ⟨rfl, he⟩
    · obtain ⟨rfl, hst⟩ := h.sets j c pc' o b' hf'
      refine ⟨rfl, fun hne => ?_⟩
      by_cases hpc' : pc' = .store
      · exact List.mem_append_right _ ((hpc hpc').resolve_left hne)
      · exact List.mem_append_left _ (hst hpc')
    · exact ⟨hset o he, fun hne => absurd rfl hne⟩
  · have hle := hm.globals.2
    rcases List.mem_append.1 hst with hst₀ | hst
    · obtain ⟨hp, he, hv⟩ := h.kept hst₀
      refine ⟨Nat.lt_of_lt_of_le hp hle, ?_⟩
      rcases hm.prom_cases hq p with ⟨he', hv'⟩ | ⟨rfl, -⟩ | ⟨hv', ⟨d, k, -, -, -, -, -, he'⟩ | ⟨e, b, k, hcpu, -⟩ |
        ⟨c, v', -, -, -, rfl, -⟩⟩ | ⟨v', b, k, hcpu, -, -, -, he', hv'⟩
      · exact ⟨he'.trans he, hv'.trans hv⟩
      · exact absurd hp (Nat.lt_irrefl _)
      · exact ⟨he', hv'.trans hv⟩
      · exact absurd (hstore hcpu).1 (by simp)
      · exact absurd (by simp) (hexp hst₀ i c)
      · obtain rfl := Outcome.value.inj (hstore hcpu).1
        exact ⟨he', hv'⟩
    · obtain ⟨-, ⟨b, k, hcpu⟩, -, hc, hval, -⟩ := hm.stored hst
      exact ⟨by rw [hc]; exact (hstore hcpu).2, hval v rfl⟩

theorem valueInv_init (p : PromId) (v : V) : ValueInv p v [] .out (init : World V) := by
  refine ⟨sane_init, alloc_init, fun j c pc o b h => ?_, fun h => by cases h⟩
  simp only [stack] at h
  split at h <;> simp [init] at h

/-- `set_value` has returned only if it has stored. -/
theorem ValueInv.setDone {v : V} {e : List (Event V)} (h : ValueInv p v es .out w) (hs : w.step a = some (w', e))
    (hok : ValueKept p v es w a e) (hd : .setDone p (.value v) ∈ e) : .stored p (.value v) ∈ es := by
  obtain ⟨ph₁, w₁, ph₂, w₂, e₁, hm, he⟩ := (step_moves hs).mem hd
  obtain ⟨⟨t, -, rfl⟩, pc, b, k, hcpu, hpc, -⟩ := hm.setDone he
  have hcpu : w.cpu a.thread = .set pc p (.value v) b :: k := hcpu
  by_cases hne : pc = .store
  · -- the branch that drops the value
    have herr : (w.prom p).error.isSome = true := hpc hne
    rcases step_library hs (by simp [hcpu, external]) with ⟨t₁, t₂, t₃, ha⟩ | he
    · rw [hok.2.2.1 _ t₁ t₂ t₃ b k ha (hne ▸ hcpu)] at herr
      cases herr
    · obtain ⟨c, q, hc⟩ := he _ hd
      cases hc
  · exact (h.sets a.thread (w.cur a.thread) pc (.value v) b (by rw [stack_cur, hcpu]; simp)).2 hne

theorem ValueInv.step {v : V} {e : List (Event V)} (h : ValueInv p v es .out w) (hs : w.step a = some (w', e))
    (hok : ValueKept p v es w a e) : ValueInv p v (es ++ e) .out w' := by
  have hexp : .stored p (.value v) ∈ es ++ e → ∀ i c, Event.expired i c p ∉ e := by
    intro hst i c hc
    rcases List.mem_append.1 hst with hst | hst
    · exact (hok.2.2.2 hst).1 i c hc
    · rw [step_stored hs hst] at hc
      simp at hc
  refine ((step_moves hs).inv_events es (fun es' ph w => ValueInv p v es' ph w ∧ ∀ x ∈ es', x ∈ es ++ e) ?_
    ⟨⟨h.sane, h.alloc.phase, h.sets, h.kept⟩, fun x hx => List.mem_append_left _ hx⟩).1
  rintro es₀ ph w ph' w' e₁ hm he ⟨hI, hsub⟩
  refine ⟨hm.valueInv (fun j hj => hok.1 j (he _ hj)) (fun o ho => hok.2.1 o (he _ ho))
    (fun hst i c hc => hexp (hsub _ hst) i c (he _ hc)) hI, fun x hx => ?_⟩
  rcases List.mem_append.1 hx with hx | hx
  · exact hsub x hx
  · exact List.mem_append_right _ (he x hx)

theorem valueInv_run {v : V} (h : Run step (ValueKept p v) init w es) :
    ValueInv p v es .out w ∧ (.setDone p (.value v) ∈ es → .stored p (.value v) ∈ es) := by
  refine h.inv (fun es w => ValueInv p v es .out w ∧ (.setDone p (.value v) ∈ es → .stored p (.value v) ∈ es))
    ⟨valueInv_init p v, by simp⟩ (fun es w a w' e hI hok hs => ⟨hI.1.step hs hok, fun hd => ?_⟩)
  rcases List.mem_append.1 hd with hd | hd
  · exact List.mem_append_left _ (hI.2 hd)
  · exact List.mem_append_left _ (hI.1.setDone hs hok hd)

/-- A wait on `p` that runs in an undisturbed step ends with what the promise holds. -/
theorem waitEnds_kept {e : List (Event V)} (hs : w.step a = some (w', e)) (hok : WaitsUndisturbed p w a e)
    {j : ThreadId} {d : Int} {b : Bool} {o : Outcome V} (h : .waitDone j p d b o ∈ e) :
    (∃ x, (w.prom p).error = some x ∧ o = .error x) ∨
      ((w.prom p).error = none ∧ ∀ v, (w.prom p).value = some v → o = .value v) := by
  obtain ⟨t₁, t₂, t₃, t, rfl, hends⟩ := step_waitEnds hs h
  obtain ⟨hlate, hcan⟩ := hok.2 j t₁ t₂ t₃ rfl
  have hcan := hcan d hends.waitOf
  generalize hk : w.cpu j = k at hends
  cases hends with
  | error _ he => exact .inl ⟨_, he, rfl⟩
  | value _ he hv => exact .inr ⟨he, fun v h => by rw [Option.some.inj (h.symm.trans hv)]⟩
  | none he hv => exact .inr ⟨he, fun v h => nomatch h.symm.trans hv⟩
  | late =>
    obtain ⟨c, q, hc⟩ := step_late hs hk (hlate d _ hk) _ h
    cases hc
  | cancel hc => exact absurd (hcan.symm.trans hc) (by simp)
  | cancelYield hc => exact absurd (hcan.symm.trans hc) (by simp)

/-- The check of `WaitsUndisturbed`. -/
def undisturbedCheck (p : PromId) (w : World V) (a : Action V) (e : List (Event V)) : Bool :=
  e.all (fun
    | .expired _ _ q => q != p
    | _ => true) &&
  match a with
  | .run i t₁ _ _ =>
    (match w.cpu i with
      | .wait .block q d :: _ => q != p || decide (t₁ ≤ d)
      | _ => true) &&
    ((waitOf (w.cpu i)).map Prod.fst != some p || !w.currentCanceled i)
  | _ => true

theorem undisturbedCheck_sound {e : List (Event V)} (h : undisturbedCheck p w a e = true) :
    WaitsUndisturbed p w a e := by
  simp only [undisturbedCheck, Bool.and_eq_true, List.all_eq_true] at h
  refine ⟨fun i c hc => by simpa using h.1 _ hc, ?_⟩
  rintro i t₁ t₂ t₃ rfl
  have h₂ := h.2
  simp only [Bool.and_eq_true] at h₂
  refine ⟨fun d k hk => ?_, fun d hd => ?_⟩
  · simpa [hk] using h₂.1
  · simpa [hd] using h₂.2

/-- The check of `ValueKept`. -/
def valueKeptCheck [DecidableEq V] (p : PromId) (v : V) (es : List (Event V)) (w : World V) (a : Action V)
    (e : List (Event V)) : Bool :=
  e.all (fun
    | .setStart q o => q != p || o == .value v
    | _ => true) &&
  (match a with
    | .run i _ _ _ =>
      match w.cpu i with
      | .set .store q _ _ :: _ => q != p || (w.prom p).error.isNone
      | _ => true
    | _ => true) &&
  (!es.contains (.stored p (.value v)) || undisturbedCheck p w a e)

theorem valueKeptCheck_sound [DecidableEq V] {v : V} {e : List (Event V)} (hq : NoQuit e)
    (h : valueKeptCheck p v es w a e = true) : ValueKept p v es w a e := by
  simp only [valueKeptCheck, Bool.and_eq_true, List.all_eq_true] at h
  refine ⟨hq, fun o ho => by simpa using h.1.1 _ ho, ?_, fun hst => ?_⟩
  · rintro i t₁ t₂ t₃ b k rfl hk
    simpa [hk] using h.1.2
  · exact undisturbedCheck_sound (by simpa [hst] using h.2)

/-- The wait that thread `i` is about to leave for `k` is the only one on `p`. -/
def LastWait (p : PromId) (w : World V) (i : ThreadId) (k : List (Frame V)) : Prop :=
  (∀ pc d, Frame.wait pc p d ∉ k) ∧ ∀ j c, (j, c) ≠ (i, w.cur i) → ∀ pc d, Frame.wait pc p d ∉ w.stack j c

/-- Steps of a run in which everybody who settles `p` calls `set_exception(x)`, and from its store on no wait on
`p` is disturbed, a wait that blocked is the last one when it ends, and none is started after it. -/
def ExceptionKept (p : PromId) (x : Error) (es : List (Event V)) (w : World V) (a : Action V)
    (e : List (Event V)) :
    Prop :=
  NoQuit e ∧ (∀ o, Event.setStart p o ∈ e → o = .error x) ∧
  (.stored p (.error x) ∈ es → WaitsUndisturbed p w a e ∧
    (∀ i t₁ t₂ t₃ d k, a = .run i t₁ t₂ t₃ → w.cpu i = .wait .finish p d :: k → LastWait p w i k) ∧
    ((w.prom p).error = none → ∀ i d, Event.waitStart i p d ∉ e))

structure ExceptionInv (p : PromId) (x : Error) (es : List (Event V)) (ph : Phase) (w : World V) : Prop where
  sane : Sane w
  alloc : Alloc ph w
  sets : ∀ j c pc o b, Frame.set pc p o b ∈ w.stack j c → o = .error x
  kept : .stored p (.error x) ∈ es → p < w.promCount ∧
    ((w.prom p).error = some x ∨ ((w.prom p).error = none ∧ ∀ j c pc d, Frame.wait pc p d ∉ w.stack j c))

theorem Move.exceptionInv {x : Error} {es₀ : List (Event V)} (hm : Move w₀ i ph w ph' w' es) (hq : NoQuit es)
    (hset : ∀ o, Event.setStart p o ∈ es → o = .error x)
    (hexp : .stored p (.error x) ∈ es₀ → ∀ i c, Event.expired i c p ∉ es)
    (hlast : .stored p (.error x) ∈ es₀ → ∀ d k b o, Event.waitDone i p d b o ∈ es → w₀.cpu i = .wait .finish p d :: k →
      LastWait p w₀ i k)
    (hstart : .stored p (.error x) ∈ es₀ → (w₀.prom p).error = none → ∀ i d, Event.waitStart i p d ∉ es)
    (h : ExceptionInv p x es₀ ph w) : ExceptionInv p x (es₀ ++ es) ph' w' := by
  have hstore : ∀ {pc o b k}, w.cpu i = .set pc p o b :: k → o = .error x ∧ p < w.promCount := by
    intro pc o b k hcpu
    have hmem : Frame.set pc p o b ∈ w.stack i (w.cur i) := by rw [stack_cur, hcpu]; simp
    exact ⟨h.sets i _ pc o b hmem, h.alloc.frames i _ p _ hmem rfl⟩
  refine ⟨hm.sane h.sane, hm.alloc hq h.sane.valid h.alloc, fun j c pc o b hf => ?_, fun hst => ?_⟩
  · rcases hm.set_frames h.sane.valid hf with ⟨pc', b', hf', -⟩ | ⟨rfl, he⟩
    · exact h.sets j c pc' o b' hf'
    · exact hset o he
  · have hle := hm.globals.2
    rcases List.mem_append.1 hst with hst₀ | hst
    · obtain ⟨hp, hkept⟩ := h.kept hst₀
      refine ⟨Nat.lt_of_lt_of_le hp hle, ?_⟩
      rcases hm.prom_cases hq p with ⟨he', -⟩ | ⟨rfl, -⟩ | ⟨-, ⟨d, k, e, hcpu, rfl, hstart', rfl, he'⟩ |
        ⟨e, b, k, hcpu, -, -, he'⟩ | ⟨c, v', -, -, -, rfl, -⟩⟩ | ⟨v', b, k, hcpu, -⟩
      · rw [he']
        refine hkept.imp id (fun ⟨he, hno⟩ => ⟨he, fun j c pc d hf => ?_⟩)
        rcases hm.wait_frames h.sane.valid hf with ⟨pc', hf'⟩ | hs
        · exact hno j c pc' d hf'
        · obtain ⟨t, -, rfl⟩ := hm.waitStart hs
          exact hstart hst₀ he i d hs
      · exact absurd hp (Nat.lt_irrefl _)
      · refine .inr ⟨he', fun j c pc d' hf => ?_⟩
        obtain ⟨t, -, rfl⟩ := hstart'
        obtain ⟨hk, hother⟩ := hlast hst₀ d k true (.error e) (by simp) hcpu
        have hstep : StackStep i (w₀.setNow t) (((w₀.setNow t).modProm p
          (fun q => { q with error := none })).setCpu i k) := ⟨fun _ => rfl, fun j hj => by simp [setCpu, modProm, hj], rfl⟩
        rw [hstep.stack] at hf
        split at hf
        · exact hk pc d' (by simpa using hf)
        · next hne => exact hother j c (fun he => hne (Prod.mk.inj he)) pc d' hf
      · obtain rfl := Outcome.error.inj (hstore hcpu).1
        exact .inl he'
      · exact absurd (by simp) (hexp hst₀ i c)
      · exact absurd (hstore hcpu).1 (by simp)
    · obtain ⟨-, ⟨b, k, hcpu⟩, -, hc, -, herr⟩ := hm.stored hst
      exact ⟨by rw [hc]; exact (hstore hcpu).2, .inl (herr x rfl).1⟩

theorem exceptionInv_init (p : PromId) (x : Error) : ExceptionInv p x [] .out (init : World V) := by
  refine ⟨sane_init, alloc_init, fun j c pc o b h => ?_, fun h => by cases h⟩
  simp only [stack] at h
  split at h <;> simp [init] at h

theorem ExceptionInv.step {x : Error} {e : List (Event V)} (h : ExceptionInv p x es .out w)
    (hs : w.step a = some (w', e)) (hok : ExceptionKept p x es w a e) : ExceptionInv p x (es ++ e) .out w' := by
  -- nothing but the store happens in the step that stores
  have hold : ∀ {y}, .stored p (.error x) ∈ es ++ e → y ∈ e → (∀ q o, y ≠ .stored q o) →
      .stored p (.error x) ∈ es := by
    intro y hst hy hne
    rcases List.mem_append.1 hst with hst | hst
    · exact hst
    · rw [step_stored hs hst] at hy
      exact absurd (List.mem_singleton.1 hy) (hne _ _)
  refine ((step_moves hs).inv_events es (fun es' ph w => ExceptionInv p x es' ph w ∧ ∀ x ∈ es', x ∈ es ++ e) ?_
    ⟨⟨h.sane, h.alloc.phase, h.sets, h.kept⟩, fun x hx => List.mem_append_left _ hx⟩).1
  rintro es₀ ph w₁ ph' w₂ e₁ hm he ⟨hI, hsub⟩
  refine ⟨hm.exceptionInv (fun j hj => hok.1 j (he _ hj)) (fun o ho => hok.2.1 o (he _ ho))
    (fun hst i c hc => ?_) (fun hst d k b o hd hcpu => ?_) (fun hst hn i d hd => ?_) hI, fun x hx => ?_⟩
  · exact (hok.2.2 (hold (hsub _ hst) (he _ hc) (by simp))).1.1 i c (he _ hc)
  · obtain ⟨t₁, t₂, t₃, t, ha, -⟩ := step_waitEnds hs (he _ hd)
    exact (hok.2.2 (hold (hsub _ hst) (he _ hd) (by simp))).2.1 _ t₁ t₂ t₃ d k ha hcpu
  · exact (hok.2.2 (hold (hsub _ hst) (he _ hd) (by simp))).2.2 hn i d (he _ hd)
  · rcases List.mem_append.1 hx with hx | hx
    · exact hsub x hx
    · exact List.mem_append_right _ (he x hx)

/-- Once an exception is stored, in such a run, every wait on the promise that ends throws it, and a wait that
starts does not block. -/
theorem exception_durable {x : Error} {e : List (Event V)} (h : Run step (ExceptionKept p x) init w es)
    (hst : .stored p (.error x) ∈ es) (hs : w.step a = some (w', e)) (hok : ExceptionKept p x es w a e) :
    (∀ i d b o, .waitDone i p d b o ∈ e → o = .error x) ∧
      ∀ i t₁ t₂ t₃ d k, a = .run i t₁ t₂ t₃ → w.cpu i = .wait .check p d :: k →
        e = [.waitDone i p d false (.error x)] := by
  have hI := h.inv (fun es w => ExceptionInv p x es .out w) (exceptionInv_init p x)
    (fun es w a w' e hI hok hs => hI.step hs hok)
  -- a wait in progress means that the error has not been taken away
  have herr : ∀ {i pc d k}, (w.cpu i = .wait pc p d :: k ∨ w.cpu i = .yield :: .wait pc p d :: k) →
      (w.prom p).error = some x := by
    intro i pc d k hk
    refine (hI.kept hst).2.resolve_right (fun hno => hno.2 i (w.cur i) pc d ?_)
    rw [stack_cur]
    rcases hk with hk | hk <;> simp [hk]
  refine ⟨fun i d b o hd => ?_, fun i t₁ t₂ t₃ d k ha hcpu => ?_⟩
  · have hwait : (w.prom p).error = some x := by
      obtain ⟨t₁, t₂, t₃, t, -, hends⟩ := step_waitEnds hs hd
      generalize hk : w.cpu i = k at hends
      cases hends with
      | cancelYield => exact herr (.inr hk)
      | _ => exact herr (.inl hk)
    rcases waitEnds_kept hs (hok.2.2 hst).1 hd with ⟨y, hy, rfl⟩ | ⟨hn, -⟩
    · rw [Option.some.inj (hwait.symm.trans hy)]
    · exact nomatch hwait.symm.trans hn
  · have herr' : ((w.setNow t₁).prom p).error = some x := herr (.inl hcpu)
    subst ha
    simp only [step] at hs
    split at hs
    · simp only [stepRun, hcpu, stepWait, herr'] at hs
      exact (Prod.mk.inj (Option.some.inj hs)).2.symm
    · cases hs

/-- Some frame of the stack is a wait on `p`. -/
def waitsOn (p : PromId) (k : List (Frame V)) : Bool := k.any fun
  | .wait _ q _ => q == p
  | _ => false

theorem waitsOn_of_mem {k : List (Frame V)} {pc : WaitPc} {d : Int} (h : Frame.wait pc p d ∈ k) :
    waitsOn p k = true :=
  List.any_eq_true.2 ⟨_, h, by simp⟩

/-- The check of `ExceptionKept` on the threads below `N`. -/
def exceptionKeptCheck (N : Nat) (p : PromId) (x : Error) (es : List (Event V)) (w : World V) (a : Action V)
    (e : List (Event V)) : Bool :=
  e.all (fun
    | .setStart q (.error y) => q != p || y == x
    | .setStart q _ => q != p
    | _ => true) &&
  (!(es.any fun
      | .stored q (.error y) => q == p && y == x
      | _ => false) ||
    (undisturbedCheck p w a e &&
    (match a with
      | .run i _ _ _ =>
        match w.cpu i with
        | .wait .finish q _ :: k => q != p || (!waitsOn p k && (List.range N).all fun j =>
            (List.range ((w.thr j).nctx + 1)).all fun c => (j, c) == (i, w.cur i) || !waitsOn p (w.stack j c))
        | _ => true
      | _ => true) &&
    ((w.prom p).error.isSome || e.all fun
      | .waitStart _ q _ => q != p
      | _ => true)))

theorem exceptionKeptCheck_sound {N : Nat} {x : Error} {e : List (Event V)} (hsmall : Small N w) (hq : NoQuit e)
    (h : exceptionKeptCheck N p x es w a e = true) : ExceptionKept p x es w a e := by
  simp only [exceptionKeptCheck, Bool.and_eq_true, Bool.or_eq_true, List.all_eq_true] at h
  refine ⟨hq, fun o ho => ?_, fun hst => ?_⟩
  · have := h.1 _ ho
    cases o <;> simp_all
  · obtain ⟨⟨h₁, h₂⟩, h₃⟩ := h.2.resolve_left (by simpa using ⟨_, hst, by simp⟩)
    refine ⟨undisturbedCheck_sound h₁, ?_, fun hn i d hd => ?_⟩
    · rintro i t₁ t₂ t₃ d k rfl hk
      simp only [hk, bne_self_eq_false, Bool.false_or, Bool.and_eq_true, List.all_eq_true, List.mem_range] at h₂
      refine ⟨fun pc d' hf => ?_, fun j c hne pc d' hf => ?_⟩
      · simpa [waitsOn_of_mem hf] using h₂.1
      · obtain ⟨hj, hc⟩ := hsmall.bound (i := j) (c := c) (fun e => by simp [e] at hf) (fun e => by simp [e] at hf)
        have := h₂.2 j hj c hc
        rw [waitsOn_of_mem hf, Bool.not_true, Bool.or_false, beq_iff_eq] at this
        exact hne this
    · simpa using (h₃.resolve_left (by simp [hn])) _ hd

/-- A context waits, another thread calls `set_exception`, and the wait throws what it was called with. -/
theorem exception_durable_after_block : ∃ (w w' : World Nat) (es e : List (Event Nat)) (a : Action Nat),
    Run step (ExceptionKept 0 (.other 3)) init w es ∧ .stored 0 (.error (.other 3)) ∈ es ∧
    w.step a = some (w', e) ∧
      .waitDone 0 0 20 true (.error (.other 3)) ∈ e ∧ ∀ i d b o, .waitDone i 0 d b o ∈ e →
      o = .error (.other 3) := by
  obtain ⟨w, es, w', e, h, hs, hok, he⟩ := step_of_small_exec (V := Nat) 2 (ExceptionKept 0 (.other 3))
    (fun es w a e => exceptionKeptCheck 2 0 (.other 3) es w a e)
    (fun es _ e => decide (.stored 0 (.error (.other 3)) ∈ es ∧ .waitDone 0 0 20 true (.error (.other 3)) ∈ e))
    [.call 0 0 .newPromise, .call 0 0 (.wait 0 20), .run 0 0 0 0, .run 0 0 0 0, .run 0 0 0 0,
      .call 1 0 (.set 0 (.error (.other 3))), .run 1 0 0 0, .run 1 0 0 0, .run 1 0 0 0, .run 0 0 0 0, .run 0 0 0 0,
      .run 0 0 0 0, .run 0 0 0 0, .run 0 0 0 0, .run 0 0 0 0]
    (.run 0 10 10 10) (fun _ _ _ _ hs hq hb => exceptionKeptCheck_sound hs hq hb) (by decide)
  obtain ⟨hst, he⟩ : _ ∧ _ := by simpa using he
  exact ⟨w, w', es, e, _, h, hst, hs, he, (exception_durable h hst hs hok).1⟩

/-- A second wait, started after the exception was stored, blocks, since the first one has taken the exception. -/
theorem exception_taken_by_first_wait : ∃ (w : World Nat) (es es' : List (Event Nat)),
    Run step (fun _ _ _ e => NoQuit e ∧ (∀ o, .setStart 0 o ∈ e → o = .error (.other 3)) ∧ ∀ i c, .expired i c 0 ∉ e)
      init w (es ++ es') ∧
      .stored 0 (.error (.other 3)) ∈ es ∧ .waitStart 0 0 timePointMax ∈ es' ∧ w.cur 0 ≠ 0 ∧
      w.stack 0 0 = [.wait .resumed 0 timePointMax, .user] := by
  obtain ⟨w, es, h, -, he⟩ := run_of_small_exec (V := Nat) 2
    (fun _ _ _ e => NoQuit e ∧ (∀ o, .setStart 0 o ∈ e → o = .error (.other 3)) ∧ ∀ i c, .expired i c 0 ∉ e)
    (fun _ _ _ e => e.all fun
      | .setStart 0 o => o == .error (.other 3)
      | .expired _ _ 0 => false
      | _ => true)
    (fun w es => decide (.stored 0 (.error (.other 3)) ∈ es.take 4 ∧ .waitStart 0 0 timePointMax ∈ es.drop 4 ∧
      w.cur 0 ≠ 0 ∧ w.stack 0 0 = [.wait .resumed 0 timePointMax, .user]))
    [.call 0 0 .newPromise, .call 0 0 (.wait 0 20), .run 0 0 0 0, .run 0 0 0 0, .run 0 0 0 0,
      .call 1 0 (.set 0 (.error (.other 3))), .run 1 0 0 0, .run 1 0 0 0, .run 1 0 0 0, .run 0 0 0 0, .run 0 0 0 0,
      .run 0 0 0 0, .run 0 0 0 0, .run 0 0 0 0, .run 0 0 0 0, .run 0 0 0 0, .call 0 0 (.wait 0 timePointMax),
      .run 0 0 0 0, .run 0 0 0 0, .run 0 0 0 0]
    (fun _ _ _ _ _ hq hb => ⟨hq, fun o ho => by simpa using List.all_eq_true.1 hb _ ho,
      fun i c hc => by simpa using List.all_eq_true.1 hb _ hc⟩) (by decide)
  refine ⟨w, es.take 4, es.drop 4, ?_, by simpa using he⟩
  rw [List.take_append_drop]
  exact h

end World

end BoostCmt
