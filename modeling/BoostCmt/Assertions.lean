import BoostCmt.Promises
/-!
# The assertions of `notify`

`promise_base::notify` and `thread::notify` assert `ready()`. Between the store of
`set_value` or `set_exception` and these assertions other threads go on, and a posted
`notify` may wait in a queue for long; meanwhile a wait that blocked can take the
error out of the promise again. The assertions hold as long as that happens only when
nothing is left to be notified.

The scheduler's own `set_exception` stores and notifies in one step.
-/

namespace BoostCmt

open ThreadPrivate Runs

variable {V : Type}

namespace World

variable {w₀ w w' : World V} {i : ThreadId} {ph ph' : Phase} {es : List (Event V)} {a : Action V} {p : PromId}

/-- Somebody has stored into `p` and not notified yet, or a posted `notify` of `p` is queued. -/
def Announces (w : World V) (p : PromId) : Prop :=
  (∃ j c pc o b, Frame.set pc p o b ∈ w.stack j c ∧ pc ≠ .store) ∨
    ∃ j, ∃ t ∈ (w.thr j).tasks, t.body = .notify p

/-- A wait takes an error out of a promise only if the promise also holds a value or nobody announces it. -/
def TakesLast (w : World V) (a : Action V) : Prop :=
  ∀ i t₁ t₂ t₃ p d k, a = .run i t₁ t₂ t₃ → w.cpu i = .wait .finish p d :: k → (w.prom p).error ≠ none →
    (w.prom p).value ≠ none ∨ ¬ Announces w p

/-- Whatever is announced is ready. -/
structure Announced (ph : Phase) (w : World V) : Prop where
  sane : Sane w
  alloc : Alloc ph w
  enqueued : ∀ p, (w.prom p).blockedThread ≠ none → p < w.promCount
  frames : ∀ j c pc p o b, Frame.set pc p o b ∈ w.stack j c → pc ≠ .store → (w.prom p).ready = true
  queues : ∀ j p, ∀ t ∈ (w.thr j).tasks, t.body = .notify p → p < w.promCount ∧ (w.prom p).ready = true
  hand : ∀ t p, ph = .hand t → t.body = .notify p → p < w.promCount ∧ (w.prom p).ready = true

/-- A promise stays ready until a wait takes its error. -/
theorem Move.ready_later (hm : Move w₀ i ph w ph' w' es) (hq : NoQuit es) (hp : p < w.promCount)
    (h : (w.prom p).ready = true) :
    (w'.prom p).ready = true ∨
      ∃ d k e, AtStart w₀ w ∧ w.cpu i = .wait .finish p d :: k ∧ (w.prom p).value = none ∧
      (w.prom p).error ≠ none ∧
        es = [.waitDone i p d true (.error e)] := by
  rcases hm.prom_cases hq p with ⟨he, hv⟩ | ⟨rfl, -⟩ | ⟨hv, ⟨d, k, e, hcpu, -, hst, hes, he⟩ | ⟨e, b, k, -, -, -, he⟩ |
    ⟨c, v, -, -, -, -, he⟩⟩ | ⟨v, b, k, -, -, -, -, -, hv⟩
  · exact .inl (by rw [Promise.ready, he, hv]; exact h)
  · exact absurd hp (Nat.lt_irrefl _)
  · cases hval : (w.prom p).value with
    | none =>
      refine .inr ⟨d, k, e, hst, hcpu, rfl, fun he => ?_, hes⟩
      simp [Promise.ready, he, hval] at h
    | some v => exact .inl (by simp [Promise.ready, hv, hval])
  · exact .inl (by simp [Promise.ready, he])
  · exact .inl (by simp [Promise.ready, he])
  · exact .inl (by simp [Promise.ready, hv])

/-- Waits end in the first move of a step. -/
theorem Move.waitDone_start (hm : Move w₀ i ph w ph' w' es) {j : ThreadId} {d : Int} {b : Bool} {o : Outcome V}
    (h : Event.waitDone j p d b o ∈ es) : ph = .start := by
  cases hm with
  | drain _ hpc =>
    obtain ⟨dl, hx⟩ := drain_event hpc h
    cases hx
  | runTask _ hr =>
    obtain ⟨q, hx⟩ := runTask_event hr h
    cases hx
  | stackTop | finishError => rfl
  | _ => simp at h

theorem Move.announced (hm : Move w₀ i ph w ph' w' es) (hq : NoQuit es)
    (hok : ∀ p d k e, AtStart w₀ w → w.cpu i = .wait .finish p d :: k → (w.prom p).error ≠ none →
      es = [.waitDone i p d true (.error e)] → (w.prom p).value ≠ none ∨ ¬ Announces w p)
    (h : Announced ph w) : Announced ph' w' := by
  have hle := hm.globals.2
  -- what is announced in `w` stays ready
  have hkeep : ∀ p, p < w.promCount → (w.prom p).ready = true → Announces w p ∨ (∃ t, ph = .hand t) →
      (w'.prom p).ready = true := by
    intro p hp hr hann
    rcases hm.ready_later hq hp hr with h' | ⟨d, k, e, hst, hcpu, hnone, herr, hes⟩
    · exact h'
    · rcases hann with hann | ⟨t, rfl⟩
      · exact absurd hann ((hok p d k e hst hcpu herr hes).resolve_left (by simp [hnone]))
      · have : Phase.hand t = .start := hm.waitDone_start (p := p) (by rw [hes]; exact List.mem_singleton_self _)
        cases this
  have hframe : ∀ {j c pc p o b}, Frame.set pc p o b ∈ w.stack j c → pc ≠ .store →
      p < w.promCount ∧ (w'.prom p).ready = true := by
    intro j c pc p o b hf hpc
    have hp := h.alloc.frames j c p _ hf rfl
    exact ⟨hp, hkeep p hp (h.frames j c pc p o b hf hpc) (.inl (.inl ⟨j, c, pc, o, b, hf, hpc⟩))⟩
  have hqueue : ∀ {j p t}, t ∈ (w.thr j).tasks → t.body = .notify p → p < w'.promCount ∧
      (w'.prom p).ready = true := by
    intro j p t ht hb
    obtain ⟨hp, hr⟩ := h.queues j p t ht hb
    exact ⟨Nat.lt_of_lt_of_le hp hle, hkeep p hp hr (.inl (.inr ⟨j, t, ht, hb⟩))⟩
  refine ⟨hm.sane h.sane, hm.alloc hq h.sane.valid h.alloc, fun p hp => ?_, fun j c pc p o b hf hpc => ?_,
    fun j p t ht hb => ?_, fun t p hph hb => ?_⟩
  · rcases hm.blockedThread_cases hq p with e | ⟨-, e⟩ | ⟨d, k, -, hcpu, -⟩
    · exact Nat.lt_of_lt_of_le (h.enqueued p (e ▸ hp)) hle
    · exact absurd e hp
    · have hmem : Frame.wait .check p d ∈ w.stack i (w.cur i) := by rw [stack_cur, hcpu]; exact List.mem_cons_self
      exact Nat.lt_of_lt_of_le (h.alloc.frames i _ p _ hmem rfl) hle
  · rcases hm.set_frames h.sane.valid hf with ⟨pc', b', hf', hst⟩ | ⟨hs, -⟩
    · by_cases hpc' : pc' = .store
      · obtain ⟨-, -, -, -, hval, herr⟩ := hm.stored ((hst hpc').resolve_left hpc)
        cases o with
        | value v => simp [Promise.ready, (hval v rfl).2]
        | error e => simp [Promise.ready, (herr e rfl).1]
      · exact (hframe hf' hpc').2
    · exact absurd hs hpc
  · rcases hm.tasks hq j with hperm | ⟨-, t', -, hperm⟩ | ⟨t', ⟨-, -, hbody⟩, he⟩
    · exact hqueue (hperm.symm.subset ht) hb
    · exact hqueue (hperm.symm.subset (List.mem_cons_of_mem _ ht)) hb
    · rw [he] at ht
      rcases List.mem_cons.1 ht with rfl | ht
      · rcases hbody with ⟨hb', -⟩ | hb' | ⟨q, hb', -, hfrom⟩ <;> rw [hb] at hb'
        · cases hb'
        · cases hb'
        · obtain rfl := TaskBody.notify.inj hb'
          rcases hfrom with ⟨o, b, k, hcpu⟩ | ⟨hbt, c, hes⟩
          · obtain ⟨hp, hr⟩ := hframe (j := i) (c := w.cur i) (by rw [stack_cur, hcpu]; exact List.mem_cons_self) (by simp)
            exact ⟨Nat.lt_of_lt_of_le hp hle, hr⟩
          · refine ⟨Nat.lt_of_lt_of_le (h.enqueued p (by simp [hbt])) hle, ?_⟩
            have he := hm.expired_error (c := c) (p := p) (j := i) (by rw [hes]; exact List.mem_singleton_self _)
            simp [Promise.ready, he]
      · exact hqueue ht hb
  · subst hph
    rcases hm.hand_from with rfl | hmem
    · obtain ⟨hp, hr⟩ := h.hand t p rfl hb
      exact ⟨Nat.lt_of_lt_of_le hp hle, hkeep p hp hr (.inr ⟨t, rfl⟩)⟩
    · exact hqueue hmem hb

/-! ## Where the assertions are -/

/-- The `notify` that `process_tasks` takes from its queues and runs, with the state in which it starts. -/
def runsNotify (w : World V) (i : ThreadId) (t₁ t₂ t₃ : Int) (pc : ProcPc) : Option (PromId × World V) :=
  let body (t : Task) (w : World V) : Option (PromId × World V) :=
    match t.body with
    | .notify p => some (p, w)
    | _ => none
  match pc with
  | .again => do
    let (_, w, _) ← (w.setNow t₁).checkForTimeouts i
    match w.dequeue i t₂ t₃ with
    | (some t, w) => body t w
    | (none, _) => none
  | .start | .switched | .lock =>
    if pc = .switched ∧ w.currentCanceled i then none
    else
      match w.dequeue i t₁ t₂ with
      | (some t, w) =>
        if (w.thr i).done then none
        else do
          let (_, w, _) ← (w.setNow t₃).checkForTimeouts i
          body t w
      | (none, _) => none
  | _ => none

/-- The promise of which the step asserts that it is ready, with the state in which it does. -/
def notifyAsserts (w : World V) : Action V → Option (PromId × World V)
  | .run i t₁ t₂ t₃ =>
    if w.now ≤ t₁ ∧ t₁ ≤ t₂ ∧ t₂ ≤ t₃ ∧ t₃ ≤ timePointMax then
      match w.cpu i with
      | .set .notify p _ _ :: _ => some (p, w)
      | .set (.post _) p _ _ :: _ => some (p, w)
      | .processTasks pc _ :: _ => w.runsNotify i t₁ t₂ t₃ pc
      | _ => none
    else none
  | _ => none

/-- `process_tasks` gets to the `notify` that it runs by moves, with the task in hand. -/
theorem runsNotify_moves {pc : ProcPc} {tm t₁ t₂ t₃ : Int} {k : List (Frame V)} {u : World V}
    (hcpu : w.cpu i = .processTasks pc tm :: k) (h₁ : w.now ≤ t₁) (h₂ : t₁ ≤ t₂) (h₃ : t₂ ≤ t₃) (hmax : t₃ ≤ timePointMax)
    (h : w.runsNotify i t₁ t₂ t₃ pc = some (p, u)) :
    ∃ t e, Moves w i .start w (.hand t) u e ∧ NoQuit e ∧ t.body = .notify p ∧
    ∀ q d b o, Event.waitDone i q d b o ∉ e := by
  have hbody : ∀ {t : Task} {w₁ : World V}, (match t.body with
      | .notify p => some (p, w₁)
      | _ => none) = some (p, u) → t.body = .notify p ∧ w₁ = u := by
    intro t w₁ h
    split at h
    · next q hb =>
      obtain ⟨rfl, rfl⟩ := Prod.mk.inj (Option.some.inj h)
      exact ⟨hb, rfl⟩
    · cases h
  have hevents : ∀ {w₁ w₂ : World V} {tm : Int} {e : List (Event V)}, w₁.checkForTimeouts i = some (tm, w₂, e) →
      NoQuit e ∧ ∀ q d b o, Event.waitDone i q d b o ∉ e := by
    intro w₁ w₂ tm e hc
    refine ⟨fun j hj => ?_, fun q d b o hj => ?_⟩ <;>
      obtain ⟨c, r, hx⟩ := checkForTimeouts_events hc hj <;> cases hx
  have hdeq : pc = .start ∨ pc = .switched ∨ pc = .lock → ∃ t e, Moves w i .start w (.hand t) u e ∧ NoQuit e ∧
      t.body = .notify p ∧ ∀ q d b o, Event.waitDone i q d b o ∉ e := by
    intro hpc
    have h : (match w.dequeue i t₁ t₂ with
      | (some t, w) =>
        if (w.thr i).done then none
        else do
          let (_, w, _) ← (w.setNow t₃).checkForTimeouts i
          match t.body with
          | .notify p => some (p, w)
          | _ => none
      | (none, _) => none) = some (p, u) := by
      rcases hpc with rfl | rfl | rfl
      · simpa [runsNotify] using h
      · simp only [runsNotify, true_and] at h
        split at h
        · cases h
        · exact h
      · simpa [runsNotify] using h
    cases hd : (w.thr i).dequeue t₁ t₂ with
    | mk o s =>
      have hw : w.dequeue i t₁ t₂ = (o, w.setThr i s) := by simp [World.dequeue, hd]
      rw [hw] at h
      cases o with
      | none => cases h
      | some t =>
        dsimp only at h
        split at h
        · cases h
        · simp only [Option.bind_eq_bind, Option.bind_eq_some_iff] at h
          obtain ⟨⟨tm', w₁, e⟩, hc, h⟩ := h
          obtain ⟨hb, rfl⟩ := hbody h
          have hm := (checkForTimeouts_moves w (show Phase.hand t ≠ .start by simp) hc).1
          have hck : Move w i (.hand t) (w.setThr i s) (.hand t) ((w.setThr i s).setNow t₃) [] :=
            .clock (by show w.now ≤ t₃; omega) hmax
          have hpc' : pc = .start ∨ pc = .again ∨ pc = .switched ∨ pc = .lock := by
            rcases hpc with h | h | h <;> simp [h]
          refine ⟨t, e, ?_, (hevents hc).1, hb, (hevents hc).2⟩
          simpa using Moves.cons .go (.cons (.dequeue hcpu hpc' h₁ h₂ hd) (.cons hck hm))
  cases pc with
  | start => exact hdeq (.inl rfl)
  | switched => exact hdeq (.inr (.inl rfl))
  | lock => exact hdeq (.inr (.inr rfl))
  | again =>
    simp only [runsNotify, Option.bind_eq_bind, Option.bind_eq_some_iff] at h
    obtain ⟨⟨tm', w₁, e⟩, hc, h⟩ := h
    have hf := checkForTimeouts_frame hc
    have hm := (checkForTimeouts_moves w (show Phase.out ≠ .start by simp) hc).1
    cases hd : (w₁.thr i).dequeue t₂ t₃ with
    | mk o s =>
      have hw : w₁.dequeue i t₂ t₃ = (o, w₁.setThr i s) := by simp [World.dequeue, hd]
      dsimp only at h
      rw [hw] at h
      cases o with
      | none => cases h
      | some t =>
        obtain ⟨hb, rfl⟩ := hbody h
        have hcpu₁ : w₁.cpu i = .processTasks .again tm :: k := (congrFun hf.cpu i).trans hcpu
        have hnow : w₁.now = t₁ := hf.now
        refine ⟨t, e, ?_, (hevents hc).1, hb, (hevents hc).2⟩
        have hdq : Move w i .out w₁ (.hand t) (w₁.setThr i s) [] :=
          .dequeue hcpu₁ (.inr (.inl rfl)) (by omega) h₃ hd
        simpa using Moves.cons .go (.cons (.clock h₁ (by omega)) (hm.append (.single hdq)))
  | _ => cases h

/-! ## Runs -/

theorem Announced.step {e : List (Event V)} (h : Announced .out w) (hs : w.step a = some (w', e)) (hq : NoQuit e)
    (hok : TakesLast w a) : Announced .out w' := by
  refine (step_moves hs).inv (fun ph w => Announced ph w) ?_
    ⟨h.sane, h.alloc.phase, h.enqueued, h.frames, h.queues, by simp⟩
  intro ph w₁ ph' w₂ e₁ hm he hI
  refine hm.announced (fun j hj => hq j (he _ hj)) (fun p d k er hst hcpu herr hes => ?_) hI
  -- the wait ends in the state before the step
  obtain ⟨t, -, rfl⟩ := hst
  have hcpu : w.cpu a.thread = .wait .finish p d :: k := hcpu
  have hmem : Event.waitDone a.thread p d true (.error er) ∈ e :=
    he _ (by rw [hes]; exact List.mem_singleton_self _)
  rcases step_library hs (by simp [hcpu, external]) with ⟨t₁, t₂, t₃, ha⟩ | hexp
  · exact hok _ t₁ t₂ t₃ p d k ha hcpu herr
  · obtain ⟨c, q, hx⟩ := hexp _ hmem
    cases hx

theorem announced_init : Announced .out (init : World V) := by
  refine ⟨sane_init, alloc_init, fun p hp => absurd rfl hp, fun j c pc p o b hf => ?_,
    fun j p t ht => by simp [init, ThreadPrivate.tasks] at ht, fun t p h => by cases h⟩
  simp only [stack] at hf
  split at hf <;> simp [init] at hf

theorem announced_run (h : Run step (fun _ w a e => NoQuit e ∧ TakesLast w a) init w es) : Announced .out w :=
  h.inv (fun _ w => Announced .out w) announced_init (fun _ _ _ _ _ hI hok hs => hI.step hs hok.1 hok.2)

/-- No wait takes an error out of a promise that holds no value. -/
def takesNothing (w : World V) (a : Action V) : Bool :=
  match a with
  | .run i _ _ _ =>
    match w.cpu i with
    | .wait .finish p _ :: _ => (w.prom p).error.isNone || (w.prom p).value.isSome
    | _ => true
  | _ => true

theorem takesNothing_sound (h : takesNothing w a = true) : TakesLast w a := by
  rintro i t₁ t₂ t₃ p d k rfl hcpu herr
  simp only [takesNothing, hcpu, Bool.or_eq_true, Option.isNone_iff_eq_none, Option.isSome_iff_ne_none] at h
  exact .inl (h.resolve_left herr)

end World

end BoostCmt
