import BoostCmt.Delivery
/-!
# A promise of one wait

`cmt::wait` on a signal and the calls of the socket streambuf make a promise of
their own, hand `set_value` out to other code and wait on the promise without a
deadline. Such a promise is waited on by the context that made it, and holds the
value that was stored last; the wait does not throw, and it ends only once a
value is stored.
-/

namespace BoostCmt

variable {V : Type}

/-- The promise that the code outside the library names in a call. -/
def Action.names : Action V → Option PromId
  | .call _ _ (.wait p _) => some p
  | .call _ _ (.set p _) => some p
  | .call _ _ (.cancel p) => some p
  | _ => none

namespace World

variable {w₀ w w' : World V} {i : ThreadId} {ph ph' : Phase} {es e : List (Event V)} {a : Action V} {p : PromId}

/-! ## Whose calls name a promise -/

/-- Only `wait` and `sync` start to wait. -/
theorem stepCall_waitStart {t : Int} {k : List (Frame V)} {c : Call V} {j : ThreadId} {d : Int}
    (h : w.stepCall i t k c = some (w', es)) (he : .waitStart j p d ∈ es) :
    j = i ∧ (c = .wait p d ∨ p = w.promCount) := by
  have hexp : ∀ {u : World V} {r : Bool} {k' : List (Frame V)}, u.startNextTask i r k' = some (w', es) →
      j = i ∧ (c = .wait p d ∨ p = w.promCount) := by
    intro u r k' hn
    obtain ⟨c', q, hx⟩ := startNextTask_events hn he
    cases hx
  cases c with
  | newPromise | async | asyncVoid | scheduleVoid | exec =>
    obtain ⟨-, rfl⟩ := Prod.mk.inj (Option.some.inj h)
    cases he
  | wait q d' =>
    simp only [stepCall] at h
    split at h
    · obtain ⟨-, rfl⟩ := Prod.mk.inj (Option.some.inj h)
      obtain ⟨rfl, rfl, rfl⟩ : j = i ∧ p = q ∧ d = d' := by simpa using he
      exact ⟨rfl, .inl rfl⟩
    · cases h
  | set q o =>
    simp only [stepCall] at h
    split at h
    · obtain ⟨-, rfl⟩ := Prod.mk.inj (Option.some.inj h)
      simp at he
    · cases h
  | cancel q =>
    simp only [stepCall] at h
    split at h
    · split at h <;> (obtain ⟨-, rfl⟩ := Prod.mk.inj (Option.some.inj h); cases he)
    · cases h
  | sleepUntil tp =>
    simp only [stepCall] at h
    split at h
    · obtain ⟨-, rfl⟩ := Prod.mk.inj (Option.some.inj h)
      cases he
    · exact hexp h
  | yield => exact hexp h
  | quit =>
    obtain ⟨u, -, hu⟩ := Option.map_eq_some_iff.1 h
    obtain ⟨-, rfl⟩ := Prod.mk.inj hu
    simp at he
  | sync ov j' prio d' =>
    obtain ⟨-, rfl⟩ := Prod.mk.inj (Option.some.inj h)
    obtain ⟨rfl, hp, -⟩ : j = i ∧ p = _ ∧ d = d' := by simpa using he
    exact ⟨rfl, .inr hp⟩

/-- A wait on a promise that exists starts with a call of `wait`. -/
theorem waitStart_call (hs : w.step a = some (w', e)) {j : ThreadId} {d : Int} (h : .waitStart j p d ∈ e)
    (hp : p < w.promCount) : ∃ t, a = .call j t (.wait p d) := by
  have hx := step_waitStart hs h
  cases a with
  | tick t =>
    simp only [step] at hs
    split at hs
    · obtain ⟨-, rfl⟩ := Prod.mk.inj (Option.some.inj hs)
      cases h
    · cases hs
  | run i t₁ t₂ t₃ => exact absurd hx (step_external hs (.inl ⟨_, _, _, _, rfl⟩))
  | contend i t => exact absurd hx (step_external hs (.inr ⟨_, _, rfl⟩))
  | call i t c =>
    obtain ⟨rfl, rfl | rfl⟩ := stepCall_waitStart (step_call hs).2 h
    · exact ⟨t, rfl⟩
    · exact absurd hp (Nat.lt_irrefl _)
  | finish i o =>
    simp only [step] at hs
    split at hs
    · next t k hk =>
      simp only [finish] at hs
      split at hs <;> (obtain ⟨-, rfl⟩ := Prod.mk.inj (Option.some.inj hs); simp at h)
    · cases hs

/-- The library settles `p` for a task of `p` only, or when a context is cancelled inside of a call on `p`. -/
theorem Move.not_settled (hm : Move w₀ i ph w ph' w' es) (huser : NotByUser p w₀ i w' es)
    (hidle : ∀ x, held (settles p) ph w x = 0)
    (hmark : (∃ f ∈ w₀.cpu i, f.refers p) → w₀.currentCanceled i = false) (o : Outcome V) : .setStart p o ∉ es := by
  intro h
  cases hm with
  | stackTop hs hl =>
    obtain ⟨t₀, -, rfl⟩ := hs
    generalize hk : (w₀.setNow t₀).cpu i = k₀ at hl
    have hk' : w₀.cpu i = k₀ := hk
    cases hl with
    | callSet hx =>
      obtain ⟨rfl, rfl⟩ : p = _ ∧ o = _ := by simpa using h
      exact absurd (by rw [hk']; simp) (huser o (by simp) (by rwa [hk']))
    | @finishSet t _ _ _ k hb =>
      obtain ⟨rfl, rfl⟩ : p = _ ∧ o = _ := by simpa using h
      have hz := hidle (.stack i ((w₀.setNow t₀).cur i))
      simp only [held, stack_cur, hk] at hz
      simp [Frame.functor, settles, hb] at hz
    | raiseYield hc =>
      rcases List.mem_append.1 h with h | h
      · obtain ⟨c, hx, -⟩ := raise_events h
        cases hx
      · have hin : ∃ f ∈ w₀.cpu i, f.refers p := by
          rw [hk']
          unfold unwind at h
          split at h
          · simp at h
          · obtain ⟨rfl, rfl⟩ : p = _ ∧ o = _ := by simpa using h
            exact ⟨_, List.mem_cons_of_mem _ List.mem_cons_self, rfl⟩
          · cases h
          · cases h
        have hc : w₀.currentCanceled i = true := hc
        rw [hmark hin] at hc
        cases hc
    | raiseSwitched | raiseSleep =>
      obtain ⟨c, hx, -⟩ := raise_events h
      cases hx
    | raiseWait =>
      rcases List.mem_append.1 h with h | h
      · obtain ⟨c, hx, -⟩ := raise_events h
        cases hx
      · simp at h
    | _ => simp at h
  | @runTask _ _ t _ _ k _ hcpu hr =>
    have hz := hidle .hand
    simp [held, settles, (runTask_setStart hr h).2.1] at hz
  | drain _ hpc =>
    obtain ⟨dl, hx⟩ := drain_event hpc h
    cases hx
  | _ => simp at h

/-! ## A promise that is settled by values -/

/-- The values stored into `p`, the first one first. -/
def storedValues (p : PromId) (es : List (Event V)) : List V :=
  es.filterMap fun
    | .stored q (.value v) => if q = p then some v else none
    | _ => none

@[simp] theorem storedValues_nil (p : PromId) : storedValues (V := V) p [] = [] := rfl

theorem storedValues_append (p : PromId) (es e : List (Event V)) :
    storedValues p (es ++ e) = storedValues p es ++ storedValues p e := List.filterMap_append

theorem mem_storedValues {v : V} : v ∈ storedValues p es ↔ .stored p (.value v) ∈ es := by
  simp only [storedValues, List.mem_filterMap]
  constructor
  · rintro ⟨x, hx, hv⟩
    split at hv
    · split at hv
      · next h =>
        obtain rfl := Option.some.inj hv
        exact h ▸ hx
      · cases hv
    · cases hv
  · exact fun h => ⟨_, h, by simp⟩

/-- Whoever has been told of a promise can only have been told of one that exists. -/
def SignalsExist (ph : Phase) (w : World V) : Prop := ∀ p, Signalled ph w p → p < w.promCount

/-- `p` is waited on by the context `home`, without a deadline, and settled by `set_value` with values of `S`. The
context that goes on in the wait finds the value that was stored last. -/
structure Slot (p : PromId) (home : ThreadId × CtxId) (S : V → Prop) (es : List (Event V)) (ph : Phase)
    (w : World V) (i : ThreadId) : Prop extends Enrolled p ph w i where
  lt : p < w.promCount
  waits : ∀ j c pc d, Frame.wait pc p d ∈ w.stack j c → (j, c) = home ∧ d = timePointMax
  sets : ∀ j c pc o b, Frame.set pc p o b ∈ w.stack j c → ∃ v, o = .value v ∧ S v
  idle : ∀ x, held (settles p) ph w x = 0
  noError : (w.prom p).error = none
  value : (w.prom p).value = (storedValues p es).getLast?
  stored : ∀ v ∈ storedValues p es, S v
  signalled : Signalled ph w p → (w.prom p).ready = true
  awake : ∀ j c pc d k, w.stack j c = .wait pc p d :: k →
    pc = .finish ∨ (pc = .resumed ∧ ¬ (w.thr j).BlockedOn p c) → (w.prom p).ready = true

section Slot
variable {home : ThreadId × CtxId} {S S' : V → Prop} {es₀ : List (Event V)}

theorem Slot.mono (h : Slot p home S es ph w i) (hS : ∀ v, S v → S' v) : Slot p home S' es ph w i :=
  { h with
    sets := fun j c pc o b hf => (h.sets j c pc o b hf).imp fun v hv => ⟨hv.1, hS v hv.2⟩
    stored := fun v hv => hS v (h.stored v hv) }

theorem Slot.alone (h : Slot p home S es ph w i) : AloneWait p w := by
  intro j c j' c' d d' hw hw'
  obtain ⟨pc, hk⟩ := mem_of_waitOf hw
  obtain ⟨pc', hk'⟩ := mem_of_waitOf hw'
  exact (h.waits j c pc d hk).1.trans (h.waits j' c' pc' d' hk').1.symm

/-- The deadline `time_point::max()` does not pass. -/
theorem Move.slot_inTime (hm : Move w₀ i ph w ph' w' es) (h : Slot p home S es₀ ph w i) (c : CtxId) :
    .expired i c p ∉ es := by
  intro hx
  obtain ⟨-, d, k, hk, -, hd⟩ := hm.expired_wait h.placed hx
  exact hd (h.waits i c .resumed d (by rw [hk]; exact List.mem_cons_self)).2

/-- Promises come to exist, and nobody is told of one before. -/
theorem Move.signalsExist (hm : Move w₀ i ph w ph' w' es) (hq : NoQuit es) (ho : Orderly ph w i) (ha : Alloc ph w)
    (h : SignalsExist ph w) : SignalsExist ph' w' := by
  intro q hs
  have hle := hm.globals.2
  by_cases hexp : ∃ c, .expired i c q ∈ es
  · obtain ⟨c, hx⟩ := hexp
    obtain ⟨-, d, k, hk, -⟩ := hm.expired_wait ho.placed hx
    exact Nat.lt_of_lt_of_le (ha.frames i c q (.wait .resumed q d) (by rw [hk]; exact List.mem_cons_self) rfl) hle
  · rcases hm.signalled_from hq ho.sane.valid (fun c hx => hexp ⟨c, hx⟩) hs with hs | ⟨-, f, hf, href⟩
    · exact Nat.lt_of_lt_of_le (h q hs) hle
    · exact Nat.lt_of_lt_of_le (ha.frames i (w.cur i) q f (by rwa [stack_cur]) href) hle

/-- A value that `p` holds is stored over, but not taken away. -/
theorem Move.slot_ready (hm : Move w₀ i ph w ph' w' es) (hq : NoQuit es) (h : Slot p home S es₀ ph w i)
    (hr : (w.prom p).ready = true) : (w'.prom p).ready = true := by
  rcases hm.ready_kept hq h.lt hr with hr | ⟨d, k, e, -, hcpu, -, rfl⟩
  · exact hr
  · obtain ⟨-, -, hends⟩ := hm.waitEnds (List.mem_singleton_self _)
    rw [hcpu] at hends
    cases hends with
    | error _ he => rw [h.noError] at he; cases he
    | none he hv => simp [Promise.ready, he, hv] at hr

theorem Move.slot (hm : Move w₀ i ph w ph' w' es) (hq : NoQuit es) (hone : OneTimed w₀) (halone : AloneWait p w₀)
    (hwait : ∀ d, .waitStart i p d ∈ es → (i, w.cur i) = home ∧ d = timePointMax)
    (hset : ∀ o, .setStart p o ∈ es → ∃ v, o = .value v ∧ S v) (h : Slot p home S es₀ ph w i) :
    Slot p home S (es₀ ++ es) ph' w' i where
  toEnrolled := hm.enrolled hq hone halone h.toEnrolled
  lt := Nat.lt_of_lt_of_le h.lt hm.globals.2
  waits := by
    intro j c pc d hf
    rcases hm.frame_from h.sane.valid hf with hf | hf | ⟨rfl, rfl, hnew⟩
    · exact h.waits j c pc d hf
    · cases hf
    · cases hnew with
      | waitStart he => exact hwait d he
      | @wait pc' _ _ _ k hcpu => exact h.waits j _ pc' d (by rw [stack_cur, hcpu]; exact List.mem_cons_self)
  sets := by
    intro j c pc o b hf
    rcases hm.set_frames h.sane.valid hf with ⟨pc', b', hf, -⟩ | ⟨-, ho⟩
    · exact h.sets j c pc' o b' hf
    · exact hset o ho
  idle := by
    refine hm.none_held hq h.sane.valid (fun j t hp => ?_) h.idle
    rcases hp.2.2 with ⟨hb, -⟩ | hb | ⟨q, hb, -⟩
    · simp only [settles, hb, beq_eq_false_iff_ne, ne_eq, TaskBody.rtask.injEq]
      exact Nat.ne_of_gt h.lt
    · simp [settles, hb]
    · simp [settles, hb]
  noError := by
    rcases hm.prom_cases hq p with ⟨he, -⟩ | ⟨-, he, -⟩ |
      ⟨-, ⟨d, k, e', -, -, -, -, he⟩ | ⟨x, b, k, hcpu, -⟩ | ⟨c, v, -, -, -, hx, -⟩⟩ | ⟨v, b, k, -, -, -, -, he, -⟩
    · exact he.trans h.noError
    · exact he
    · exact he
    · obtain ⟨v, hv, -⟩ :=
        h.sets i (w.cur i) .store (.error x) b (by rw [stack_cur, hcpu]; exact List.mem_cons_self)
      cases hv
    · exact absurd (by rw [hx]; exact List.mem_singleton_self _) (hm.slot_inTime h c)
    · exact he
  value := by
    -- the stores of a move are its only effect on the value
    have hold : (w'.prom p).value = (w.prom p).value → (∀ v, .stored p (.value v) ∉ es) →
        (w'.prom p).value = (storedValues p (es₀ ++ es)).getLast? := by
      intro hv hno
      have hnil : storedValues p es = [] :=
        List.eq_nil_iff_forall_not_mem.2 fun v hv => hno v (mem_storedValues.1 hv)
      rw [storedValues_append, hnil, List.append_nil, hv, h.value]
    by_cases hst : ∃ v, .stored p (.value v) ∈ es
    · obtain ⟨v, hv⟩ := hst
      obtain ⟨-, -, rfl, -, hval, -⟩ := hm.stored hv
      rw [storedValues_append, (hval v rfl).2]
      simp [storedValues]
    · have hno : ∀ v, .stored p (.value v) ∉ es := fun v hv => hst ⟨v, hv⟩
      rcases hm.prom_cases hq p with ⟨-, hv⟩ | ⟨rfl, -⟩ | ⟨hv, -⟩ | ⟨v, b, k, -, -, he, -⟩
      · exact hold hv hno
      · exact absurd h.lt (Nat.lt_irrefl _)
      · exact hold hv hno
      · exact absurd (by rw [he]; exact List.mem_singleton_self _) (hno v)
  stored := by
    intro v hv
    rcases List.mem_append.1 (storedValues_append p es₀ es ▸ hv) with hv | hv
    · exact h.stored v hv
    · obtain ⟨-, ⟨b, k, hcpu⟩, -⟩ := hm.stored (mem_storedValues.1 hv)
      obtain ⟨v', hv', hS⟩ :=
        h.sets i (w.cur i) .store (.value v) b (by rw [stack_cur, hcpu]; exact List.mem_cons_self)
      exact Outcome.value.inj hv' ▸ hS
  signalled := by
    intro hs
    rcases hm.signalled_from hq h.sane.valid (hm.slot_inTime h) hs with hs | ⟨hr, -⟩
    · exact hm.slot_ready hq h (h.signalled hs)
    · exact hr
  awake := by
    intro j c pc d k hk hpc
    rcases hm.awake_from hq hone (hm.slot_inTime h) h.toOrderly hk hpc with hr | ⟨pc', hold, hpc'⟩ | ⟨-, hs⟩
    · exact hr
    · exact hm.slot_ready hq h (h.awake j c pc' d k hold hpc')
    · exact hm.slot_ready hq h (h.signalled hs)

/-! ### Steps -/

theorem Slot.start (h : Slot p home S es .out w i) (j : ThreadId) : Slot p home S es .start w j :=
  { h with
    toEnrolled := ⟨h.toHandshake.start j, h.alloc.phase, h.named⟩
    idle := fun x => (held_out _ w x).trans (h.idle x)
    signalled := fun hs => h.signalled (hs.imp id fun ⟨t, ht, hb⟩ => ⟨t, ht.imp id (by simp), hb⟩) }

/-- What a step has to leave alone for `p` to stay such a promise. -/
structure KeepsSlot (p : PromId) (home : ThreadId × CtxId) (S : V → Prop) (w : World V) (a : Action V)
    (e : List (Event V)) : Prop where
  noQuit : NoQuit e
  oneTimed : OneTimed w
  unmarked : (∃ f ∈ w.cpu a.thread, f.refers p) → w.currentCanceled a.thread = false
  waits : ∀ j t d, a = .call j t (.wait p d) → (j, w.cur j) = home ∧ d = timePointMax
  sets : ∀ j t o, a = .call j t (.set p o) → ∃ v, o = .value v ∧ S v

/-- A wait starts in the context that the step began with. -/
theorem KeepsSlot.waitStart {w₁ : World V} (hk : KeepsSlot p home S w₀ a e) (hs : w₀.step a = some (w', e))
    (hp : p < w₀.promCount)
    (hm : Move w₀ a.thread ph w ph' w₁ es) (he : ∀ x ∈ es, x ∈ e) {d : Int} (h : .waitStart a.thread p d ∈ es) :
    (a.thread, w.cur a.thread) = home ∧ d = timePointMax := by
  obtain ⟨t, -, rfl⟩ := hm.waitStart h
  obtain ⟨t', ha⟩ := waitStart_call hs (he _ h) hp
  exact hk.waits _ t' d ha

theorem Slot.step (h : Slot p home S es₀ .start w a.thread) (hs : w.step a = some (w', e))
    (hk : KeepsSlot p home S w a e) : Slot p home S (es₀ ++ e) .out w' a.thread := by
  by_cases huser : ∃ j t o, a = .call j t (.set p o)
  · obtain ⟨j, t, o, rfl⟩ := huser
    refine (step_moves hs).inv_events es₀ (fun es ph w => Slot p home S es ph w j)
      (fun es₁ ph w₁ ph' w₂ e' hm he hI => ?_) h
    refine hm.slot (fun j hj => hk.noQuit j (he _ hj)) hk.oneTimed h.alone
      (fun d hd => hk.waitStart hs h.lt hm he hd)
      (fun o' ho' => ?_) hI
    obtain rfl : o = o' := (Call.set.inj (stepCall_setStart (step_call hs).2 (he _ ho'))).2
    exact hk.sets j t o rfl
  · refine step_inv_task (p := p) (fun es ph w => Slot p home S es ph w a.thread) hs
      (fun j t o ha => huser ⟨j, t, o, ha⟩) (fun es₁ ph w₁ ph' w₂ e' hm he hby hI => ?_) h
    exact hm.slot (fun j hj => hk.noQuit j (he _ hj)) hk.oneTimed h.alone
      (fun d hd => hk.waitStart hs h.lt hm he hd)
      (fun o ho => absurd ho (hm.not_settled hby hI.idle hk.unmarked o)) hI

/-- A wait on the promise returns the value that was stored last. -/
theorem Slot.waitDone (h : Slot p home S es₀ .start w a.thread) (hs : w.step a = some (w', e))
    (hk : KeepsSlot p home S w a e) {j : ThreadId} {d : Int} {b : Bool} {o : Outcome V}
    (hd : .waitDone j p d b o ∈ e) : ∃ v, o = .value v ∧ (w.prom p).value = some v := by
  obtain ⟨t₁, t₂, t₃, t, rfl, hends⟩ := step_waitEnds hs hd
  have hstack := stack_cur w j
  have hin : ∀ {pc k}, Frame.wait pc p d ∈ k → w.cpu j = k → w.currentCanceled j = false :=
    fun {pc k} hf hk' => hk.unmarked ⟨.wait pc p d, (show w.cpu j = k from hk') ▸ hf, rfl⟩
  generalize hcpu : w.cpu j = k at hends
  rw [hcpu] at hstack
  cases hends with
  | error _ he => exact absurd (h.noError.symm.trans he) (by simp)
  | value _ _ hv => exact ⟨_, rfl, hv⟩
  | none he hv =>
    have hr := h.awake j (w.cur j) .finish d _ hstack (.inl rfl)
    simp [Promise.ready, show (w.prom p).error = none from he, show (w.prom p).value = none from hv] at hr
  | late =>
    -- no reading of the clock is past `time_point::max()`
    have hmax := (h.waits j (w.cur j) .block d (by rw [hstack]; exact List.mem_cons_self)).2
    have hle : t₁ ≤ d := by
      simp only [World.step] at hs
      split at hs
      · omega
      · cases hs
    obtain ⟨c, q, hx⟩ := step_late hs hcpu hle _ hd
    cases hx
  | cancel hc => exact absurd ((hin List.mem_cons_self hcpu).symm.trans hc) (by simp)
  | cancelYield hc =>
    exact absurd ((hin (List.mem_cons_of_mem _ List.mem_cons_self) hcpu).symm.trans hc) (by simp)

/-- Only a call of `set_value` starts to settle the promise. -/
theorem Slot.setStart_call (h : Slot p home S es₀ .start w a.thread) (hs : w.step a = some (w', e))
    (hk : KeepsSlot p home S w a e) {o : Outcome V} (ho : .setStart p o ∈ e) : ∃ j t, a = .call j t (.set p o) := by
  by_cases huser : ∃ j t o, a = .call j t (.set p o)
  · obtain ⟨j, t, o', rfl⟩ := huser
    obtain rfl : o' = o := (Call.set.inj (stepCall_setStart (step_call hs).2 ho)).2
    exact ⟨j, t, rfl⟩
  · have hend := step_inv_task (p := p)
      (fun es ph w => Slot p home S (es₀ ++ es) ph w a.thread ∧ ∀ o, .setStart p o ∉ es) hs
      (fun j t o ha => huser ⟨j, t, o, ha⟩) (fun es₁ ph w₁ ph' w₂ e' hm he hby hI => ?_)
      (show Slot p home S (es₀ ++ []) .start w a.thread ∧ _ from ⟨by rwa [List.append_nil], by simp⟩)
    · exact absurd ho (hend.2 o)
    · have hno := hm.not_settled hby hI.1.idle hk.unmarked
      refine ⟨?_, fun o ho' => (List.mem_append.1 ho').elim (hI.2 o) (hno o)⟩
      rw [← List.append_assoc]
      exact hm.slot (fun j hj => hk.noQuit j (he _ hj)) hk.oneTimed h.alone
        (fun d hd => hk.waitStart hs h.lt hm he hd)
        (fun o ho' => absurd ho' (hno o)) hI.1

/-- Nobody has settled a promise that does not exist. -/
theorem setOnce_fresh (ha : Alloc ph w) (hp : w.promCount ≤ p) (hdone : ∀ o, .setDone p o ∉ es) :
    SetOnce p es w := by
  have hno : ∀ j c pc o b, Frame.set pc p o b ∉ w.stack j c :=
    fun j c pc o b hf => Nat.not_lt.2 hp (ha.frames j c p _ hf rfl)
  exact ⟨fun j c pc o b hf => absurd hf (hno j c pc o b), fun o ho => absurd ho (hdone o),
    fun j c _ _ pc _ o _ b _ hf => absurd hf (hno j c pc o b)⟩

/-- A promise that one call settles: nobody is in the call before it starts and after it has returned. -/
theorem Slot.setOnce (h : Slot p home S es₀ .start w a.thread) (hs : w.step a = some (w', e))
    (hk : KeepsSlot p home S w a e) (hnew : ∀ j t o, a = .call j t (.set p o) → ∀ o', .setStart p o' ∉ es₀)
    (ho : SetOnce p es₀ w) : SetOnce p (es₀ ++ e) w' := by
  by_cases huser : ∃ j t o, a = .call j t (.set p o)
  · obtain ⟨j, t, o, rfl⟩ := huser
    obtain ⟨hx, hc⟩ := step_call hs
    simp only [stepCall] at hc
    split at hc
    · next hsh =>
      obtain ⟨rfl, rfl⟩ := Prod.mk.inj (Option.some.inj hc)
      exact (Move.stackTop (atStart_refl w) (Local.callSet hx hsh)).setOnce h.sane.valid h.toShaped
        (fun _ _ => hnew j t o rfl) ho
    · cases hc
  · have hend := step_inv_task (p := p)
      (fun es ph w => Slot p home S es ph w a.thread ∧ SetOnce p es w) hs (fun j t o ha => huser ⟨j, t, o, ha⟩)
      (fun es₁ ph w₁ ph' w₂ e' hm he hby hI => ?_) ⟨h, ho⟩
    · exact hend.2
    · have hno := hm.not_settled hby hI.1.idle hk.unmarked
      exact ⟨hm.slot (fun j hj => hk.noQuit j (he _ hj)) hk.oneTimed h.alone (fun d hd => hk.waitStart hs h.lt hm he hd)
          (fun o ho' => absurd ho' (hno o)) hI.1,
        hm.setOnce hI.1.sane.valid hI.1.toShaped (fun o ho' => absurd ho' (hno o)) hI.2⟩

/-- A promise that has just been made, for the wait of the context that made it. -/
theorem slot_new (ho : ∀ i, Orderly .start w i) (ha : Alloc .start w) (hx : SignalsExist .start w)
    (hone : OneTimed w)
    (hes : storedValues w.promCount es = []) (home : ThreadId × CtxId) (S : V → Prop) (i : ThreadId) :
    Slot w.promCount home S es .start (w.newPromise none false).2 i := by
  have hm : Move w i .start w .out (w.newPromise none false).2 [] := .newPromise
  have hq : NoQuit (V := V) [] := fun j hj => by cases hj
  have hord := (hm.orderly hq hone (ho i)).start i
  have hframes : ∀ j c, ∀ f ∈ (w.newPromise none false).2.stack j c, ¬ f.refers w.promCount :=
    fun j c f hf href => Nat.lt_irrefl _ (ha.frames j c w.promCount f hf href)
  have hwaits : ∀ j c pc d, Frame.wait pc w.promCount d ∉ (w.newPromise none false).2.stack j c :=
    fun j c pc d hf => hframes j c _ hf rfl
  have hserved : ∀ j c, ¬ Unserved (w.newPromise none false).2 w.promCount j c := fun j c hu => by
    obtain ⟨d, hd⟩ := hu.waitOf hord
    obtain ⟨pc, hf⟩ := mem_of_waitOf hd
    exact hwaits j c pc d hf
  exact
    { toOrderly := hord
      one := fun j c _ hu => absurd hu (hserved j c)
      served := fun _ j c hu => absurd hu (hserved j c)
      alloc := (hm.alloc hq (ho i).sane.valid ha).phase
      named := fun j c pc d hf => absurd hf (hwaits j c pc d)
      lt := Nat.lt_succ_self _
      waits := fun j c pc d hf => absurd hf (hwaits j c pc d)
      sets := fun j c pc o b hf => absurd rfl (hframes j c _ hf)
      idle := fun x => ha.none_held x
      noError := by simp [newPromise, modProm]
      value := by simp [newPromise, modProm, hes]
      stored := by simp [hes]
      signalled := fun hs => absurd (hx w.promCount hs) (Nat.lt_irrefl _)
      awake := fun j c pc d k hk => absurd (by rw [hk]; exact List.mem_cons_self) (hwaits j c pc d) }

end Slot

/-- What the promises of a run without `quit` rest on. -/
structure Grounded (w : World V) : Prop where
  orderly : ∀ i, Orderly .start w i
  alloc : Alloc .start w
  signals : SignalsExist .start w

theorem grounded_init : Grounded (init : World V) where
  orderly := orderly_init
  alloc := alloc_init.phase
  signals := by
    rintro p (⟨j, c, pc, o, b, hf, -⟩ | ⟨t, ht, -⟩)
    · cases frames_init hf
    · exact absurd ht waits_init

theorem Grounded.step (h : Grounded w) (hs : w.step a = some (w', e)) (hq : NoQuit e) (hone : OneTimed w) :
    Grounded w' := by
  have hend := (step_moves hs).inv (fun ph w => Orderly ph w a.thread ∧ Alloc ph w ∧ SignalsExist ph w)
    (fun _ _ _ _ _ hm he hI =>
      have hq' : NoQuit _ := fun j hj => hq j (he _ hj)
      ⟨hm.orderly hq' hone hI.1, hm.alloc hq' hI.1.sane.valid hI.2.1, hm.signalsExist hq' hI.1 hI.2.1 hI.2.2⟩)
    ⟨h.orderly a.thread, h.alloc, h.signals⟩
  exact
    { orderly := fun j => hend.1.start j
      alloc := hend.2.1.phase
      signals := fun p hs => hend.2.2 p (hs.imp id fun ⟨t, ht, hb⟩ => ⟨t, ht.imp id (by simp), hb⟩) }

/-- The events of a call that settles `p`. -/
def Settles (p : PromId) (x : Event V) : Prop := ∃ o, x = .setStart p o ∨ x = .stored p o ∨ x = .setDone p o

/-- Only a promise that exists is settled. -/
theorem Grounded.settles_lt (h : Grounded w) (hs : w.step a = some (w', e)) (hq : NoQuit e) (hone : OneTimed w) :
    ∀ x ∈ e, Settles p x → p < w'.promCount := by
  have hend := (step_moves hs).inv_events [] (fun es ph w => Orderly ph w a.thread ∧ Alloc ph w ∧
    ∀ x ∈ es, Settles p x → p < w.promCount) (fun es₁ ph w₁ ph' w₂ e' hm he hI => ?_)
    ⟨h.orderly a.thread, h.alloc, fun x hx => by cases hx⟩
  · exact fun x hx => hend.2.2 x (by simpa using hx)
  · have hq' : NoQuit e' := fun j hj => hq j (he _ hj)
    have halloc := hm.alloc hq' hI.1.sane.valid hI.2.1
    refine ⟨hm.orderly hq' hone hI.1, halloc, fun x hx hset => ?_⟩
    have hframe : ∀ pc o b k, w₁.cpu a.thread = .set pc p o b :: k → p < w₂.promCount := fun pc o b k hcpu => by
      refine Nat.lt_of_lt_of_le (hI.2.1.frames a.thread (w₁.cur a.thread) p (.set pc p o b) ?_ rfl) hm.globals.2
      rw [stack_cur, hcpu]
      exact List.mem_cons_self
    rcases List.mem_append.1 hx with hx | hx
    · exact Nat.lt_of_lt_of_le (hI.2.2 x hx hset) hm.globals.2
    · obtain ⟨o, rfl | rfl | rfl⟩ := hset
      · obtain ⟨-, -, b, k, hcpu⟩ := hm.setStart hx
        refine halloc.frames a.thread (w₂.cur a.thread) p (.set .store p o b) ?_ rfl
        rw [stack_cur, hcpu]
        exact List.mem_cons_self
      · obtain ⟨-, ⟨b, k, hcpu⟩, -⟩ := hm.stored hx
        exact hframe _ _ _ _ hcpu
      · obtain ⟨-, pc, b, k, hcpu, -⟩ := hm.setDone hx
        exact hframe _ _ _ _ hcpu

theorem step_promCount (hs : w.step a = some (w', e)) : w.promCount ≤ w'.promCount :=
  (step_moves hs).inv (fun _ w₁ => w.promCount ≤ w₁.promCount) (fun _ _ _ _ _ hm _ h => Nat.le_trans h hm.globals.2)
    (Nat.le_refl _)

/-- A thread that has not run is inside of no call on a promise. -/
theorem Small.unmarked {N : Nat} (h : Small N w) (hmark : ∀ j, j < N → w.currentCanceled j = false)
    (hf : ∃ f ∈ w.cpu i, f.refers p) : w.currentCanceled i = false := by
  by_cases hi : i < N
  · exact hmark i hi
  · obtain ⟨f, hf, href⟩ := hf
    rw [← stack_cur] at hf
    rcases h.idle i (w.cur i) (Nat.le_of_not_lt hi) with e | e
    · rw [e] at hf
      cases hf
    · rw [e] at hf
      obtain rfl := List.mem_singleton.1 hf
      exact href.elim

end World

end BoostCmt
