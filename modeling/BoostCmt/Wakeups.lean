import BoostCmt.Durability
import BoostCmt.Handshake
/-!
# Wakeups

With the handshake kept, nobody is left behind. A promise that is waited on by one
context at a time always names its thread. Waiters on several threads overwrite
each other in `m_blocked_thread`, and only the last one to do so is notified.
-/

namespace BoostCmt

open Linked ThreadPrivate Runs

variable {V : Type}

namespace World

variable {w₀ w w' : World V} {i : ThreadId} {ph ph' : Phase} {es : List (Event V)} {a : Action V} {p : PromId}

/-! ## Every thread that waits -/

/-- `p` is settled by one call: whoever is in such a call has started it, and nobody is once it has returned. -/
structure SetOnce (p : PromId) (es : List (Event V)) (w : World V) : Prop where
  started : ∀ j c pc o b, Frame.set pc p o b ∈ w.stack j c → ∃ o', .setStart p o' ∈ es
  returned : ∀ o, .setDone p o ∈ es → (∃ o', .setStart p o' ∈ es) ∧
    ∀ j c pc o' b, Frame.set pc p o' b ∉ w.stack j c
  place : ∀ j c j' c' pc pc' o o' b b', Frame.set pc p o b ∈ w.stack j c → Frame.set pc' p o' b' ∈ w.stack j' c' →
    (j, c) = (j', c')

theorem Move.setOnce {es₀ : List (Event V)} (hm : Move w₀ i ph w ph' w' es) (hv : Valid w) (hsh : Shaped ph w i)
    (hnew : ∀ o, .setStart p o ∈ es → ∀ o', .setStart p o' ∉ es₀) (h : SetOnce p es₀ w) : SetOnce p (es₀ ++ es) w' := by
  -- a call was there before, or this move starts it
  have hfrom : ∀ {j c pc o b}, Frame.set pc p o b ∈ w'.stack j c →
      (∃ pc' b', Frame.set pc' p o b' ∈ w.stack j c) ∨
        (.setStart p o ∈ es ∧ j = i ∧ c = w.cur i ∧ ∀ j c pc o b, Frame.set pc p o b ∉ w.stack j c) := by
    intro j c pc o b hf
    rcases hm.frame_from hv hf with hf | hf | ⟨rfl, rfl, hnf⟩
    · exact .inl ⟨pc, b, hf⟩
    · cases hf
    · cases hnf with
      | setStart he =>
        refine .inr ⟨he, rfl, rfl, fun j c pc o' b hf => ?_⟩
        obtain ⟨o'', ho''⟩ := h.started _ _ _ _ _ hf
        exact hnew o he o'' ho''
      | @set pc' _ _ _ _ k hcpu => exact .inl ⟨pc', b, by rw [stack_cur, hcpu]; exact List.mem_cons_self⟩
  refine ⟨fun j c pc o b hf => ?_, fun o ho => ?_, fun j c j' c' pc pc' o o' b b' hf hf' => ?_⟩
  · rcases hfrom hf with ⟨pc', b', hf⟩ | ⟨he, -⟩
    · obtain ⟨o', ho'⟩ := h.started _ _ _ _ _ hf
      exact ⟨o', List.mem_append_left _ ho'⟩
    · exact ⟨o, List.mem_append_right _ he⟩
  · rcases List.mem_append.1 ho with ho | ho
    · obtain ⟨⟨o', ho'⟩, hno⟩ := h.returned o ho
      refine ⟨⟨o', List.mem_append_left _ ho'⟩, fun j c pc o'' b hf => ?_⟩
      rcases hfrom hf with ⟨pc', b', hf⟩ | ⟨he, -⟩
      · exact hno _ _ _ _ _ hf
      · exact hnew _ he _ ho'
    · obtain ⟨-, pc, b, k, hcpu, -, hk⟩ := hm.setDone ho
      have hmem : Frame.set pc p o b ∈ w.stack i (w.cur i) := by rw [stack_cur, hcpu]; exact List.mem_cons_self
      obtain ⟨o', ho'⟩ := h.started _ _ _ _ _ hmem
      refine ⟨⟨o', List.mem_append_left _ ho'⟩, fun j c pc' o'' b' hf => ?_⟩
      rcases hfrom hf with ⟨pc₁, b₁, hf₁⟩ | ⟨he, -⟩
      · -- the call that returns is the only one, and it leaves the stack
        obtain ⟨rfl, rfl⟩ := Prod.mk.inj (h.place _ _ _ _ _ _ _ _ _ _ hf₁ hmem)
        have hst : StackStep j w w' := by
          rcases hm.stackStep_or_switch hv with hst | ⟨r, -, -, hs | ⟨-, f, k', hcpu', hf'⟩⟩
          · exact hst
          · have := hsh.own hs
            rw [hcpu] at this
            cases this
          · rw [hcpu] at hcpu'
            cases hcpu'
            rcases hf' with h | ⟨tm, h⟩ <;> cases h
        rw [hst.stack, if_pos ⟨rfl, rfl⟩, hk] at hf
        have hn := hsh.nested j (w.cur j)
        rw [stack_cur, hcpu] at hn
        exact hn.calls (by simp) _ hf
      · exact hnew _ he _ ho'
  · rcases hfrom hf with ⟨pc₁, b₁, hf⟩ | ⟨-, rfl, rfl, hno⟩ <;> rcases hfrom hf' with ⟨pc₂, b₂, hf'⟩ | ⟨-, rfl, rfl, hno'⟩
    · exact h.place _ _ _ _ _ _ _ _ _ _ hf hf'
    · exact absurd hf (hno' _ _ _ _ _)
    · exact absurd hf' (hno _ _ _ _ _)
    · rfl

theorem Local.setStart {k k' : List (Frame V)} {o : Outcome V} (hl : Local w i k k' es) (h : .setStart p o ∈ es) :
    ∃ b l, k' = .set .store p o b :: l := by
  cases hl with
  | callSet | finishSet =>
    simp only [List.mem_singleton, Event.setStart.injEq] at h
    obtain ⟨rfl, rfl⟩ := h
    exact ⟨_, _, rfl⟩
  | raiseSwitched | raiseSleep =>
    obtain ⟨c, hc, -⟩ := raise_events h
    cases hc
  | raiseWait =>
    rcases List.mem_append.1 h with h | h
    · obtain ⟨c, hc, -⟩ := raise_events h
      cases hc
    · simp at h
  | raiseYield =>
    rcases List.mem_append.1 h with h | h
    · obtain ⟨c, hc, -⟩ := raise_events h
      cases hc
    · revert h
      unfold unwind
      split <;> simp +contextual
  | _ => simp at h

/-- Where a call that settles `p` starts. -/
theorem Move.setStart {o : Outcome V} (hm : Move w₀ i ph w ph' w' es) (h : .setStart p o ∈ es) :
    ph ≠ .out ∧ ph' = .out ∧ ∃ b k, w'.cpu i = .set .store p o b :: k := by
  cases hm with
  | stackTop _ hl =>
    obtain ⟨b, l, rfl⟩ := hl.setStart h
    exact ⟨by simp, rfl, b, l, by simp⟩
  | drain _ hpc =>
    obtain ⟨dl, hx⟩ := drain_event hpc h
    cases hx
  | runTask _ hr =>
    rcases runTask_cpu hr with ⟨q, -, rfl, hcpu⟩ | ⟨rfl, -⟩ | ⟨q, -, rfl, -⟩
    · simp only [List.mem_singleton, Event.setStart.injEq] at h
      obtain ⟨rfl, rfl⟩ := h
      exact ⟨by simp, rfl, _, _, hcpu⟩
    · simp at h
    · simp at h
  | _ => simp at h

/-- Nothing more happens to the stack in the step in which the call has started. -/
theorem Move.set_stays {o : Outcome V} {b : Bool} {k : List (Frame V)} (hm : Move w₀ i .out w ph' w' es)
    (hcpu : w.cpu i = .set .store p o b :: k) : ph' = .out ∧ w'.cpu i = .set .store p o b :: k := by
  cases hm with
  | clock | expireSleep => exact ⟨rfl, hcpu⟩
  | expireWait _ _ _ _ hx => exact ⟨rfl, by rw [(setException_frame hx).cpu]; exact hcpu⟩
  | reschedule hcpu' hf =>
    rw [hcpu] at hcpu'
    cases hcpu'
    rcases hf with h | ⟨tm, h⟩ <;> cases h
  | dequeue hcpu' | drain hcpu' | check hcpu' => rw [hcpu] at hcpu'; cases hcpu'

/-- Who settles `p` in a run of one `set_value(v)`, and that nobody who waits on it is left behind. -/
structure WakesAll (p : PromId) (v : V) (es : List (Event V)) (ph : Phase) (w : World V) (i : ThreadId) : Prop
    extends Handshake p ph w i where
  value : ValueInv p v es ph w
  once : SetOnce p es w
  noError : (w.prom p).error = none
  untimed : ∀ j c pc d, Frame.wait pc p d ∈ w.stack j c → d = timePointMax
  stored : .setDone p (.value v) ∈ es → .stored p (.value v) ∈ es

theorem Move.wakesAll {v : V} {es₀ : List (Event V)} (hm : Move w₀ i ph w ph' w' es) (hq : NoQuit es)
    (hone : OneTimed w₀) (hwait : OneWait p w₀)
    (hread : ∀ o b k, AtStart w₀ w → w.cpu i = .set .notify p o b :: k → w'.cpu i ≠ w.cpu i → Enqueued p w)
    (hset : ∀ o, .setStart p o ∈ es → o = .value v ∧ ∀ o', .setStart p o' ∉ es₀)
    (hmax : ∀ d, .waitStart i p d ∈ es → d = timePointMax) (h : WakesAll p v es₀ ph w i) :
    WakesAll p v (es₀ ++ es) ph' w' i := by
  -- deadlines are not passed by waits that have none
  have hexp : ∀ c, Event.expired i c p ∉ es := by
    intro c hc
    obtain ⟨-, d, k, hk, -, hd⟩ := hm.expired_wait h.placed hc
    exact hd (h.untimed i c .resumed d (by rw [hk]; exact List.mem_cons_self))
  have hexp' : ∀ j c, Event.expired j c p ∉ es := by
    intro j c hc
    obtain ⟨rfl, -⟩ := hm.expired_cases hc
    exact hexp c hc
  have hset' : ∀ {pc o b k}, w.cpu i = .set pc p o b :: k → Frame.set pc p o b ∈ w.stack i (w.cur i) := by
    intro pc o b k hcpu
    rw [stack_cur, hcpu]
    exact List.mem_cons_self
  have hst : .setDone p (.value v) ∈ es → .stored p (.value v) ∈ es₀ := by
    intro hd
    obtain ⟨-, pc, b, k, hcpu, hpc, -⟩ := hm.setDone hd
    refine (h.value.sets i _ pc _ b (hset' hcpu)).2 (fun e => ?_)
    have herr := hpc e
    rw [h.noError] at herr
    cases herr
  refine ⟨hm.handshake hq hone hwait hread (fun c hc => absurd hc (hexp c)) h.toHandshake,
    hm.valueInv hq (fun o ho => (hset o ho).1) (fun _ => hexp') h.value,
    hm.setOnce h.sane.valid h.toShaped (fun o ho => (hset o ho).2) h.once, ?_, fun j c pc d hf => ?_, fun hd => ?_⟩
  · rcases hm.prom_cases hq p with ⟨he, -⟩ | ⟨-, he, -⟩ | ⟨-, ⟨d, k, e, -, -, -, -, he⟩ | ⟨e, b, k, hcpu, -⟩ |
      ⟨c, v', -, -, -, rfl, -⟩⟩ | ⟨v', b, k, -, -, -, -, he, -⟩
    · exact he.trans h.noError
    · exact he
    · exact he
    · cases (h.value.sets i _ _ _ b (hset' hcpu)).1
    · exact absurd (List.mem_singleton_self _) (hexp c)
    · exact he
  · rcases hm.wait_frames h.sane.valid hf with ⟨pc', hf⟩ | he
    · exact h.untimed j c pc' d hf
    · exact hmax d he
  · rcases List.mem_append.1 hd with hd | hd
    · exact List.mem_append_left _ (h.stored hd)
    · exact List.mem_append_left _ (hst hd)

/-- Steps of a run in which waits on `p` have no deadline, a thread has one of them at a time, and `set_value(v)`
is the only call that settles `p`. -/
def SharedFuture (p : PromId) (v : V) (es : List (Event V)) (w : World V) (e : List (Event V)) : Prop :=
  OneWait p w ∧ (∀ i d, .waitStart i p d ∈ e → d = timePointMax) ∧
    ∀ o, .setStart p o ∈ e → o = .value v ∧ ∀ o', .setStart p o' ∉ es

/-- Whoever has found `p` not ready is on the thread that `m_blocked_thread` names. -/
def NamesWaiters (p : PromId) (w : World V) : Prop :=
  ∀ j c d k, w.stack j c = .wait .block p d :: k ∨ w.stack j c = .wait .resumed p d :: k →
    (w.prom p).blockedThread = some j

theorem NamesWaiters.enqueued (h : NamesWaiters p w) (ho : Orderly ph w i) : Enqueued p w := by
  rintro j c (hb | ⟨d, k, hk⟩)
  · obtain ⟨ph', R, B, -, hok⟩ := ho.placedAt j
    obtain ⟨-, d, k, hk⟩ := hok.blockedOn_stack hb
    exact h j c d k (.inr hk)
  · exact h j c d k (.inl hk)

/-- The step does not read `m_blocked_thread` of `p` while it leaves out somebody who waits. -/
def ReadsAll (p : PromId) (w : World V) (a : Action V) : Prop :=
  ∀ i t₁ t₂ t₃ o b k, a = .run i t₁ t₂ t₃ → w.cpu i = .set .notify p o b :: k → NamesWaiters p w

/-- Only the thread itself goes on in `promise_base::notify`. -/
theorem step_reads {o : Outcome V} {b : Bool} {k : List (Frame V)} (hs : w.step a = some (w', es))
    (hcpu : w.cpu a.thread = .set .notify p o b :: k) :
    (∃ t, a = .tick t) ∨ ∃ t₁ t₂ t₃, a = .run a.thread t₁ t₂ t₃ := by
  cases a with
  | tick t => exact .inl ⟨t, rfl⟩
  | run i t₁ t₂ t₃ => exact .inr ⟨t₁, t₂, t₃, rfl⟩
  | call i t c =>
    simp only [step, show w.cpu i = _ from hcpu] at hs
    split at hs <;> cases hs
  | finish i o =>
    simp only [step, show w.cpu i = _ from hcpu] at hs
    cases hs
  | contend i t => simp [step, show w.cpu i = _ from hcpu, locks] at hs

/-- What `waiters_woken` asks of the steps of a run. -/
def EachNamed (p : PromId) (v : V) (es : List (Event V)) (w : World V) (a : Action V) (e : List (Event V)) :
    Prop :=
  SharedFuture p v es w e ∧ NoQuit e ∧ OneTimed w ∧ ReadsAll p w a

theorem Handshake.start (h : Handshake p .out w i) (j : ThreadId) : Handshake p .start w j where
  toOrderly := h.toOrderly.start j
  one := h.one
  served := by
    intro hr j' c hu
    rcases h.served hr j' c hu with hp | hp | ⟨-, t, ht, -⟩
    · exact .inl hp
    · exact .inr (.inl hp)
    · cases ht

theorem WakesAll.start {v : V} (h : WakesAll p v es .out w i) (j : ThreadId) : WakesAll p v es .start w j where
  toHandshake := h.toHandshake.start j
  value := ⟨h.value.sane, h.value.alloc.phase, h.value.sets, h.value.kept⟩
  once := h.once
  noError := h.noError
  untimed := h.untimed
  stored := h.stored

theorem WakesAll.step {v : V} {e : List (Event V)} (h : WakesAll p v es .start w a.thread)
    (hs : w.step a = some (w', e)) (hok : EachNamed p v es w a e) : WakesAll p v (es ++ e) .out w' a.thread := by
  obtain ⟨⟨hwait, hmax, hset⟩, hq, hone, hreads⟩ := hok
  have hread : (∀ t, a ≠ .tick t) → ∀ {o b k}, w.cpu a.thread = .set .notify p o b :: k → Enqueued p w := by
    intro ha o b k hcpu
    rcases step_reads hs hcpu with ⟨t, rfl⟩ | ⟨t₁, t₂, t₃, hrun⟩
    · exact absurd rfl (ha t)
    · exact (hreads _ _ _ _ o b k hrun hcpu).enqueued h.toOrderly
  by_cases ha : ∃ t, a = .tick t
  · -- the clock reads nothing
    obtain ⟨t, rfl⟩ := ha
    simp only [World.step] at hs
    split at hs
    · next ht =>
      obtain ⟨rfl, rfl⟩ := Prod.mk.inj (Option.some.inj hs)
      have hquiet : ∀ {ph u ph' u'}, Move w 0 ph u ph' u' [] → u'.cpu 0 = u.cpu 0 → WakesAll p v es ph u 0 →
          WakesAll p v es ph' u' 0 := by
        intro ph u ph' u' hm hcpu hI
        have hI' : WakesAll p v (es ++ []) ph' u' 0 :=
          hm.wakesAll (by simp [NoQuit]) hone hwait (fun o b k _ _ hne => absurd hcpu hne) (by simp) (by simp) hI
        rwa [List.append_nil] at hI'
      rw [List.append_nil]
      exact hquiet .go rfl (hquiet (.clock ht.1 ht.2) rfl h)
    · cases hs
  · have ha : ∀ t, a ≠ .tick t := fun t e => ha ⟨t, e⟩
    refine ((step_moves hs).inv_events es (fun es' ph u => WakesAll p v es' ph u a.thread ∧ ∃ e', es' = es ++ e' ∧
      ∀ o, .setStart p o ∈ e' → ph = .out ∧ ∃ o b k, u.cpu a.thread = .set .store p o b :: k) ?_
      ⟨h, [], by simp, by simp⟩).1
    rintro es₀ ph u ph' u' e₁ hm he ⟨hI, e', rfl, hst⟩
    have hnot : ∀ {o}, .setStart p o ∈ e₁ → ∀ o', .setStart p o' ∉ e' :=
      fun ho o' ho' => (hm.setStart ho).1 (hst o' ho').1
    refine ⟨hm.wakesAll (fun j hj => hq j (he _ hj)) hone hwait ?_ ?_ (fun d hd => hmax _ d (he _ hd)) hI,
      e' ++ e₁, (List.append_assoc _ _ _), ?_⟩
    · rintro o b k ⟨t, -, rfl⟩ hcpu -
      exact hread ha hcpu
    · refine fun o ho => ⟨(hset o (he _ ho)).1, fun o' ho' => ?_⟩
      rcases List.mem_append.1 ho' with ho' | ho'
      · exact (hset o (he _ ho)).2 o' ho'
      · exact hnot ho o' ho'
    · intro o ho
      rcases List.mem_append.1 ho with ho | ho
      · obtain ⟨rfl, o', b, k, hcpu⟩ := hst o ho
        obtain ⟨hph, hcpu'⟩ := hm.set_stays hcpu
        exact ⟨hph, o', b, k, hcpu'⟩
      · obtain ⟨-, hph, b, k, hcpu⟩ := hm.setStart ho
        exact ⟨hph, o, b, k, hcpu⟩

theorem unserved_init (p : PromId) (j : ThreadId) (c : CtxId) : ¬ Unserved (init : World V) p j c := by
  rintro (⟨B, hB, hc, -⟩ | ⟨d, k, hk⟩)
  · cases B with
    | nil => cases hc
    | cons x B => cases hB.1
  · simp only [stack] at hk
    split at hk <;> cases hk

theorem frames_init {j : ThreadId} {c : CtxId} {f : Frame V} (h : f ∈ (init : World V).stack j c) : f = .user := by
  simp only [stack] at h
  split at h
  · exact List.mem_singleton.1 h
  · cases h

theorem handshake_init (p : PromId) (i : ThreadId) : Handshake p .start (init : World V) i where
  toOrderly := orderly_init i
  one := fun j c _ h => absurd h (unserved_init p j c)
  served := fun _ j c h => absurd h (unserved_init p j c)

theorem wakesAll_init (p : PromId) (v : V) (i : ThreadId) : WakesAll p v [] .start (init : World V) i where
  toHandshake := handshake_init p i
  value := ⟨sane_init, alloc_init.phase, (valueInv_init p v).sets, (valueInv_init p v).kept⟩
  once := by
    refine ⟨fun j c pc o b h => ?_, fun o h => (by cases h), fun j c j' c' pc pc' o o' b b' h => ?_⟩
    · cases frames_init h
    · cases frames_init h
  noError := rfl
  untimed := fun j c pc d h => by cases frames_init h
  stored := fun h => by cases h

theorem wakesAll_run {v : V} (h : Run step (EachNamed p v) init w es) (i : ThreadId) :
    WakesAll p v es .start w i :=
  h.inv (fun es w => ∀ i, WakesAll p v es .start w i) (wakesAll_init p v)
    (fun _ _ _ _ _ hI hok hs => ((hI _).step hs hok).start) i

/-- The check of `NamesWaiters` on the threads below `N`. -/
def namesWaitersCheck (N : Nat) (p : PromId) (w : World V) : Bool :=
  (List.range N).all fun j => (List.range ((w.thr j).nctx + 1)).all fun c =>
    match w.stack j c with
    | .wait .block q _ :: _ => q != p || (w.prom p).blockedThread == some j
    | .wait .resumed q _ :: _ => q != p || (w.prom p).blockedThread == some j
    | _ => true

theorem namesWaitersCheck_sound {N : Nat} (hs : Small N w) (h : namesWaitersCheck N p w = true) :
    NamesWaiters p w := by
  simp only [namesWaitersCheck, List.all_eq_true, List.mem_range] at h
  intro j c d k hk
  obtain ⟨hj, hc⟩ := hs.bound (i := j) (c := c) (by rcases hk with e | e <;> simp [e]) (by rcases hk with e | e <;> simp [e])
  have := h j hj c hc
  rcases hk with e | e <;> simpa [e] using this

/-- The check of `SharedFuture` on the threads below `N`. -/
def sharedFutureCheck [DecidableEq V] (N : Nat) (p : PromId) (v : V) (es : List (Event V)) (w : World V)
    (e : List (Event V)) : Bool :=
  singleWaiterCheck N w && e.all fun
    | .waitStart _ q d => q != p || d == timePointMax
    | .setStart q o => q != p || (o == .value v && es.all fun
      | .setStart q _ => q != p
      | _ => true)
    | _ => true

theorem sharedFutureCheck_sound [DecidableEq V] {N : Nat} {v : V} {e : List (Event V)} (hs : Small N w)
    (h : sharedFutureCheck N p v es w e = true) : SharedFuture p v es w e ∧ OneTimed w := by
  simp only [sharedFutureCheck, Bool.and_eq_true, List.all_eq_true] at h
  have hsingle := singleWaiterCheck_sound hs h.1
  refine ⟨⟨fun j c c' d d' => hsingle j c c' p d d', fun i d hd => ?_, fun o ho => ?_⟩, hsingle.oneTimed⟩
  · simpa using h.2 _ hd
  · have := h.2 _ ho
    simp only [bne_self_eq_false, Bool.false_or, Bool.and_eq_true, beq_iff_eq, List.all_eq_true] at this
    exact ⟨this.1, fun o' ho' => by simpa using this.2 _ ho'⟩

/-- The check of `ReadsAll`. -/
def readsAllCheck (N : Nat) (p : PromId) (w : World V) (a : Action V) : Bool :=
  match a with
  | .run i _ _ _ =>
    match w.cpu i with
    | .set .notify q _ _ :: _ => q != p || namesWaitersCheck N p w
    | _ => true
  | _ => true

theorem readsAllCheck_sound {N : Nat} (hs : Small N w) (h : readsAllCheck N p w a = true) : ReadsAll p w a := by
  rintro i t₁ t₂ t₃ o b k rfl hcpu
  refine namesWaitersCheck_sound hs ?_
  simpa [readsAllCheck, hcpu] using h

/-- At most one context, of whatever thread, waits on `p`. -/
def AloneWait (p : PromId) (w : World V) : Prop :=
  ∀ j c j' c' d d', waitOf (w.stack j c) = some (p, d) → waitOf (w.stack j' c') = some (p, d') → (j, c) = (j', c')

theorem AloneWait.oneWait (h : AloneWait p w) : OneWait p w :=
  fun j c c' d d' hc hc' => (Prod.mk.inj (h j c j c' d d' hc hc')).2

theorem Nested.waitOf_mem {k : List (Frame V)} {pc : WaitPc} {d : Int} (h : Nested k)
    (hf : Frame.wait pc p d ∈ k) :
    waitOf k = some (p, d) := by
  obtain ⟨k', rfl | rfl, -⟩ := h.mem_top hf (by simp [Frame.calls]) (by simp)
  · rfl
  · rfl

/-- What a wait does at its locked check. -/
theorem Move.check_step (hm : Move w₀ i ph w ph' w' es) (hq : NoQuit es) (hs : Sane w) {d : Int}
    {k : List (Frame V)} (hcpu : w.cpu i = .wait .check p d :: k) :
    (∃ l, (∀ f ∈ l, f = .yield ∨ f = .wait .check p d) ∧ w'.stack i (w.cur i) = l ++ k) ∨
      (w'.prom p).blockedThread = some i := by
  have hsame : w'.stack i (w.cur i) = .wait .check p d :: k →
      (∃ l, (∀ f ∈ l, f = .yield ∨ f = .wait .check p d) ∧ w'.stack i (w.cur i) = l ++ k) ∨
        (w'.prom p).blockedThread = some i := fun e => .inl ⟨[.wait .check p d], by simp, e⟩
  by_cases hph : ph = .start
  · subst hph
    rcases hm.stackStep_or_switch hs.valid with hst | ⟨r, -, -, h | ⟨-, f, k', hcpu', hf⟩⟩
    · rw [hst.stack, if_pos ⟨rfl, rfl⟩] at hsame ⊢
      cases hm with
      | clock | go | newPromise | async | asyncVoid => exact hsame hcpu
      | cancel =>
        rw [show (w.cancelTask _).cpu = w.cpu by simp only [cancelTask]; split <;> rfl] at hsame ⊢
        exact hsame hcpu
      | quit => exact absurd (by simp) (hq i)
      | stackTop _ hl =>
        simp only [setCpu_cpu, if_true] at hsame ⊢
        rw [hcpu] at hl
        cases hl with
        | callWait hx | callSet hx | callExec hx => cases hx
        | startYield => exact .inl ⟨[.yield, .wait .check p d], by simp, rfl⟩
        | checkError | checkValue => exact .inl ⟨[], by simp, rfl⟩
      | sync _ _ _ _ _ hx | sleepOn _ _ hx => rw [hcpu] at hx; cases hx
      | enqueueThread _ hcpu' =>
        rw [hcpu] at hcpu'
        cases hcpu'
        exact .inr (by simp [modProm, setCpu])
      | waitOn _ hcpu' | resumeWait _ hcpu' | finishError _ hcpu' | storeValue _ hcpu' | storeError _ hcpu'
      | post _ hcpu' | ran hcpu' | release hcpu' | resumeSleep hcpu' | check hcpu' =>
        rw [hcpu] at hcpu'; cases hcpu'
      | expireSleep hph | expireWait hph => exact absurd rfl hph
    · cases h
    · rw [hcpu] at hcpu'
      cases hcpu'
      rcases hf with h | ⟨tm, h⟩ <;> cases h
  · exact hsame (hm.stack_later hph hs ((stack_cur w i).trans hcpu) (by simp))

/-- A wait gets past its locked check when it writes its thread into the promise. -/
theorem Move.wait_past (hm : Move w₀ i ph w ph' w' es) (hq : NoQuit es) (h : Orderly ph w i) {j : ThreadId}
    {c : CtxId} {pc : WaitPc} {d : Int} (hf : Frame.wait pc p d ∈ w'.stack j c) (hpc : pc ≠ .check) :
    (∃ pc', pc' ≠ .check ∧ Frame.wait pc' p d ∈ w.stack j c) ∨ (j = i ∧ (w'.prom p).blockedThread = some i) := by
  rcases hm.frame_from h.sane.valid hf with hf | hf | ⟨rfl, rfl, hnf⟩
  · exact .inl ⟨pc, hpc, hf⟩
  · cases hf
  · cases hnf with
    | waitStart => exact absurd rfl hpc
    | @wait pc' _ _ _ k hcpu =>
      by_cases hpc' : pc' = .check
      · subst hpc'
        have hnest := h.nested j (w.cur j)
        rw [stack_cur, hcpu] at hnest
        refine .inr ⟨rfl, (hm.check_step hq h.sane hcpu).resolve_left ?_⟩
        rintro ⟨l, hl, hst⟩
        rw [hst] at hf
        rcases List.mem_append.1 hf with hf | hf
        · rcases hl _ hf with e | e
          · cases e
          · cases e
            exact hpc rfl
        · exact hnest.calls (by simp) _ hf
      · exact .inl ⟨pc', hpc', by rw [stack_cur, hcpu]; exact List.mem_cons_self⟩

/-- A wait that is past its locked check has its thread in the promise. -/
structure Enrolled (p : PromId) (ph : Phase) (w : World V) (i : ThreadId) : Prop extends Handshake p ph w i where
  alloc : Alloc ph w
  named : ∀ j c pc d, Frame.wait pc p d ∈ w.stack j c → pc ≠ .check → (w.prom p).blockedThread = some j

theorem Enrolled.enqueued (h : Enrolled p ph w i) : Enqueued p w := by
  refine NamesWaiters.enqueued (fun j c d k hk => ?_) h.toOrderly
  rcases hk with hk | hk
  · exact h.named j c .block d (by rw [hk]; exact List.mem_cons_self) (by simp)
  · exact h.named j c .resumed d (by rw [hk]; exact List.mem_cons_self) (by simp)

theorem Move.enrolled (hm : Move w₀ i ph w ph' w' es) (hq : NoQuit es) (hone : OneTimed w₀)
    (halone : AloneWait p w₀) (h : Enrolled p ph w i) : Enrolled p ph' w' i where
  toHandshake :=
    hm.handshake hq hone halone.oneWait (fun _ _ _ _ _ _ => h.enqueued) (fun _ _ => h.enqueued) h.toHandshake
  alloc := hm.alloc hq h.sane.valid h.alloc
  named := by
    intro j c pc d hf hpc
    rcases hm.wait_past hq h.toOrderly hf hpc with ⟨pc', hpc', hf⟩ | ⟨rfl, e⟩
    · have hold := h.named j c pc' d hf hpc'
      rcases hm.blockedThread_cases hq p with e | ⟨e, -⟩ | ⟨d', k, ⟨t, -, rfl⟩, hcpu, -, -, -, e⟩
      · rw [e]
        exact hold
      · exact absurd (h.alloc.frames j c p _ hf rfl) (by simp [e])
      · -- the thread is overwritten by the wait itself
        have hw := (h.nested j c).waitOf_mem hf
        have hi : waitOf ((w₀.setNow t).stack i ((w₀.setNow t).cur i)) = some (p, d') := by
          rw [stack_cur, hcpu]
          rfl
        obtain ⟨rfl, -⟩ := Prod.mk.inj (halone j c _ _ d d' hw hi)
        exact e
    · exact e

theorem enrolled_init (p : PromId) (i : ThreadId) : Enrolled p .start (init : World V) i where
  toHandshake := handshake_init p i
  alloc := alloc_init.phase
  named := fun j c pc d h => by cases frames_init h

theorem enrolled_run (h : Run step (fun _ w _ e => AloneWait p w ∧ NoQuit e ∧ OneTimed w) init w es)
    (i : ThreadId) :
    Enrolled p .start w i := by
  refine h.inv (fun _ w => ∀ i, Enrolled p .start w i) (enrolled_init p) (fun _ w a w' e hI hok hs j => ?_) i
  have hend := (step_moves hs).inv (fun ph w => Enrolled p ph w a.thread)
    (fun _ _ _ _ _ hm he hI => hm.enrolled (fun j hj => hok.2.1 j (he _ hj)) hok.2.2 hok.1 hI) (hI _)
  exact ⟨hend.toHandshake.start j, hend.alloc.phase, hend.named⟩

/-- `notify` of `p` puts the one context that is blocked on `p` into the ready list. -/
theorem Handshake.notify_readies (h : Handshake p ph w i) {j : ThreadId} {c : CtxId}
    (hb : (w.thr j).BlockedOn p c) :
    ∃ s R, (w.thr j).notify p = some s ∧ Chain (fun c => (s.ctx c).next) s.readyHead R ∧ c ∈ R := by
  obtain ⟨ph', R, B, -, hok⟩ := h.placedAt j
  have hone : ∀ x ∈ B, ((w.thr j).ctx x).prom = some p → x = c := fun x hx hp =>
    h.one j x c (.inl (hok.lists.blockedOn.2 ⟨hx, hp⟩)) (.inl hb)
  obtain ⟨hc, hp⟩ := hok.lists.blockedOn.1 hb
  rcases first_waiter B (fun x => ((w.thr j).ctx x).prom = some p) with hno | ⟨B₁, x, B₂, rfl, hfirst, hx⟩
  · exact absurd hp (hno c hc)
  · obtain rfl := hone x (by simp) hx
    obtain ⟨s, hs, -, hl, -⟩ := hok.lists.notify_some hfirst hx
      (fun y hy hyp => hone y ((hok.lists.sleep_prom y hy).1 (by simp [hyp])) hyp)
    exact ⟨s, x :: R, hs, hl.ready, List.mem_cons_self⟩

/-- The check of `AloneWait` on the threads below `N`. -/
def aloneWaitCheck (N : Nat) (p : PromId) (w : World V) : Bool :=
  (List.range N).all fun j => (List.range ((w.thr j).nctx + 1)).all fun c =>
    (waitOf (w.stack j c)).map Prod.fst != some p ||
      (List.range N).all fun j' => (List.range ((w.thr j').nctx + 1)).all fun c' =>
        (waitOf (w.stack j' c')).map Prod.fst != some p || (j, c) == (j', c')

theorem aloneWaitCheck_sound {N : Nat} (hs : Small N w) (h : aloneWaitCheck N p w = true) : AloneWait p w := by
  simp only [aloneWaitCheck, List.all_eq_true, List.mem_range, Bool.or_eq_true] at h
  intro j c j' c' d d' hw hw'
  obtain ⟨hj, hc⟩ := hs.waitOf_bound hw
  obtain ⟨hj', hc'⟩ := hs.waitOf_bound hw'
  have hall := (h j hj c hc).resolve_left (by simp [hw])
  simpa using (hall j' hj' c' hc').resolve_left (by simp [hw'])

/-- The check that every promise is waited on by one context of the threads below `N`. -/
def allAloneCheck (N : Nat) (w : World V) : Bool :=
  (List.range N).all fun j => (List.range ((w.thr j).nctx + 1)).all fun c =>
    (List.range N).all fun j' => (List.range ((w.thr j').nctx + 1)).all fun c' =>
      (waitOf (w.stack j c)).isNone || (waitOf (w.stack j c)).map Prod.fst != (waitOf (w.stack j' c')).map Prod.fst ||
        (j, c) == (j', c')

theorem allAloneCheck_sound {N : Nat} (hs : Small N w) (h : allAloneCheck N w = true) (q : PromId) :
    AloneWait q w := by
  intro j c j' c' d d' hc hc'
  simp only [allAloneCheck, List.all_eq_true, List.mem_range] at h
  have hb :=
    h j (hs.waitOf_bound hc).1 c (hs.waitOf_bound hc).2 j' (hs.waitOf_bound hc').1 c' (hs.waitOf_bound hc').2
  simpa [hc, hc'] using hb

/-- No frame is inside of `set_value` or `set_exception`. -/
def noneSets (k : List (Frame V)) : Bool := k.all fun f => !(f matches .set _ _ _ _)

theorem noneSets_sound {k : List (Frame V)} (h : noneSets k = true) (pc : SetPc) (p : PromId) (o : Outcome V)
    (b : Bool) :
    Frame.set pc p o b ∉ k := fun hf => by
  simpa using List.all_eq_true.1 h _ hf

end World

end BoostCmt
