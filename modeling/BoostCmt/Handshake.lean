import BoostCmt.Shapes
import BoostCmt.Timeout
/-!
# The handshake of waiters and producers

A context that has found its promise not ready blocks. The promise may have been
stored into by then, so somebody must still be going to wake it: the producer is
about to notify, or a posted `notify` is on its way. That is `Handshake.served`,
and it rests on what the producer reads from `m_blocked_thread`.
-/

namespace BoostCmt

open Linked ThreadPrivate Runs

variable {V : Type}

/-- Context `c` is in the blocked list with `prom == p`. -/
def ThreadPrivate.BlockedOn (s : ThreadPrivate) (p : PromId) (c : CtxId) : Prop :=
  ∃ B, Chain (fun c => (s.ctx c).nextBlocked) s.blocked B ∧ c ∈ B ∧ (s.ctx c).prom = some p

theorem Lists.blockedOn {s : ThreadPrivate} {R B : List CtxId} (h : Lists s R B) {p : PromId} {c : CtxId} :
    s.BlockedOn p c ↔ c ∈ B ∧ (s.ctx c).prom = some p := by
  constructor
  · rintro ⟨B', hB', hc, hp⟩
    rw [h.blocked.unique hB']
    exact ⟨hc, hp⟩
  · rintro ⟨hc, hp⟩
    exact ⟨B, h.blocked, hc, hp⟩

theorem Foreign.blockedOn {s s' : ThreadPrivate} (h : Foreign s s') {p : PromId} {c : CtxId} :
    s'.BlockedOn p c ↔ s.BlockedOn p c := by
  have hctx : ∀ x, (s.ctx x).nextBlocked = (s'.ctx x).nextBlocked ∧ (s.ctx x).prom = (s'.ctx x).prom := by
    intro x
    obtain ⟨b, hx⟩ := h.ctx x
    rw [hx]
    exact ⟨rfl, rfl⟩
  constructor
  · rintro ⟨B, hB, hc, hp⟩
    refine ⟨B, ?_, hc, (hctx c).2.trans hp⟩
    rw [← h.blocked]
    exact hB.congr (fun x _ => (hctx x).1)
  · rintro ⟨B, hB, hc, hp⟩
    refine ⟨B, ?_, hc, (hctx c).2.symm.trans hp⟩
    rw [h.blocked]
    exact hB.congr (fun x _ => (hctx x).1.symm)

namespace World

variable {w₀ w w' : World V} {i : ThreadId} {ph ph' : Phase} {es : List (Event V)} {a : Action V} {p : PromId}

section Blocked
variable {x : Option CtxId} {R B : List CtxId} {c : CtxId}

/-- A context that is blocked on `p` is inside a wait on `p`. -/
theorem ThreadOk.blockedOn_stack (h : ThreadOk w i x R B) (hb : (w.thr i).BlockedOn p c) :
    c ∈ B ∧ ∃ d k, w.stack i c = .wait .resumed p d :: k := by
  obtain ⟨hc, hp⟩ := h.lists.blockedOn.1 hb
  obtain ⟨q, d, k, hk, hq, -⟩ := h.waits c hc
  obtain rfl : q = p := Option.some.inj (hq.symm.trans hp)
  exact ⟨hc, d, k, hk⟩

/-- A context in the blocked list that is inside a wait on `p` is blocked on `p`. -/
theorem ThreadOk.stack_blockedOn (h : ThreadOk w i x R B) (hc : c ∈ B) {d : Int} {k : List (Frame V)}
    (hk : w.stack i c = .wait .resumed p d :: k) : (w.thr i).BlockedOn p c := by
  obtain ⟨q, d', k', hk', hq, -⟩ := h.waits c hc
  rw [hk] at hk'
  cases hk'
  exact h.lists.blockedOn.2 ⟨hc, hq⟩

/-- `notify` of `p` wakes the context that is blocked on `p`, if there is only one. -/
theorem ThreadOk.notify_wakes {s : ThreadPrivate} (h : ThreadOk w i x R B) (hn : (w.thr i).notify p = some s)
    (hone : ∀ c c', (w.thr i).BlockedOn p c → (w.thr i).BlockedOn p c' → c = c') (c : CtxId) : ¬ s.BlockedOn p c := by
  intro hb
  obtain ⟨R', B', h', hnot⟩ := h.notify hn
  have hb' : ((w.setThr i s).thr i).BlockedOn p c := by simpa using hb
  obtain ⟨hc, d, k, hk⟩ := h'.blockedOn_stack hb'
  rw [stack_setThr (by rw [(notify_core hn).current]; rfl)] at hk
  have hw := h.stack_blockedOn (hnot.subset c hc) hk
  rcases hnot with ⟨-, rfl, hall⟩ | ⟨B₁, y, B₂, rfl, -, hy, -, rfl⟩
  · exact hall c hc (h.lists.blockedOn.1 hw).2
  · obtain rfl := hone c y hw (h.lists.blockedOn.2 ⟨by simp, hy⟩)
    have hnd := h.lists.blocked.nodup
    simp [List.nodup_append] at hnd
    rcases List.mem_append.1 hc with hc | hc
    · exact (hnd.2.2 c hc).1 rfl
    · exact hnd.2.1.1 hc

end Blocked

/-! ## Who has to be woken -/

/-- Context `c` of thread `j` has found `p` not ready, and nothing has woken it since. -/
def Unserved (w : World V) (p : PromId) (j : ThreadId) (c : CtxId) : Prop :=
  (w.thr j).BlockedOn p c ∨ ∃ d k, w.stack j c = .wait .block p d :: k

/-- A context in the blocked list stays where it is. -/
theorem Move.stack_blocked (hm : Move w₀ i ph w ph' w' es) (hs : Sane w) {R B : List CtxId}
    (h : PlacedAs R B ph w i) {c : CtxId} (hc : c ∈ B) : w'.stack i c = w.stack i c := by
  obtain ⟨q, d, k, hk, -⟩ := h.2.waits c hc
  by_cases hph : ph = .start
  · subst hph
    refine hm.stack_suspended hs.valid (fun _ => ⟨?_, h.2.lists.alloc c (.inr (.inl hc))⟩)
    exact h.2.ne_cur (hs.valid i) (.inr (.inl hc))
  · rw [hk, hm.stack_later hph hs hk (by simp)]

/-- Nothing stands on a wait that is past its locks. -/
theorem Nested.not_above_past {f : Frame V} {pc : WaitPc} {d : Int} {k : List (Frame V)} (hc : pc ≠ .check)
    (hr : pc ≠ .ready) : ¬ Nested (f :: .wait pc p d :: k) := by
  intro hn
  rcases hn.not_above_wait.2 with h | h
  · exact hc h
  · exact hr h

theorem unwind_not_past (i : ThreadId) {pc : WaitPc} {d : Int} {k : List (Frame V)} (k' : List (Frame V))
    (hn : Nested k) (hc : pc ≠ .check) (hr : pc ≠ .ready) :
    (unwind i k).1 ≠ .wait pc p d :: k' ∨ k = .wait pc p d :: k' := by
  unfold unwind
  split
  · refine .inl (fun e => ?_)
    subst e
    exact Nested.not_above_past hc hr hn
  · simp
  · refine .inl (fun e => ?_)
    subst e
    exact Nested.not_above_past hc hr hn
  · by_cases h : k = .wait pc p d :: k'
    · exact .inr h
    · exact .inl h

/-- How a wait on `p` gets past its locks and on from there. `k` is the stack below it. -/
inductive GoesOn (w w' : World V) (i : ThreadId) (p : PromId) (d : Int) (k : List (Frame V)) : WaitPc → Prop
  | notReady : w.cpu i = .wait .ready p d :: k → (w'.prom p).ready = false → GoesOn w w' i p d k .block
  | isReady : w.cpu i = .wait .ready p d :: k → (w'.prom p).ready = true → GoesOn w w' i p d k .finish
  | blocks : w.cpu i = .wait .block p d :: k →
      w' = (w.setThr i ((w.thr i).ensureCurrent.2.waitOn (w.thr i).ensureCurrent.1 p d)).setCpu i
        (.wait .resumed p d :: k) → GoesOn w w' i p d k .resumed
  | resumes : w.cpu i = .wait .resumed p d :: k → w'.prom = w.prom → GoesOn w w' i p d k .finish

theorem Local.goes_on {pc : WaitPc} {d : Int} {k l : List (Frame V)} (hl : Local w i (w.cpu i) l es)
    (hn : Nested (w.cpu i)) (hc : pc ≠ .check) (hr : pc ≠ .ready) (hk : l = .wait pc p d :: k) :
    GoesOn w (w.setCpu i l) i p d k pc := by
  generalize hcpu : w.cpu i = k₀ at hl hn
  cases hl with
  | notReady h => cases hk; exact .notReady hcpu h
  | isReady h => cases hk; exact .isReady hcpu h
  | raiseYield =>
    rcases unwind_not_past (p := p) (d := d) i k hn.tail hc hr with h | h
    · exact absurd hk h
    · rw [h] at hn; exact absurd hn (Nested.not_above_past hc hr)
  | callWait => cases hk; exact absurd rfl hc
  | callSet | callExec | startYield | finishSet | again | toLock | toSwitch | wakeup | notifyRead => cases hk
  | _ => subst hk; exact absurd hn (Nested.not_above_past hc hr)

/-- A wait that is past its locks was there before, or goes on in the first move of a step. -/
theorem Move.past_from (hm : Move w₀ i ph w ph' w' es) (h : Orderly ph w i) {j : ThreadId} {c : CtxId}
    {pc : WaitPc}
    {d : Int} {k : List (Frame V)} (hc : pc ≠ .check) (hr : pc ≠ .ready) (hk : w'.stack j c = .wait pc p d :: k) :
    w.stack j c = .wait pc p d :: k ∨
      (ph = .start ∧ AtStart w₀ w ∧ j = i ∧ c = w.cur i ∧ GoesOn w w' i p d k pc) := by
  by_cases hsw : ∃ r, w' = w.switch i r (w.cpu i)
  · obtain ⟨r, rfl⟩ := hsw
    rcases stack_switch (i := i) h.sane.valid r j c with e | ⟨-, -, -, -, e⟩ <;> rw [e] at hk
    · exact .inl hk
    · cases hk
  · rw [((hm.stackStep h.sane.valid).resolve_right hsw).stack] at hk
    split at hk
    · next hjc =>
      obtain ⟨rfl, rfl⟩ := hjc
      have hnest := h.nested j (w.cur j)
      rw [stack_cur] at hnest
      rw [stack_cur]
      cases hm with
      | switch | reschedule => exact absurd ⟨_, rfl⟩ hsw
      | clock | go | newPromise | async | asyncVoid | expireSleep | dequeue => exact .inl hk
      | cancel =>
        rw [show (w.cancelTask _).cpu = w.cpu by simp only [cancelTask]; split <;> rfl] at hk
        exact .inl hk
      | quit hq => rw [(quit_stacks hq).2.1] at hk; exact .inl hk
      | expireWait _ _ _ _ hx => rw [(setException_frame hx).cpu] at hk; exact .inl hk
      | stackTop hs hl =>
        simp only [setCpu_cpu, if_true] at hk
        exact .inr ⟨rfl, hs, rfl, rfl, hl.goes_on hnest hc hr hk⟩
      | waitOn hs hcpu =>
        simp only [setCpu_cpu, if_true] at hk
        cases hk
        exact .inr ⟨rfl, hs, rfl, rfl, .blocks hcpu rfl⟩
      | resumeWait hs hcpu =>
        simp only [setCpu_cpu, if_true] at hk
        cases hk
        exact .inr ⟨rfl, hs, rfl, rfl, .resumes hcpu rfl⟩
      | enqueueThread =>
        simp only [setCpu_cpu, if_true] at hk
        cases hk
        exact absurd rfl hr
      | sync =>
        simp only [setCpu_cpu, if_true] at hk
        cases hk
        exact absurd rfl hc
      | storeValue | storeError | ran | release | drain | check | sleepOn => simp at hk
      | finishError _ hcpu | post _ hcpu | resumeSleep hcpu | abandon hcpu =>
        simp only [setCpu_cpu, if_true] at hk
        rw [hcpu, hk] at hnest
        exact absurd hnest (Nested.not_above_past hc hr)
      | runTask hcpu hr =>
        rcases runTask_cpu hr with ⟨q, hb, -, e⟩ | ⟨-, e⟩ | ⟨q, -, -, e⟩ <;> rw [e] at hk <;> cases hk
    · exact .inl hk

/-- A wait gets to where it blocks from its second check only. -/
theorem Move.block_from (hm : Move w₀ i ph w ph' w' es) (h : Orderly ph w i) {j : ThreadId} {c : CtxId} {d : Int}
    {k : List (Frame V)} (hk : w'.stack j c = .wait .block p d :: k) :
    w.stack j c = .wait .block p d :: k ∨
      (AtStart w₀ w ∧ j = i ∧ c = w.cur i ∧ w.stack j c = .wait .ready p d :: k ∧ (w'.prom p).ready = false) := by
  rcases hm.past_from h (by simp) (by simp) hk with hk | ⟨-, hs, rfl, rfl, hgo⟩
  · exact .inl hk
  · cases hgo with
    | notReady hcpu hr => exact .inr ⟨hs, rfl, rfl, (stack_cur w j).trans hcpu, hr⟩

/-- Nobody else comes to wait to be woken for `p`, unless `p` is not ready. -/
theorem Move.unserved_from (hm : Move w₀ i ph w ph' w' es) (hq : NoQuit es) (hone : OneTimed w₀)
    (h : Orderly ph w i) {j : ThreadId} {c : CtxId} (hu : Unserved w' p j c) :
    Unserved w p j c ∨ (AtStart w₀ w ∧ j = i ∧ c = w.cur i ∧ (∃ d k, w.stack j c = .wait .ready p d :: k) ∧
      (w'.prom p).ready = false) := by
  rcases hu with hb | ⟨d, k, hk⟩
  · by_cases hj : j = i
    · subst hj
      obtain ⟨R, B, hpl⟩ := h.placed
      obtain ⟨R', B', hpl', -, hsub⟩ := hm.relisted hq hone h.sane.valid hpl
      obtain ⟨hc, d, k, hk⟩ := hpl'.2.blockedOn_stack hb
      have hold : c ∈ B → Unserved w p j c := by
        intro hB
        rw [hm.stack_blocked h.sane hpl hB] at hk
        exact .inl (hpl.2.stack_blockedOn hB hk)
      cases hsub with
      | same e => exact .inl (hold (e ▸ hc))
      | notified _ hnot => exact .inl (hold (hnot.subset c hc))
      | blocks hcpu e hst =>
        subst e
        rcases List.mem_cons.1 hc with rfl | hB
        · rw [hst] at hk
          cases hk
          exact .inl (.inr ⟨_, _, (stack_cur w j).trans hcpu⟩)
        · exact .inl (hold hB)
    · exact .inl (.inl ((hm.foreign hj).blockedOn.1 hb))
  · rcases hm.block_from h hk with hk | ⟨hs, hj, hc, hk, hr⟩
    · exact .inl (.inr ⟨d, k, hk⟩)
    · exact .inr ⟨hs, hj, hc, ⟨d, k, hk⟩, hr⟩

/-- Only a running context is at the point where it blocks. -/
theorem Orderly.block_cpu (h : Orderly ph w i) {j : ThreadId} {c : CtxId} {d : Int} {k : List (Frame V)}
    (hk : w.stack j c = .wait .block p d :: k) : w.cpu j = .wait .block p d :: k := by
  by_cases hc : c = w.cur j
  · rw [hc, stack_cur] at hk
    exact hk
  · rcases h.resume j c hc with e | e <;> rw [hk] at e <;> cases e

theorem Orderly.placedAt (h : Orderly ph w i) (j : ThreadId) : ∃ ph' R B, PlacedAs R B ph' w j := by
  by_cases hj : j = i
  · subst hj
    exact ⟨ph, h.placed⟩
  · exact ⟨.out, h.others j hj⟩

/-- Whoever has to be woken for `p` is inside a wait on `p`. -/
theorem Unserved.waitOf {j : ThreadId} {c : CtxId} (hu : Unserved w p j c) (h : Orderly ph w i) :
    ∃ d, waitOf (w.stack j c) = some (p, d) := by
  rcases hu with hb | ⟨d, k, hk⟩
  · obtain ⟨ph', R, B, hpl⟩ := h.placedAt j
    obtain ⟨-, d, k, hk⟩ := hpl.2.blockedOn_stack hb
    exact ⟨d, by rw [hk]; rfl⟩
  · exact ⟨d, by rw [hk]; rfl⟩

/-! ## Who is going to wake it -/

/-- Thread `j` is going to be notified of `p`. -/
def Pending (ph : Phase) (w : World V) (i : ThreadId) (p : PromId) (j : ThreadId) : Prop :=
  (∃ j' c pc o b k, w.stack j' c = .set pc p o b :: k ∧ (pc = .notify ∨ pc = .post j)) ∨
  (∃ t ∈ (w.thr j).tasks, t.body = .notify p) ∨
  (j = i ∧ ∃ t, ph = .hand t ∧ t.body = .notify p)

/-- No thread has two contexts that wait on `p`. -/
def OneWait (p : PromId) (w : World V) : Prop :=
  ∀ j c c' d d', waitOf (w.stack j c) = some (p, d) → waitOf (w.stack j c') = some (p, d') → c = c'

/-- Whoever has to be woken for `p` is on the thread that `m_blocked_thread` names. -/
def Enqueued (p : PromId) (w : World V) : Prop :=
  ∀ j c, Unserved w p j c → (w.prom p).blockedThread = some j

/-- Whoever has to be woken although `p` is ready is going to be. -/
structure Handshake (p : PromId) (ph : Phase) (w : World V) (i : ThreadId) : Prop extends Orderly ph w i where
  one : ∀ j c c', Unserved w p j c → Unserved w p j c' → c = c'
  served : (w.prom p).ready = true → ∀ j c, Unserved w p j c → Pending ph w i p j

/-- A call of `notify` for thread `j` posts a task to it, or wakes the one context of it that is blocked on `p`. -/
theorem notify_reaches {j : ThreadId} {x : Option CtxId} {R B : List CtxId} (hn : w.notify i j p = some w')
    (hok : ThreadOk w i x R B) (hone : ∀ c c', (w.thr i).BlockedOn p c → (w.thr i).BlockedOn p c' → c = c') :
    (∃ t ∈ (w'.thr j).tasks, t.body = .notify p) ∨ (j = i ∧ ∀ c, ¬ (w'.thr i).BlockedOn p c) := by
  simp only [World.notify] at hn
  split at hn
  · next hj =>
    obtain ⟨s, hs, rfl⟩ := Option.map_eq_some_iff.1 hn
    refine .inr ⟨hj, fun c => ?_⟩
    simpa using hok.notify_wakes hs hone c
  · obtain rfl := Option.some.inj hn
    exact .inl ⟨_, by rw [async_tasks]; simp; exact .inl rfl, rfl⟩

/-- A deadline that passes notifies the thread that `m_blocked_thread` names. -/
theorem Move.expired_reaches (hm : Move w₀ i ph w ph' w' es) (h : Handshake p ph w i) {c₀ c : CtxId}
    {j : ThreadId} (he : .expired i c₀ p ∈ es) (hb : (w.prom p).blockedThread = some j) (hu : Unserved w' p j c)
    (hold : Unserved w p j c) : ∃ t ∈ (w'.thr j).tasks, t.body = .notify p := by
  obtain ⟨-, hph, -, hc₀, ⟨v, hv⟩, -, hp, hx⟩ := hm.expired_cases he
  obtain ⟨R, B, -, hok⟩ := h.placed
  have hok' := hok.sleepPop hv (by simp [hp])
  obtain ⟨hB, -⟩ := hok.sleeper hc₀ hp
  have hb₀ : (w.thr i).BlockedOn p c₀ := hok.lists.blockedOn.2 ⟨hB, hp⟩
  rw [setException, notifyBase, show (((w.setThr i (w.thr i).sleepPop).modProm p
    (fun q => { q with error := some .futureWaitTimeout })).prom p).blockedThread = some j by
      simpa [modProm, setThr] using hb] at hx
  have hone : ∀ c c', ((w.setThr i (w.thr i).sleepPop).thr i).BlockedOn p c →
      ((w.setThr i (w.thr i).sleepPop).thr i).BlockedOn p c' → c = c' := by
    intro c c' hc hc'
    simp only [setThr_thr, if_true] at hc hc'
    exact h.one i c c' (.inl hc) (.inl hc')
  have hok'' : ThreadOk ((w.setThr i (w.thr i).sleepPop).modProm p
      (fun q => { q with error := some .futureWaitTimeout })) i _ R B :=
    hok'.congr ⟨rfl, rfl, rfl, rfl, rfl, fun _ _ => ⟨rfl, rfl, rfl, rfl⟩⟩ (fun _ _ => rfl)
  rcases notify_reaches hx hok'' hone with ht | ⟨rfl, hnone⟩
  · exact ht
  · rcases hu with hb' | ⟨d, k, hk⟩
    · exact absurd hb' (hnone c)
    · -- the context that the deadline belongs to is the only one, and it is blocked already
      obtain ⟨-, d', k', hk'⟩ := hok.blockedOn_stack hb₀
      obtain rfl := h.one j c c₀ hold (.inl hb₀)
      rw [hm.stack_later hph h.sane hk' (by simp)] at hk
      cases hk

theorem Move.ready_from (hm : Move w₀ i ph w ph' w' es) (hq : NoQuit es) (hr : (w.prom p).ready = false)
    (hr' : (w'.prom p).ready = true) :
    (∃ o b k, w'.cpu i = .set .notify p o b :: k ∧ es = [.stored p o]) ∨ ∃ c, .expired i c p ∈ es := by
  simp only [Promise.ready, Bool.or_eq_false_iff, Option.isSome_eq_false_iff, Option.isNone_iff_eq_none] at hr
  rcases hm.prom_cases hq p with ⟨he, hv⟩ | ⟨-, he, hv⟩ | ⟨hv, ⟨d, k, e, -, -, -, -, he⟩ | ⟨e, b, k, -, hcpu, hes, -⟩ |
    ⟨c, v, -, -, -, hes, -⟩⟩ | ⟨v, b, k, -, hcpu, hes, -⟩
  · simp [Promise.ready, he, hv, hr] at hr'
  · simp [Promise.ready, he, hv] at hr'
  · simp [Promise.ready, he, hv, hr] at hr'
  · exact .inl ⟨_, _, _, hcpu, hes⟩
  · exact .inr ⟨c, by rw [hes]; exact List.mem_singleton_self _⟩
  · exact .inl ⟨_, _, _, hcpu, hes⟩

/-- What a call does that has stored into `p`. -/
theorem Move.notifier (hm : Move w₀ i ph w ph' w' es) (hq : NoQuit es) (hs : Sane w) {j : ThreadId} {c : CtxId}
    {pc : SetPc} {o : Outcome V} {b : Bool} {k : List (Frame V)} (hk : w.stack j c = .set pc p o b :: k)
    (hpc : pc ≠ .store) :
    w'.stack j c = .set pc p o b :: k ∨
      (AtStart w₀ w ∧ w.cpu i = .set .notify p o b :: k ∧ w'.cpu i ≠ w.cpu i ∧ ((w.prom p).blockedThread = none ∨
        ∃ t, (w.prom p).blockedThread = some t ∧ w'.stack j c = .set (.post t) p o b :: k)) ∨
      (w.cpu i = .set pc p o b :: k ∧ ∃ t w₁, pc = .post t ∧ w.notify i t p = some w₁ ∧ w' = w₁.setCpu i k) := by
  by_cases hph : ph = .start
  · subst hph
    by_cases hjc : j = i ∧ c = w.cur i
    · obtain ⟨rfl, rfl⟩ := hjc
      rcases hm.stackStep_or_switch hs.valid with hst | ⟨r, -, -, h | ⟨-, f, k', hcpu, hf⟩⟩
      · rw [hst.stack, if_pos ⟨rfl, rfl⟩]
        rw [stack_cur] at hk
        cases hm with
        | clock | go | newPromise | async | asyncVoid => exact .inl hk
        | cancel =>
          rw [show (w.cancelTask _).cpu = w.cpu by simp only [cancelTask]; split <;> rfl]
          exact .inl hk
        | quit => exact absurd (by simp) (hq j)
        | stackTop hs hl =>
          simp only [setCpu_cpu, if_true]
          rw [hk] at hl
          cases hl with
          | callWait hx | callSet hx | callExec hx => cases hx
          | startYield hx =>
            rcases hx with hx | hx
            · cases hx
            · cases pc <;> first | exact absurd rfl hpc | cases hx
          | drop => exact absurd rfl hpc
          | notifyNone hb => exact .inr (.inl ⟨hs, hk, by simp [hk], .inl hb⟩)
          | notifyRead hb => exact .inr (.inl ⟨hs, hk, by simp [hk], .inr ⟨_, hb, rfl⟩⟩)
        | sync _ _ _ _ _ hx | sleepOn _ _ hx => rw [hk] at hx; cases hx
        | post _ hcpu hn =>
          rw [hk] at hcpu
          cases hcpu
          exact .inr (.inr ⟨hk, _, _, rfl, hn, rfl⟩)
        | storeValue _ hcpu | storeError _ hcpu =>
          rw [hk] at hcpu
          cases hcpu
          exact absurd rfl hpc
        | waitOn _ hcpu | enqueueThread _ hcpu | resumeWait _ hcpu | finishError _ hcpu | ran hcpu | release hcpu
        | resumeSleep hcpu | check hcpu => rw [hk] at hcpu; cases hcpu
        | expireSleep hph | expireWait hph => exact absurd rfl hph
      · cases h
      · rw [stack_cur, hcpu] at hk
        cases hk
        rcases hf with h | ⟨tm, h⟩ <;> cases h
    · refine .inl ((hm.stack_suspended hs.valid (fun e => ⟨fun e' => hjc ⟨e, e'⟩, ?_⟩)).trans hk)
      subst e
      by_contra hlt
      rw [hs.blank j c (Nat.not_lt.1 hlt) (fun e' => hjc ⟨rfl, e'⟩)] at hk
      cases hk
  · exact .inl (hm.stack_later hph hs hk (by simp))

theorem runTask_notify {t : Task} {tm : Int} {k : List (Frame V)} (hb : t.body = .notify p)
    (hr : w.runTask i t tm k = some (w', es)) : ∃ s, (w.thr i).notify p = some s ∧ w'.thr i = s := by
  simp only [World.runTask, hb] at hr
  obtain ⟨s, hs, he⟩ := Option.map_eq_some_iff.1 hr
  refine ⟨s, hs, ?_⟩
  rw [← (Prod.mk.inj he).1]
  simp [setCpu, setThr]

/-- Whoever is not blocked any more when thread `i` has been notified is not going to block either, unless thread
`i` was about to. -/
theorem Move.not_unserved (hm : Move w₀ i ph w ph' w' es) (h : Orderly ph w i) {f : Frame V} {k : List (Frame V)}
    (hcpu : w.cpu i = f :: k) (hf : ∀ pc d, f ≠ .wait pc p d) {c : CtxId} (hnone : ¬ (w'.thr i).BlockedOn p c) :
    ¬ Unserved w' p i c := by
  rintro (hb | ⟨d, k', hk⟩)
  · exact hnone hb
  · rcases hm.block_from h hk with hk | ⟨-, -, rfl, hk, -⟩
    · have hcpu' := h.block_cpu hk
      rw [hcpu] at hcpu'
      exact hf _ _ (List.cons.inj hcpu').1
    · rw [stack_cur, hcpu] at hk
      exact hf _ _ (List.cons.inj hk).1

/-- Whoever is going to be woken still is, unless it has been. -/
theorem Move.pending (hm : Move w₀ i ph w ph' w' es) (hq : NoQuit es) (h : Handshake p ph w i) {j : ThreadId}
    {c : CtxId}
    (hread : ∀ o b k, AtStart w₀ w → w.cpu i = .set .notify p o b :: k → w'.cpu i ≠ w.cpu i → Enqueued p w)
    (hu : Unserved w p j c)
    (hu' : Unserved w' p j c) (hpend : Pending ph w i p j) : Pending ph' w' i p j := by
  have hone : ∀ c c', (w.thr i).BlockedOn p c → (w.thr i).BlockedOn p c' → c = c' :=
    fun c c' hc hc' => h.one i c c' (.inl hc) (.inl hc')
  obtain ⟨R, B, -, hok⟩ := h.placed
  rcases hpend with ⟨j', c', pc, o, b, k, hk, hpc⟩ | ⟨t, ht, hb⟩ | ⟨rfl, t, rfl, hb⟩
  · -- the producer goes on
    have hst : pc ≠ .store := by rcases hpc with rfl | rfl <;> simp
    rcases hm.notifier hq h.sane hk hst with hk' | ⟨hs, hcpu, hne, hbt⟩ | ⟨hcpu, t, w₁, rfl, hn, rfl⟩
    · exact .inl ⟨j', c', pc, o, b, k, hk', hpc⟩
    · have hj := hread o b k hs hcpu hne j c hu
      rcases hbt with hbt | ⟨t, hbt, hk'⟩
      · rw [hj] at hbt
        cases hbt
      · obtain rfl : j = t := Option.some.inj (hj.symm.trans hbt)
        exact .inl ⟨j', c', _, o, b, k, hk', .inr rfl⟩
    · obtain rfl : t = j := by simpa using hpc
      rcases notify_reaches hn hok hone with ht | ⟨rfl, hnone⟩
      · exact .inr (.inl ht)
      · exact absurd hu' (hm.not_unserved h.toOrderly hcpu (by simp) (hnone c))
  · -- the task goes on
    rcases hm.tasks hq j with hperm | ⟨rfl, t', rfl, hperm⟩ | ⟨t', -, he⟩
    · exact .inr (.inl ⟨t, hperm.subset ht, hb⟩)
    · rcases List.mem_cons.1 (hperm.subset ht) with rfl | ht
      · exact .inr (.inr ⟨rfl, t, rfl, hb⟩)
      · exact .inr (.inl ⟨t, ht, hb⟩)
    · exact .inr (.inl ⟨t, by rw [he]; exact List.mem_cons_of_mem _ ht, hb⟩)
  · -- the task is run
    have hm' := hm
    cases hm with
    | clock | expireSleep | expireWait | check => exact .inr (.inr ⟨rfl, t, rfl, hb⟩)
    | abandon _ hd _ => rw [h.tasks.undone j] at hd; cases hd
    | runTask hcpu hr =>
      obtain ⟨s, hs, hthr⟩ := runTask_notify hb hr
      exact absurd hu' (hm'.not_unserved h.toOrderly hcpu (by simp) (hthr ▸ hok.notify_wakes hs hone c))

theorem Move.handshake (hm : Move w₀ i ph w ph' w' es) (hq : NoQuit es) (hone : OneTimed w₀) (hwait : OneWait p w₀)
    (hread : ∀ o b k, AtStart w₀ w → w.cpu i = .set .notify p o b :: k → w'.cpu i ≠ w.cpu i → Enqueued p w)
    (hexp : ∀ c, .expired i c p ∈ es → Enqueued p w) (h : Handshake p ph w i) : Handshake p ph' w' i where
  toOrderly := hm.orderly hq hone h.toOrderly
  one := by
    -- a context that comes to wait for being woken is at its second check before
    have hnew : ∀ {c c'}, AtStart w₀ w → (∃ d k, w.stack i c = .wait .ready p d :: k) → Unserved w p i c' →
        c = c' := by
      rintro c c' ⟨t, -, rfl⟩ ⟨d, k, hk⟩ hu
      obtain ⟨d', hd'⟩ := hu.waitOf h.toOrderly
      refine hwait i c c' d d' ?_ hd'
      show waitOf ((w₀.setNow t).stack i c) = _
      rw [hk]
      rfl
    intro j c c' hc hc'
    rcases hm.unserved_from hq hone h.toOrderly hc with hc | ⟨hs, rfl, rfl, hk, -⟩ <;>
      rcases hm.unserved_from hq hone h.toOrderly hc' with hc' | ⟨hs', hj, rfl, hk', -⟩
    · exact h.one j c c' hc hc'
    · subst hj
      exact (hnew hs' hk' hc).symm
    · exact hnew hs hk hc'
    · rfl
  served := by
    intro hr j c hu'
    have hu :=
      (hm.unserved_from hq hone h.toOrderly hu').resolve_right (fun hn => by rw [hn.2.2.2.2] at hr; cases hr)
    have hexp' : ∀ {c₀}, .expired i c₀ p ∈ es → Pending ph' w' i p j := fun he =>
      .inr (.inl (hm.expired_reaches h he (hexp _ he j c hu) hu' hu))
    cases hr₀ : (w.prom p).ready with
    | true => exact hm.pending hq h hread hu hu' (h.served hr₀ j c hu)
    | false =>
      rcases hm.ready_from hq hr₀ hr with ⟨o, b, k, hcpu, -⟩ | ⟨c₀, he⟩
      · exact .inl ⟨i, w'.cur i, .notify, o, b, k, (stack_cur w' i).trans hcpu, .inl rfl⟩
      · exact hexp' he

end World

end BoostCmt
