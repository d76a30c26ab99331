import BoostCmt.Wakeups
/-!
# Which sleepers `check_for_timeouts` wakes

One pass over `sleep_pqueue` takes out the entries whose date has passed, the
earliest first. A plain sleeper goes to the back of the ready list. A waiter goes
through `set_exception` and `notify`, which write the lists that the pass works on.
As long as its promise names this thread and no other blocked context waits on it,
`notify` finds exactly that context.
-/

namespace BoostCmt

open StdHeap Linked Runs ThreadPrivate

variable {V : Type}

namespace World

variable {w w' : World V} {i : ThreadId} {R B : List CtxId} {es : List (Event V)}

/-- The promise of each blocked context names this thread, and no other blocked context waits on it. -/
def SoleWaiters (w : World V) (i : ThreadId) (B : List CtxId) : Prop :=
  ∀ c ∈ B, ∀ p, ((w.thr i).ctx c).prom = some p →
    (w.prom p).blockedThread = some i ∧ ∀ c' ∈ B, ((w.thr i).ctx c').prom = some p → c' = c

/-- Whether `c` waits on a promise. -/
def waits (w : World V) (i : ThreadId) (c : CtxId) : Bool := ((w.thr i).ctx c).prom.isSome

/-- Whether the date of `c` has passed. -/
def due (w : World V) (i : ThreadId) (c : CtxId) : Bool := ((w.thr i).ctx c).resumeTime ≤ w.now

/-- `w'` is `w` with the sleepers `E` of thread `i` woken. `R` and `B` were its ready and its blocked list. -/
structure Woken (w w' : World V) (i : ThreadId) (R B E : List CtxId) : Prop where
  sleep : (w.thr i).sleepPqueue.Perm (E ++ (w'.thr i).sleepPqueue)
  earliest : E.Pairwise fun c c' => ((w.thr i).ctx c).resumeTime ≤ ((w.thr i).ctx c').resumeTime
  lists : Lists (w'.thr i) ((E.filter (w.waits i)).reverse ++ R ++ E.filter (fun c => !w.waits i c))
    (B.filter (· ∉ E))
  core : SameCore (w.thr i) (w'.thr i)
  prom : ∀ c, c ∉ E → ((w'.thr i).ctx c).prom = ((w.thr i).ctx c).prom
  timeout : ∀ c ∈ E, ∀ p, ((w.thr i).ctx c).prom = some p → (w'.prom p).error = some .futureWaitTimeout
  promises : ∀ p, (∀ c ∈ E, ((w.thr i).ctx c).prom ≠ some p) → w'.prom p = w.prom p
  others : ∀ j, j ≠ i → w'.thr j = w.thr j
  frame : SameFrame w w'

/-- Nobody is woken. -/
theorem Woken.none (h : Lists (w.thr i) R B) : Woken w w i R B [] where
  sleep := .refl _
  earliest := .nil
  lists := by simpa using h
  core := .refl _
  prom _ _ := rfl
  timeout _ hc := by cases hc
  promises _ _ := rfl
  others _ _ := rfl
  frame := ⟨rfl, rfl, rfl, rfl⟩

/-- Waking `E₁` and then `E₂`, whose dates are later. -/
theorem Woken.trans {w₁ : World V} {E₁ E₂ : List CtxId} (h : Lists (w.thr i) R B) (h₁ : Woken w w₁ i R B E₁)
    (h₂ : Woken w₁ w' i ((E₁.filter (w.waits i)).reverse ++ R ++ E₁.filter (fun c => !w.waits i c))
      (B.filter (· ∉ E₁)) E₂)
    (hlater : ∀ c ∈ E₁, ∀ c' ∈ E₂, ((w.thr i).ctx c).resumeTime ≤ ((w.thr i).ctx c').resumeTime) :
    Woken w w' i R B (E₁ ++ E₂) := by
  have hnd := h₁.sleep.nodup_iff.1 h.sleep_nodup
  have hsub : ∀ c ∈ E₂, c ∈ (w₁.thr i).sleepPqueue := fun c hc => h₂.sleep.mem_iff.2 (List.mem_append_left _ hc)
  have hnot : ∀ c ∈ E₂, c ∉ E₁ := fun c hc hc₁ => (List.nodup_append.1 hnd).2.2 c hc₁ c (hsub c hc) rfl
  have hwaits : ∀ c ∈ E₂, w₁.waits i c = w.waits i c := fun c hc => by simp only [waits, h₁.prom c (hnot c hc)]
  constructor
  · rw [List.append_assoc]
    exact h₁.sleep.trans (h₂.sleep.append_left E₁)
  · refine List.pairwise_append.2 ⟨h₁.earliest, h₂.earliest.imp (fun {a b} hab => ?_), hlater⟩
    rwa [h₁.core.resumeTime, h₁.core.resumeTime] at hab
  · have hl := h₂.lists
    rw [List.filter_congr hwaits, List.filter_congr (fun c hc => congrArg (!·) (hwaits c hc)), List.filter_filter] at hl
    simpa only [List.filter_append, List.reverse_append, List.append_assoc, List.mem_append, not_or,
      Bool.decide_and, Bool.and_comm, decide_not] using hl
  · exact h₁.core.trans h₂.core
  · intro c hc
    rw [List.mem_append, not_or] at hc
    rw [h₂.prom c hc.2, h₁.prom c hc.1]
  · intro c hc p hp
    by_cases hc₂ : ∃ x ∈ E₂, ((w₁.thr i).ctx x).prom = some p
    · obtain ⟨x, hx, hxp⟩ := hc₂
      exact h₂.timeout x hx p hxp
    · rw [h₂.promises p (fun x hx e => hc₂ ⟨x, hx, e⟩)]
      rcases List.mem_append.1 hc with hc | hc
      · exact h₁.timeout c hc p hp
      · exact absurd ⟨c, hc, (h₁.prom c (hnot c hc)).trans hp⟩ hc₂
  · intro p hp
    rw [h₂.promises p (fun c hc e => ?_), h₁.promises p (fun c hc => hp c (List.mem_append_left _ hc))]
    exact hp c (List.mem_append_right _ hc) ((h₁.prom c (hnot c hc)).symm.trans e)
  · exact fun j hj => (h₂.others j hj).trans (h₁.others j hj)
  · exact h₁.frame.trans h₂.frame

/-- The front of `sleep_pqueue` is woken, if it waits on no promise. -/
theorem woken_plain {v : List CtxId} {c : CtxId} (h : Lists (w.thr i) R B) (hq : (w.thr i).sleepPqueue = c :: v)
    (hp : ((w.thr i).ctx c).prom = .none) :
    Woken w (w.setThr i ((w.thr i).sleepPop.readyPushBack c)) i R B [c] := by
  have hc : c ∈ (w.thr i).sleepPqueue := hq ▸ List.mem_cons_self
  have hB : c ∉ B := fun hcB => (h.sleep_prom c hc).2 hcB hp
  have hw : w.waits i c = false := by simp [waits, hp]
  obtain ⟨core, hs, -, hx⟩ := readyPushBack_core (w.thr i).sleepPop c
  obtain ⟨hl, hcs⟩ := h.sleepPop hq
  constructor
  · rw [setThr_thr, if_pos rfl, hs, hq]
    exact (sleepPop_perm hq).symm.cons c
  · exact List.pairwise_singleton _ _
  · have hBB : B.filter (fun x => decide (x ∉ [c])) = B := List.filter_eq_self.2 (fun a ha => by
      simp only [List.mem_singleton, decide_eq_true_eq]
      exact fun e => hB (e ▸ ha))
    rw [hBB, setThr_thr, if_pos rfl]
    simpa [hw] using hl.pushBack (h.sleep_ready c hc) hB hcs (h.alloc c (.inr (.inr hc)))
  · rw [setThr_thr, if_pos rfl]
    exact (sleepPop_core _).trans core
  · intro x _
    rw [setThr_thr, if_pos rfl]
    exact (hx x).1
  · intro x hxc p hxp
    rw [List.mem_singleton.1 hxc, hp] at hxp
    cases hxp
  · exact fun _ _ => rfl
  · exact fun j hj => by rw [setThr_thr, if_neg hj]
  · exact ⟨rfl, rfl, rfl, rfl⟩

/-- `set_exception` on a promise whose waiter is on the own thread. -/
theorem setException_own {p : PromId} {e : Error} {s : ThreadPrivate} (hb : (w.prom p).blockedThread = some i)
    (hs : (w.thr i).notify p = some s) :
    w.setException i p e = some ((w.modProm p (fun q => { q with error := some e })).setThr i s) := by
  have hb' : ((w.modProm p (fun q => { q with error := some e })).prom p).blockedThread = some i := by
    simp [modProm, hb]
  have hs' : ((w.modProm p (fun q => { q with error := some e })).thr i).notify p = some s := hs
  simp only [setException, notifyBase, hb', notify, if_true, hs', Option.map_some]

/-- The front of `sleep_pqueue` is woken, if it is the one waiter of `p`. -/
theorem woken_waiter {v : List CtxId} {c : CtxId} {p : PromId} (h : Lists (w.thr i) R B)
    (hsole : SoleWaiters w i B) (hq : (w.thr i).sleepPqueue = c :: v) (hp : ((w.thr i).ctx c).prom = some p) :
    ∃ w₁, (w.setThr i (w.thr i).sleepPop).setException i p .futureWaitTimeout = some w₁ ∧ Woken w w₁ i R B [c] ∧
      ∀ q, (w₁.prom q).blockedThread = (w.prom q).blockedThread := by
  have hc : c ∈ (w.thr i).sleepPqueue := hq ▸ List.mem_cons_self
  have hB : c ∈ B := (h.sleep_prom c hc).1 (by rw [hp]; simp)
  have hw : w.waits i c = true := by simp [waits, hp]
  obtain ⟨hblk, huniq⟩ := hsole c hB p hp
  obtain ⟨hl, hcs⟩ := h.sleepPop hq
  obtain ⟨B₁, B₂, rfl⟩ := List.append_of_mem hB
  have hnd := h.blocked.nodup
  rw [List.nodup_middle, List.nodup_cons] at hnd
  have hfirst : ∀ x ∈ B₁, ((w.thr i).sleepPop.ctx x).prom ≠ some p := fun x hx e =>
    hnd.1 (huniq x (by simp [hx]) e ▸ List.mem_append_left _ hx)
  have hsleep : ∀ x ∈ (w.thr i).sleepPop.sleepPqueue, ((w.thr i).sleepPop.ctx x).prom = some p → x = c :=
    fun x hx e =>
    huniq x ((hl.sleep_prom x hx).1 (by rw [e]; simp)) e
  obtain ⟨s, hs, core, hl', hperm, hx⟩ := hl.notify_some hfirst hp hsleep
  refine ⟨_, setException_own (s := s) hblk (by rwa [setThr_thr, if_pos rfl]), ?_, fun q => ?_⟩
  · constructor
    · rw [setThr_thr, if_pos rfl, hq]
      rw [List.erase_of_not_mem hcs] at hperm
      exact ((hperm.trans (sleepPop_perm hq)).symm).cons c
    · exact List.pairwise_singleton _ _
    · have hBB : (B₁ ++ c :: B₂).filter (fun x => decide (x ∉ [c])) = B₁ ++ B₂ := by
        have hne : ∀ x ∈ B₁ ++ B₂, decide (x ∉ [c]) = true := fun x hx => by
          simp only [List.mem_singleton, decide_eq_true_eq]
          exact fun e => hnd.1 (e ▸ hx)
        rw [List.filter_append, List.filter_cons_of_neg (by simp), ← List.filter_append, List.filter_eq_self.2 hne]
      rw [hBB, setThr_thr, if_pos rfl]
      simpa [hw] using hl'
    · rw [setThr_thr, if_pos rfl]
      exact (sleepPop_core _).trans core
    · intro x hxc
      rw [setThr_thr, if_pos rfl]
      exact hx x (fun e => hxc (List.mem_singleton.2 e))
    · intro x hxc q hxq
      rw [List.mem_singleton.1 hxc, hp] at hxq
      obtain rfl := Option.some.inj hxq
      simp [modProm, setThr]
    · intro q hq'
      have hqp : q ≠ p := fun e => hq' c List.mem_cons_self (e ▸ hp)
      simp [modProm, setThr, hqp]
    · exact fun j hj => by simp [hj, modProm, setThr]
    · exact ⟨rfl, rfl, rfl, rfl⟩
  · simp only [modProm, setThr]
    split <;> rfl

/-- Waking the waiter `c` leaves the other waiters alone on their promises. -/
theorem SoleWaiters.woken {w₁ : World V} {E B' : List CtxId} (h : SoleWaiters w i B) (hw : Woken w w₁ i R B E)
    (hb : ∀ q, (w₁.prom q).blockedThread = (w.prom q).blockedThread) (hB : ∀ c ∈ B', c ∈ B ∧ c ∉ E) :
    SoleWaiters w₁ i B' := by
  intro c hc p hp
  rw [hw.prom c (hB c hc).2] at hp
  obtain ⟨hblk, huniq⟩ := h c (hB c hc).1 p hp
  refine ⟨(hb p).trans hblk, fun c' hc' hp' => ?_⟩
  rw [hw.prom c' (hB c' hc').2] at hp'
  exact huniq c' (hB c' hc').1 hp'

/-- The loop of `check_for_timeouts`, with fuel for every sleeper: it wakes those whose date has passed. -/
theorem expire_wakes (fuel : Nat) : ∀ {w : World V} {R B : List CtxId}, Lists (w.thr i) R B → SoleWaiters w i B →
    (w.thr i).sleepPqueue.length < fuel →
    ∃ w' es E, expire i fuel w = some (w', es) ∧ Woken w w' i R B E ∧ (∀ c ∈ E, w.due i c = true) ∧
      ∀ c ∈ (w'.thr i).sleepPqueue, w.due i c = false := by
  induction fuel with
  | zero => exact fun _ _ hf => absurd hf (Nat.not_lt_zero _)
  | succ fuel ih =>
    intro w R B h hsole hf
    cases hq : (w.thr i).sleepPqueue with
    | nil =>
      refine ⟨w, [], [], by simp only [expire, hq], .none h, fun c hc => ?_, fun c hc => ?_⟩
      · cases hc
      · rw [hq] at hc; cases hc
    | cons c v =>
      have hmin := h.front_min hq
      by_cases hdue : ((w.thr i).ctx c).resumeTime ≤ w.now
      · -- whatever wakes `c`, the rest of the pass wakes the later ones
        have hrest : ∀ {w₁ : World V}, Woken w w₁ i R B [c] →
            (∀ q, (w₁.prom q).blockedThread = (w.prom q).blockedThread) →
            ∃ w' es E, expire i fuel w₁ = some (w', es) ∧ Woken w w' i R B (c :: E) ∧
            (∀ x ∈ c :: E, w.due i x = true) ∧
              ∀ x ∈ (w'.thr i).sleepPqueue, w.due i x = false := by
          intro w₁ hw₁ hb
          have hsleep := hw₁.sleep
          rw [hq] at hsleep
          have hlen := hsleep.length_eq
          rw [hq] at hf
          simp only [List.length_cons, List.singleton_append] at hf hlen
          have hdue₁ : w₁.due i = w.due i := by
            funext x; simp only [due, hw₁.core.resumeTime, hw₁.frame.now]
          obtain ⟨w', es, E, he, hE, hall, hleft⟩ := ih hw₁.lists
            (hsole.woken hw₁ hb (fun x hx => by
              simpa only [List.mem_filter, decide_eq_true_eq] using hx)) (by omega)
          have hmem : ∀ x ∈ E, x ∈ (w.thr i).sleepPqueue := fun x hx => by
            rw [hq]
            exact hsleep.mem_iff.2 (List.mem_append_right _ (hE.sleep.mem_iff.2 (List.mem_append_left _ hx)))
          refine ⟨w', es, E, he, hw₁.trans h hE (fun a ha x hx => ?_), fun x hx => ?_, fun x hx => ?_⟩
          · rw [List.mem_singleton.1 ha]
            exact hmin x (hmem x hx)
          · rcases List.mem_cons.1 hx with rfl | hx
            · simpa [due] using hdue
            · rw [← hdue₁]; exact hall x hx
          · rw [← hdue₁]; exact hleft x hx
        cases hp : ((w.thr i).ctx c).prom with
        | none =>
          obtain ⟨w', es, E, he, hE⟩ := hrest (woken_plain h hq hp) (fun _ => rfl)
          refine ⟨w', es, c :: E, ?_, hE⟩
          simp only [expire, hq, ge_iff_le, hdue, if_true, hp, setThr_setThr, setThr_thr]
          exact he
        | some p =>
          obtain ⟨w₁, hx, hw₁, hb⟩ := woken_waiter h hsole hq hp
          obtain ⟨w', es, E, he, hE⟩ := hrest hw₁ hb
          refine ⟨w', .expired i c p :: es, c :: E, ?_, hE⟩
          simp [expire, hq, hdue, hp, hx, he]
      · refine ⟨w, [], [], by simp only [expire, hq, ge_iff_le, hdue, if_false], .none h, fun x hx => ?_, fun x hx => ?_⟩
        · cases hx
        · have := hmin x hx
          simp only [due, decide_eq_false_iff_not]
          omega

/-! ## The whole check -/

/-- Which sleepers are woken, by the pass over `sleep_pqueue` or by an early return. -/
structure WakesDue (w w' : World V) (i : ThreadId) (R B E : List CtxId) : Prop extends Woken w w' i R B E where
  woken : E.Perm ((w.thr i).sleepPqueue.filter (w.due i))
  left : (w'.thr i).sleepPqueue.Perm ((w.thr i).sleepPqueue.filter fun c => !w.due i c)

theorem Woken.wakesDue {E : List CtxId} (h : Woken w w' i R B E) (hE : ∀ c ∈ E, w.due i c = true)
    (hleft : ∀ c ∈ (w'.thr i).sleepPqueue, w.due i c = false) : WakesDue w w' i R B E where
  toWoken := h
  woken := by
    have hnil : (w'.thr i).sleepPqueue.filter (w.due i) = [] :=
      List.filter_eq_nil_iff.2 (fun c hc => by simp [hleft c hc])
    have hp := h.sleep.filter (w.due i)
    rw [List.filter_append, List.filter_eq_self.2 hE, hnil, List.append_nil] at hp
    exact hp.symm
  left := by
    have hnil : E.filter (fun c => !w.due i c) = [] := List.filter_eq_nil_iff.2 (fun c hc => by simp [hE c hc])
    have hself : (w'.thr i).sleepPqueue.filter (fun c => !w.due i c) = (w'.thr i).sleepPqueue :=
      List.filter_eq_self.2 (fun c hc => by simp [hleft c hc])
    have hp := h.sleep.filter fun c => !w.due i c
    rw [List.filter_append, hnil, hself, List.nil_append] at hp
    exact hp.symm

/-- No sleeper is due while the clock is before the earliest time point. -/
theorem not_due_of_lt (h : Lists (w.thr i) R B) (hlt : w.now < nextDeadline (w.thr i)) {c : CtxId}
    (hc : c ∈ (w.thr i).sleepPqueue) : w.due i c = false := by
  cases hq : (w.thr i).sleepPqueue with
  | nil => rw [hq] at hc; cases hc
  | cons c₀ v =>
    have hmin := h.front_min hq c hc
    have hle : nextDeadline (w.thr i) ≤ ((w.thr i).ctx c₀).resumeTime := by
      simp only [nextDeadline, hq]
      split <;> omega
    simp only [due, decide_eq_false_iff_not]
    omega

/-- At most one context waits on each promise. -/
def AllAlone (w : World V) : Prop := ∀ p, AloneWait p w

theorem AllAlone.oneTimed (h : AllAlone w) : OneTimed w :=
  fun i c c' p _ _ hne hc hc' => absurd (Prod.mk.inj (h p i c i c' _ _ hc hc')).2 hne

/-- What `timeouts_wake` asks for holds in every run without `quit` and with at most one waiter per promise. -/
theorem soleWaiters_run (h : Run step (fun _ w _ e => AllAlone w ∧ NoQuit e) init w es) (hone : AllAlone w)
    (i : ThreadId) : ∃ R B, Lists (w.thr i) R B ∧ SoleWaiters w i B := by
  obtain ⟨R, B, -, hok⟩ := (intact_run (h.mono fun _ _ _ _ hok => ⟨hok.1.oneTimed, hok.2⟩)).2 i
  refine ⟨R, B, hok.lists, fun c hc p hp => ?_⟩
  obtain ⟨q, d, k, hk, hq, -⟩ := hok.waits c hc
  obtain rfl : q = p := Option.some.inj (hq.symm.trans hp)
  refine ⟨(enrolled_run (p := q) (h.mono fun _ _ _ _ hok => ⟨hok.1 q, hok.2, hok.1.oneTimed⟩) i).named i c .resumed d
    (hk ▸ List.mem_cons_self) (by simp), fun c' hc' hp' => ?_⟩
  obtain ⟨q', d', k', hk', hq', -⟩ := hok.waits c' hc'
  obtain rfl : q' = q := Option.some.inj (hq'.symm.trans hp')
  exact (Prod.mk.inj (hone q' i c' i c d' d (by rw [hk']; rfl) (by rw [hk]; rfl))).2

end World

end BoostCmt
