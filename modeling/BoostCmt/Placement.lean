import BoostCmt.Lib.Runs
import BoostCmt.Stacks
/-!
# Where contexts are

A suspended context is in the ready list, in the blocked list or asleep, and the
running one is in none of them. `ThreadOk` is the invariant of one thread: its
lists are intact, every context but the running one is on them, and the stack of
a context on them is inside the call that put it there.

Two contexts of one thread that wait on the same promise are the one danger:
`notify` takes the first of them off the blocked list and the first of them off
the sleepers, which need not be the same. So the runs here are those in which
such waits have no deadline.
-/

namespace BoostCmt

open ThreadPrivate StdHeap Linked Runs

variable {V : Type}

/-! ## Lists that do not change -/

/-- The lists are the same, and so is what the contexts in `P` hold for them. -/
structure SameLists (P : CtxId → Prop) (s s' : ThreadPrivate) : Prop where
  sleep : s'.sleepPqueue = s.sleepPqueue
  readyHead : s'.readyHead = s.readyHead
  readyTail : s'.readyTail = s.readyTail
  blocked : s'.blocked = s.blocked
  nctx : s'.nctx = s.nctx
  ctx : ∀ c, P c → (s'.ctx c).next = (s.ctx c).next ∧ (s'.ctx c).nextBlocked = (s.ctx c).nextBlocked ∧
    (s'.ctx c).prom = (s.ctx c).prom ∧ (s'.ctx c).resumeTime = (s.ctx c).resumeTime

theorem SameLists.mono {P Q : CtxId → Prop} {s s' : ThreadPrivate} (h : SameLists P s s') (hPQ : ∀ c, Q c → P c) :
    SameLists Q s s' :=
  ⟨h.sleep, h.readyHead, h.readyTail, h.blocked, h.nctx, fun c hc => h.ctx c (hPQ c hc)⟩

theorem Foreign.lists {s s' : ThreadPrivate} (h : Foreign s s') : SameLists (fun _ => True) s s' := by
  refine ⟨h.sleep, h.readyHead, h.readyTail, h.blocked, h.nctx, fun c _ => ?_⟩
  obtain ⟨b, hb⟩ := h.ctx c
  rw [hb]
  exact ⟨rfl, rfl, rfl, rfl⟩

theorem SameSched.lists {s s' : ThreadPrivate} (h : SameSched s s') : SameLists (fun _ => True) s s' := by
  refine ⟨h.sleep, h.readyHead, h.readyTail, h.blocked, h.nctx, fun c _ => ?_⟩
  rw [h.ctx]
  exact ⟨rfl, rfl, rfl, rfl⟩

theorem SameLists.modCtx (s : ThreadPrivate) (c : CtxId) (f : CmtContext → CmtContext) :
    SameLists (· ≠ c) s (s.modCtx c f) :=
  ⟨rfl, rfl, rfl, rfl, rfl, fun x hx => by simp [hx]⟩

theorem Lists.congr {s s' : ThreadPrivate} {R B : List CtxId} (h : Lists s R B)
    (hs : SameLists (fun c => c ∈ R ∨ c ∈ B ∨ c ∈ s.sleepPqueue) s s') : Lists s' R B where
  ready := by rw [hs.readyHead]; exact h.ready.congr (fun a ha => (hs.ctx a (.inl ha)).1)
  tail := by rw [hs.readyTail]; exact h.tail
  blocked := by rw [hs.blocked]; exact h.blocked.congr (fun a ha => (hs.ctx a (.inr (.inl ha))).2.1)
  disjoint := h.disjoint
  sleep_nodup := by rw [hs.sleep]; exact h.sleep_nodup
  sleep_ready := by rw [hs.sleep]; exact h.sleep_ready
  sleep_prom := by
    rw [hs.sleep]
    intro c hc
    rw [(hs.ctx c (.inr (.inr hc))).2.2.1]
    exact h.sleep_prom c hc
  heap := by
    rw [hs.sleep]
    refine h.heap.congr (fun a ha b hb => ?_)
    simp only [sleepPriorityLess, (hs.ctx a (.inr (.inr ha))).2.2.2, (hs.ctx b (.inr (.inr hb))).2.2.2]
  alloc := by rw [hs.sleep, hs.nctx]; exact h.alloc

/-- The push of `start_next_task(true)`. -/
theorem Lists.pushIf {s : ThreadPrivate} {R B : List CtxId} {c : CtxId} (r : Bool) (h : Lists s R B)
    (hc : r = true → c ∉ R ∧ c ∉ B ∧ c ∉ s.sleepPqueue ∧ c < s.nctx) :
    Lists (if r then s.readyPushBack c else s) (if r then R ++ [c] else R) B ∧
      SameCore s (if r then s.readyPushBack c else s) ∧
      (if r then s.readyPushBack c else s).sleepPqueue = s.sleepPqueue ∧
      ∀ x, ((if r then s.readyPushBack c else s).ctx x).prom = (s.ctx x).prom := by
  cases r with
  | false => exact ⟨h, .refl s, rfl, fun _ => rfl⟩
  | true =>
    obtain ⟨hR, hB, hS, hn⟩ := hc rfl
    obtain ⟨core, hs, -, hx⟩ := readyPushBack_core s c
    exact ⟨h.pushBack hR hB hS hn, core, hs, fun x => (hx x).1⟩

namespace World

/-! ## The invariant of one thread -/

/-- The promise and the deadline of the wait that a stack is inside of. -/
def waitOf : List (Frame V) → Option (PromId × Int)
  | .wait _ p d :: _ => some (p, d)
  | .yield :: .wait _ p d :: _ => some (p, d)
  | _ => none

theorem mem_of_waitOf {k : List (Frame V)} {p : PromId} {d : Int} (h : waitOf k = some (p, d)) :
    ∃ pc, Frame.wait pc p d ∈ k := by
  unfold waitOf at h
  split at h
  · obtain ⟨rfl, rfl⟩ := Prod.mk.inj (Option.some.inj h)
    exact ⟨_, List.mem_cons_self⟩
  · obtain ⟨rfl, rfl⟩ := Prod.mk.inj (Option.some.inj h)
    exact ⟨_, List.mem_cons_of_mem _ List.mem_cons_self⟩
  · cases h

/-- The lists of thread `i` hold every context but `x`, and each of them is inside the call that put it there. -/
structure ThreadOk (w : World V) (i : ThreadId) (x : Option CtxId) (R B : List CtxId) : Prop where
  lists : Lists (w.thr i) R B
  out : ∀ c, x = some c → c ∉ R ∧ c ∉ B ∧ c ∉ (w.thr i).sleepPqueue
  cover : ∀ c, c < (w.thr i).nctx → x = some c ∨ c ∈ R ∨ c ∈ B ∨ c ∈ (w.thr i).sleepPqueue
  waits : ∀ c ∈ B, ∃ p d k, w.stack i c = .wait .resumed p d :: k ∧ ((w.thr i).ctx c).prom = some p ∧
    (c ∈ (w.thr i).sleepPqueue → d ≠ timePointMax ∧ ((w.thr i).ctx c).resumeTime = d)
  sleeps : ∀ c ∈ (w.thr i).sleepPqueue, c ∉ B → ∃ k, w.stack i c = .sleep :: k
  single : ∀ c ∈ B, ∀ c' ∈ B, c' ∈ (w.thr i).sleepPqueue →
    ((w.thr i).ctx c).prom = ((w.thr i).ctx c').prom → c = c'

/-- The context that runs; while it is being suspended there is none. -/
def runs (ph : Phase) (s : ThreadPrivate) : Option CtxId :=
  match ph with
  | .suspended => none
  | _ => s.current

/-- The lists of thread `i` are intact, with these contents. -/
def PlacedAs (R B : List CtxId) (ph : Phase) (w : World V) (i : ThreadId) : Prop :=
  (ph = .suspended → (w.thr i).current ≠ none) ∧ ThreadOk w i (runs ph (w.thr i)) R B

/-- The lists of thread `i` are intact. -/
def Placed (ph : Phase) (w : World V) (i : ThreadId) : Prop := ∃ R B, PlacedAs R B ph w i

/-- What `notify` of `p` does to the lists: it makes the first context that waits on `p` ready. -/
def Notified (s : ThreadPrivate) (p : PromId) (R B R' B' : List CtxId) : Prop :=
  (R' = R ∧ B' = B ∧ ∀ x ∈ B, (s.ctx x).prom ≠ some p) ∨
    ∃ B₁ c B₂, B = B₁ ++ c :: B₂ ∧ (∀ x ∈ B₁, (s.ctx x).prom ≠ some p) ∧ (s.ctx c).prom = some p ∧
      R' = c :: R ∧ B' = B₁ ++ B₂

theorem Notified.subset {s : ThreadPrivate} {p : PromId} {R B R' B' : List CtxId} (h : Notified s p R B R' B') :
    ∀ c ∈ B', c ∈ B := by
  obtain ⟨-, rfl, -⟩ | ⟨B₁, x, B₂, rfl, -, -, -, rfl⟩ := h
  · exact fun _ => id
  · intro c hc
    rcases List.mem_append.1 hc with hc | hc <;> simp [hc]

/-- What a move of a thread does to its lists. `cur` is the context that runs, and `next` the one that runs
then. -/
inductive Relisted (s : ThreadPrivate) (cur next : CtxId) :
    List CtxId → List CtxId → List CtxId → List CtxId → Prop
  | same {R B} : Relisted s cur next R B R B
  | notified {R B R' B' p} : Notified s p R B R' B' → Relisted s cur next R B R' B'
  | woken {R B c} : c ∈ s.sleepPqueue → c ∉ B → Relisted s cur next R B (R ++ [c]) B
  | blocks {R B} : Relisted s cur next R B R (cur :: B)
  | pops {R B} : Relisted s cur next (next :: R) B R B
  | turns {R B} : Relisted s cur next (next :: R) B (R ++ [cur]) B
  | turnsNew {B} : Relisted s cur next [] B [cur] B

/-- Why thread `i` goes over its blocked list for `p`. -/
def Notifies (w : World V) (i : ThreadId) (ph : Phase) (es : List (Event V)) (p : PromId) : Prop :=
  (∃ t o b k, w.cpu i = .set (.post t) p o b :: k) ∨ (∃ t, ph = .hand t ∧ t.body = .notify p) ∨
    ∃ c, .expired i c p ∈ es

/-- What a move of thread `i` does to its blocked list, and why. -/
inductive Reblocked (w w' : World V) (i : ThreadId) (ph : Phase) (es : List (Event V)) (R B R' B' : List CtxId) :
    Prop
  | same : B' = B → Reblocked w w' i ph es R B R' B'
  | blocks {p d k} : w.cpu i = .wait .block p d :: k → B' = w.cur i :: B →
      w'.stack i (w.cur i) = .wait .resumed p d :: k → Reblocked w w' i ph es R B R' B'
  | notified {p} : Notifies w i ph es p → Notified (w.thr i) p R B R' B' → Reblocked w w' i ph es R B R' B'

section ThreadOk
variable {w w' : World V} {i : ThreadId} {x : Option CtxId} {R B : List CtxId}

theorem ThreadOk.congr (h : ThreadOk w i x R B)
    (hs : SameLists (fun c => c ∈ R ∨ c ∈ B ∨ c ∈ (w.thr i).sleepPqueue) (w.thr i) (w'.thr i))
    (hk : ∀ c, c ∈ B ∨ c ∈ (w.thr i).sleepPqueue → w'.stack i c = w.stack i c) : ThreadOk w' i x R B where
  lists := h.lists.congr hs
  out := by rw [hs.sleep]; exact h.out
  cover := by rw [hs.sleep, hs.nctx]; exact h.cover
  waits := by
    rw [hs.sleep]
    intro c hc
    obtain ⟨-, -, hp, ht⟩ := hs.ctx c (.inr (.inl hc))
    rw [hk c (.inl hc), hp, ht]
    exact h.waits c hc
  sleeps := by
    rw [hs.sleep]
    intro c hc hB
    rw [hk c (.inr hc)]
    exact h.sleeps c hc hB
  single := by
    rw [hs.sleep]
    intro c hc c' hc' hcs
    rw [(hs.ctx c (.inr (.inl hc))).2.2.1, (hs.ctx c' (.inr (.inl hc'))).2.2.1]
    exact h.single c hc c' hc' hcs

/-- What an entry of the sleepers that has a promise waits for. -/
theorem ThreadOk.sleeper (h : ThreadOk w i x R B) {c : CtxId} {p : PromId} (hc : c ∈ (w.thr i).sleepPqueue)
    (hp : ((w.thr i).ctx c).prom = some p) :
    c ∈ B ∧ ∃ k, w.stack i c = .wait .resumed p ((w.thr i).ctx c).resumeTime :: k ∧
      ((w.thr i).ctx c).resumeTime ≠ timePointMax := by
  have hB := (h.lists.sleep_prom c hc).1 (by simp [hp])
  obtain ⟨p', d, k, hk, hp', hd⟩ := h.waits c hB
  obtain rfl : p' = p := Option.some.inj (hp'.symm.trans hp)
  obtain ⟨hd, rfl⟩ := hd hc
  exact ⟨hB, k, hk, hd⟩

/-- `notify` on the own thread. -/
theorem ThreadOk.notify {p : PromId} {s : ThreadPrivate} (h : ThreadOk w i x R B)
    (hn : (w.thr i).notify p = some s) :
    ∃ R' B', ThreadOk (w.setThr i s) i x R' B' ∧ Notified (w.thr i) p R B R' B' := by
  have hstack : ∀ c, (w.setThr i s).stack i c = w.stack i c :=
    stack_setThr (by rw [(notify_core hn).current]; rfl) i
  rcases first_waiter B (fun c => ((w.thr i).ctx c).prom = some p) with hnone | ⟨B₁, c, B₂, rfl, hfirst, hc⟩
  · rw [h.lists.notify_none hnone] at hn
    obtain rfl := Option.some.inj hn
    refine ⟨R, B, h.congr ?_ (fun c _ => hstack c), .inl ⟨rfl, rfl, hnone⟩⟩
    rw [setThr_thr, if_pos rfl]
    exact ⟨rfl, rfl, rfl, rfl, rfl, fun _ _ => ⟨rfl, rfl, rfl, rfl⟩⟩
  · have hcB : c ∈ B₁ ++ c :: B₂ := by simp
    obtain ⟨s', hs', core, hl, hperm, hprom⟩ := h.lists.notify_some hfirst hc
      (fun y hy e => (h.single c hcB y ((h.lists.sleep_prom y hy).1 (by simp [e])) hy (hc.trans e.symm)).symm)
    obtain rfl : s' = s := Option.some.inj (hs'.symm.trans hn)
    have hmem : ∀ y ∈ s'.sleepPqueue, y ≠ c ∧ y ∈ (w.thr i).sleepPqueue := by
      intro y hy
      have := hperm.subset hy
      exact ⟨fun e => h.lists.sleep_nodup.not_mem_erase (e ▸ this), List.mem_of_mem_erase this⟩
    have hsub : ∀ y ∈ B₁ ++ B₂, y ≠ c ∧ y ∈ B₁ ++ c :: B₂ := by
      have hnd := h.lists.blocked.nodup
      rw [List.nodup_middle, List.nodup_cons] at hnd
      intro y hy
      refine ⟨fun e => hnd.1 (e ▸ hy), ?_⟩
      simp only [List.mem_append, List.mem_cons] at hy ⊢
      tauto
    refine ⟨c :: R, B₁ ++ B₂, ?_, .inr ⟨B₁, c, B₂, rfl, hfirst, hc, rfl, rfl⟩⟩
    constructor
    · rw [setThr_thr, if_pos rfl]; exact hl
    · intro y hy
      obtain ⟨hR, hB, hS⟩ := h.out y hy
      have hyc : y ≠ c := fun e => hB (e ▸ hcB)
      rw [setThr_thr, if_pos rfl]
      exact ⟨by simp [hyc, hR], fun hm => hB (hsub y hm).2, fun hm => hS (hmem y hm).2⟩
    · rw [setThr_thr, if_pos rfl]
      intro y hy
      rw [core.nctx] at hy
      by_cases hyc : y = c
      · exact .inr (.inl (by simp [hyc]))
      · rcases h.cover y hy with hx | hR | hB | hS
        · exact .inl hx
        · exact .inr (.inl (by simp [hR]))
        · refine .inr (.inr (.inl ?_))
          simp only [List.mem_append, List.mem_cons] at hB ⊢
          tauto
        · exact .inr (.inr (.inr (hperm.symm.subset ((List.mem_erase_of_ne hyc).2 hS))))
    · rw [setThr_thr, if_pos rfl]
      intro y hy
      obtain ⟨hyc, hyB⟩ := hsub y hy
      obtain ⟨q, d, k, hk, hq, hd⟩ := h.waits y hyB
      refine ⟨q, d, k, (hstack y).trans hk, (hprom y hyc).trans hq, fun hys => ?_⟩
      rw [core.resumeTime]
      exact hd (hmem y hys).2
    · rw [setThr_thr, if_pos rfl]
      intro y hy hyB
      obtain ⟨hyc, hyS⟩ := hmem y hy
      rw [hstack]
      refine h.sleeps y hyS (fun hm => hyB ?_)
      simp only [List.mem_append, List.mem_cons] at hm ⊢
      tauto
    · rw [setThr_thr, if_pos rfl]
      intro y hy z hz hzs he
      obtain ⟨hyc, hyB⟩ := hsub y hy
      obtain ⟨hzc, hzB⟩ := hsub z hz
      rw [hprom y hyc, hprom z hzc] at he
      exact h.single y hyB z hzB (hmem z hzs).2 he

/-- A thread that has no context yet makes the first one. -/
theorem ThreadOk.ensureCurrent (hv : ValidThr (w.thr i)) (h : ThreadOk w i (w.thr i).current R B) :
    ThreadOk (w.setThr i (w.thr i).ensureCurrent.2) i (some (w.thr i).ensureCurrent.1) R B := by
  obtain ⟨-, hcur, hcur', -⟩ := hv.ensureCurrent
  have hstack := stack_setThr (w := w) (i := i) (s := (w.thr i).ensureCurrent.2)
    (by rw [hcur, Option.getD_some, hcur']; rfl) i
  unfold ThreadPrivate.ensureCurrent at hstack ⊢
  split at hstack
  · next c hc =>
    rw [hc] at h
    exact h.congr (by rw [setThr_thr, if_pos rfl]; exact ⟨rfl, rfl, rfl, rfl, rfl, fun _ _ => ⟨rfl, rfl, rfl, rfl⟩⟩)
      (fun c _ => hstack c)
  · next hc =>
    have hn := hv.noCurrent hc
    have hempty : ∀ c, ¬ (c ∈ R ∨ c ∈ B ∨ c ∈ (w.thr i).sleepPqueue) := fun c hm =>
      Nat.not_lt_zero c (hn ▸ h.lists.alloc c hm)
    dsimp only at hstack ⊢
    constructor
    · rw [setThr_thr, if_pos rfl]
      exact h.lists.newContext.congr ⟨rfl, rfl, rfl, rfl, rfl, fun _ _ => ⟨rfl, rfl, rfl, rfl⟩⟩
    · intro c _
      rw [setThr_thr, if_pos rfl]
      exact ⟨fun hm => hempty c (.inl hm), fun hm => hempty c (.inr (.inl hm)), fun hm => hempty c (.inr (.inr hm))⟩
    · intro c hlt
      rw [setThr_thr, if_pos rfl] at hlt
      have : c < (w.thr i).nctx + 1 := hlt
      refine .inl (congrArg some ?_)
      show (w.thr i).nctx = c
      omega
    · exact fun c hc => absurd (.inr (.inl hc)) (hempty c)
    · intro c hc
      rw [setThr_thr, if_pos rfl] at hc
      exact absurd (.inr (.inr hc)) (hempty c)
    · exact fun c hc => absurd (.inr (.inl hc)) (hempty c)

/-- `sleep_until` puts the running context to sleep. -/
theorem ThreadOk.sleepOn {c : CtxId} {k : List (Frame V)} (h : ThreadOk w i (some c) R B)
    (hlt : c < (w.thr i).nctx) (hcur : w.cur i = c) (tp : Int) :
    ThreadOk ((w.setThr i ((w.thr i).sleepOn c tp)).setCpu i (.sleep :: k)) i none R B := by
  obtain ⟨hR, hB, hS⟩ := h.out c rfl
  obtain ⟨hl, hp⟩ := h.lists.sleepOn hR hB hS hlt tp
  obtain ⟨hc, hn, hctx, -, -⟩ := sleepOn_core (w.thr i) c tp
  have hstack : ∀ y, ((w.setThr i ((w.thr i).sleepOn c tp)).setCpu i (.sleep :: k)).stack i y =
      if y = c then .sleep :: k else w.stack i y := by
    intro y
    rw [(stackStep_thr (by rw [hc]; rfl) _).stack, hcur]
    simp
  have hmem : ∀ y, y ∈ ((w.thr i).sleepOn c tp).sleepPqueue ↔ y = c ∨ y ∈ (w.thr i).sleepPqueue := fun y => by
    rw [hp.mem_iff, List.mem_cons]
  have hne : ∀ y ∈ B, y ≠ c := fun y hy e => hB (e ▸ hy)
  have hthr : ((w.setThr i ((w.thr i).sleepOn c tp)).setCpu i (.sleep :: k)).thr i = (w.thr i).sleepOn c tp := by
    simp [setCpu]
  constructor
  · rw [hthr]; exact hl
  · exact fun _ hx => (by cases hx)
  · rw [hthr, hn]
    intro y hy
    rw [hmem]
    rcases h.cover y hy with hx | hR | hB | hS
    · exact .inr (.inr (.inr (.inl (Option.some.inj hx).symm)))
    · exact .inr (.inl hR)
    · exact .inr (.inr (.inl hB))
    · exact .inr (.inr (.inr (.inr hS)))
  · rw [hthr]
    intro y hy
    rw [hstack, if_neg (hne y hy), hctx y (hne y hy), hmem]
    obtain ⟨p, d, k', hk, hpr, hd⟩ := h.waits y hy
    exact ⟨p, d, k', hk, hpr, fun hm => hd (hm.resolve_left (hne y hy))⟩
  · rw [hthr]
    intro y hy hyB
    rw [hstack]
    split
    · exact ⟨k, rfl⟩
    · next hyc => exact h.sleeps y (((hmem y).1 hy).resolve_left hyc) hyB
  · rw [hthr]
    intro y hy z hz hzs
    rw [hctx y (hne y hy), hctx z (hne z hz)]
    exact h.single y hy z hz (((hmem z).1 hzs).resolve_left (hne z hz))

/-- `thread::wait` blocks the running context. Nobody else on this thread waits on `p`, or nobody has a
deadline. -/
theorem ThreadOk.waitOn {c : CtxId} {p : PromId} {d : Int} {k : List (Frame V)} (h : ThreadOk w i (some c) R B)
    (hlt : c < (w.thr i).nctx) (hcur : w.cur i = c)
    (hone : ∀ y ∈ B, ((w.thr i).ctx y).prom = some p → y ∉ (w.thr i).sleepPqueue ∧ d = timePointMax) :
    ThreadOk ((w.setThr i ((w.thr i).waitOn c p d)).setCpu i (.wait .resumed p d :: k)) i none R (c :: B) := by
  obtain ⟨hR, hB, hS⟩ := h.out c rfl
  have hl := h.lists.waitOn hR hB hS hlt p d
  have hp := waitOn_sleep (w.thr i) c p d
  obtain ⟨hc, hn, -, -, -, hctx, hprom, htime, -, -⟩ := waitOn_core (w.thr i) c p d
  have hstack : ∀ y, ((w.setThr i ((w.thr i).waitOn c p d)).setCpu i (.wait .resumed p d :: k)).stack i y =
      if y = c then .wait .resumed p d :: k else w.stack i y := by
    intro y
    rw [(stackStep_thr (by rw [hc]; rfl) _).stack, hcur]
    simp
  have hmem : ∀ y, y ∈ ((w.thr i).waitOn c p d).sleepPqueue ↔
      (y = c ∧ d ≠ timePointMax) ∨ y ∈ (w.thr i).sleepPqueue := by
    intro y
    rw [hp.mem_iff]
    split
    · next hd => simp [hd]
    · next hd => simp_all
  have hne : ∀ y ∈ B, y ≠ c := fun y hy e => hB (e ▸ hy)
  have hthr : ((w.setThr i ((w.thr i).waitOn c p d)).setCpu i (.wait .resumed p d :: k)).thr i =
      (w.thr i).waitOn c p d := by simp [setCpu]
  constructor
  · rw [hthr]; exact hl
  · exact fun _ hx => (by cases hx)
  · rw [hthr, hn]
    intro y hy
    rw [hmem]
    rcases h.cover y hy with hx | hR | hB | hS
    · exact .inr (.inr (.inl (by rw [← Option.some.inj hx]; simp)))
    · exact .inr (.inl hR)
    · exact .inr (.inr (.inl (List.mem_cons_of_mem _ hB)))
    · exact .inr (.inr (.inr (.inr hS)))
  · rw [hthr]
    intro y hy
    rcases List.mem_cons.1 hy with rfl | hyB
    · refine ⟨p, d, k, by rw [hstack, if_pos rfl], hprom, fun hm => ?_⟩
      have hd := (((hmem y).1 hm).resolve_right hS).2
      exact ⟨hd, htime hd⟩
    · rw [hstack, if_neg (hne y hyB), hctx y (hne y hyB), hmem]
      obtain ⟨q, d', k', hk, hpr, hd⟩ := h.waits y hyB
      exact ⟨q, d', k', hk, hpr, fun hm => hd (hm.resolve_left (fun e => hne y hyB e.1))⟩
  · rw [hthr]
    intro y hy hyB
    have hyc : y ≠ c := fun e => hyB (by simp [e])
    rw [hstack, if_neg hyc]
    refine h.sleeps y (((hmem y).1 hy).resolve_left (fun e => hyc e.1)) (fun hm => hyB (List.mem_cons_of_mem _ hm))
  · rw [hthr]
    intro y hy z hz hzs he
    -- a second waiter on `p` has no deadline, and then neither has `c`
    rcases List.mem_cons.1 hy with rfl | hyB <;> rcases List.mem_cons.1 hz with rfl | hzB
    · rfl
    · rw [hprom, hctx z (hne z hzB)] at he
      exact absurd (((hmem z).1 hzs).resolve_left (fun e => hne z hzB e.1)) (hone z hzB he.symm).1
    · rw [hprom, hctx y (hne y hyB)] at he
      exact absurd (hone y hyB he).2 (((hmem z).1 hzs).resolve_right hS).2
    · rw [hctx y (hne y hyB), hctx z (hne z hzB)] at he
      exact h.single y hyB z hzB (((hmem z).1 hzs).resolve_left (fun e => hne z hzB e.1)) he

/-- The deadline of a plain sleeper has passed. -/
theorem ThreadOk.expireSleep {c : CtxId} {v : List CtxId} (h : ThreadOk w i x R B)
    (hq : (w.thr i).sleepPqueue = c :: v) (hp : ((w.thr i).ctx c).prom = none) :
    ThreadOk (w.setThr i ((w.thr i).sleepPop.readyPushBack c)) i x (R ++ [c]) B := by
  have hcS : c ∈ (w.thr i).sleepPqueue := by simp [hq]
  have hcB : c ∉ B := fun hm => (h.lists.sleep_prom c hcS).2 hm hp
  obtain ⟨hl, hcpop⟩ := h.lists.sleepPop hq
  have hperm := sleepPop_perm hq
  obtain ⟨core, hs, -, hx⟩ := readyPushBack_core (w.thr i).sleepPop c
  have hlt : c < (w.thr i).nctx := h.lists.alloc c (.inr (.inr hcS))
  have hl' := hl.pushBack (h.lists.sleep_ready c hcS) hcB hcpop hlt
  have hstack : ∀ y, (w.setThr i ((w.thr i).sleepPop.readyPushBack c)).stack i y = w.stack i y :=
    stack_setThr (by rw [core.current]; rfl) i
  have hmem : ∀ y, y ∈ ((w.thr i).sleepPop.readyPushBack c).sleepPqueue → y ∈ (w.thr i).sleepPqueue := by
    intro y hy
    rw [hs] at hy
    rw [hq]
    exact List.mem_cons_of_mem _ (hperm.subset hy)
  have hthr : (w.setThr i ((w.thr i).sleepPop.readyPushBack c)).thr i = (w.thr i).sleepPop.readyPushBack c := by
    simp
  constructor
  · rw [hthr]; exact hl'
  · intro y hy
    obtain ⟨hR, hB, hS⟩ := h.out y hy
    have hyc : y ≠ c := fun e => hS (e ▸ hcS)
    rw [hthr]
    exact ⟨by simp [hR, hyc], hB, fun hm => hS (hmem y hm)⟩
  · rw [hthr, core.nctx]
    intro y hy
    rcases h.cover y hy with hx | hR | hB | hS
    · exact .inl hx
    · exact .inr (.inl (List.mem_append_left _ hR))
    · exact .inr (.inr (.inl hB))
    · rw [hq] at hS
      rcases List.mem_cons.1 hS with rfl | hv
      · exact .inr (.inl (by simp))
      · exact .inr (.inr (.inr (hs ▸ hperm.symm.subset hv)))
  · rw [hthr]
    intro y hy
    obtain ⟨p, d, k, hk, hpr, hd⟩ := h.waits y hy
    refine ⟨p, d, k, (hstack y).trans hk, (hx y).1.trans hpr, fun hm => ?_⟩
    rw [core.resumeTime]
    exact hd (hmem y hm)
  · rw [hthr]
    intro y hy hyB
    rw [hstack]
    exact h.sleeps y (hmem y hy) hyB
  · rw [hthr]
    intro y hy z hz hzs he
    rw [(hx y).1, (hx z).1] at he
    exact h.single y hy z hz (hmem z hzs) he

/-- The deadline of a waiter has passed; it is still blocked. -/
theorem ThreadOk.sleepPop {c : CtxId} {v : List CtxId} (h : ThreadOk w i x R B)
    (hq : (w.thr i).sleepPqueue = c :: v) (hp : ((w.thr i).ctx c).prom ≠ none) :
    ThreadOk (w.setThr i (w.thr i).sleepPop) i x R B := by
  have hcB : c ∈ B := (h.lists.sleep_prom c (by simp [hq])).1 hp
  have hperm := sleepPop_perm hq
  have hstack : ∀ y, (w.setThr i (w.thr i).sleepPop).stack i y = w.stack i y :=
    stack_setThr (s := (w.thr i).sleepPop) rfl i
  have hmem : ∀ y, y ∈ (w.thr i).sleepPop.sleepPqueue → y ∈ (w.thr i).sleepPqueue := by
    intro y hy
    rw [hq]
    exact List.mem_cons_of_mem _ (hperm.subset hy)
  have hthr : (w.setThr i (w.thr i).sleepPop).thr i = (w.thr i).sleepPop := by simp
  constructor
  · rw [hthr]; exact (h.lists.sleepPop hq).1
  · intro y hy
    obtain ⟨hR, hB, hS⟩ := h.out y hy
    rw [hthr]
    exact ⟨hR, hB, fun hm => hS (hmem y hm)⟩
  · rw [hthr]
    intro y hy
    rcases h.cover y hy with hx | hR | hB | hS
    · exact .inl hx
    · exact .inr (.inl hR)
    · exact .inr (.inr (.inl hB))
    · rw [hq] at hS
      rcases List.mem_cons.1 hS with rfl | hv
      · exact .inr (.inr (.inl hcB))
      · exact .inr (.inr (.inr (hperm.symm.subset hv)))
  · rw [hthr]
    intro y hy
    obtain ⟨p, d, k, hk, hpr, hd⟩ := h.waits y hy
    exact ⟨p, d, k, (hstack y).trans hk, hpr, fun hm => hd (hmem y hm)⟩
  · rw [hthr]
    intro y hy hyB
    rw [hstack]
    exact h.sleeps y (hmem y hy) hyB
  · rw [hthr]
    exact fun y hy z hz hzs he => h.single y hy z hz (hmem z hzs) he

/-- A change of the ready list and of the running context. -/
theorem ThreadOk.relist {x' : Option CtxId} {R' : List CtxId} (h : ThreadOk w i x R B) (hl : Lists (w'.thr i) R' B)
    (hs : (w'.thr i).sleepPqueue = (w.thr i).sleepPqueue)
    (hctx : ∀ c ∈ B, ((w'.thr i).ctx c).prom = ((w.thr i).ctx c).prom ∧
      ((w'.thr i).ctx c).resumeTime = ((w.thr i).ctx c).resumeTime)
    (hout : ∀ c, x' = some c → c ∉ R' ∧ c ∉ B ∧ c ∉ (w.thr i).sleepPqueue)
    (hcover : ∀ c, c < (w'.thr i).nctx → x' = some c ∨ c ∈ R' ∨ c ∈ B ∨ c ∈ (w.thr i).sleepPqueue)
    (hk : ∀ c, c ∈ B ∨ c ∈ (w.thr i).sleepPqueue → w'.stack i c = w.stack i c) : ThreadOk w' i x' R' B where
  lists := hl
  out := by rw [hs]; exact hout
  cover := by rw [hs]; exact hcover
  waits := by
    rw [hs]
    intro c hc
    rw [hk c (.inl hc), (hctx c hc).1, (hctx c hc).2]
    exact h.waits c hc
  sleeps := by
    rw [hs]
    intro c hc hB
    rw [hk c (.inr hc)]
    exact h.sleeps c hc hB
  single := by
    rw [hs]
    intro c hc c' hc' hcs
    rw [(hctx c hc).1, (hctx c' hc').1]
    exact h.single c hc c' hc' hcs

/-- `start_next_task` switches to the first ready context. -/
theorem switch_cur {r : Bool} {k : List (Frame V)} {next : CtxId}
    (hl : Lists (w.thr i).ensureCurrent.2 (next :: R) B) :
    (w.switch i r k).cur i = next := by
  obtain ⟨s, hp, -⟩ := hl.popFront
  rw [switch_ready hp]
  simp [cur, setThr, setCpu]

/-- `start_next_task` switches: the running context `c` is on the lists already, or it is pushed (`r`). -/
theorem ThreadOk.switch {r : Bool} (hv : Valid w)
    (h : ThreadOk (w.setThr i (w.thr i).ensureCurrent.2) i (if r then some (w.thr i).ensureCurrent.1 else none) R B) :
    ThreadOk (w.switch i r (w.cpu i)) i ((w.switch i r (w.cpu i)).thr i).current
      (if r then R.tail ++ [(w.thr i).ensureCurrent.1] else R.tail) B := by
  obtain ⟨hve, hcur, hcur', -⟩ := (hv i).ensureCurrent
  have hlt := hve.current _ hcur
  have hsw := fun c => stack_switch (i := i) hv r i c
  have hst := stack_setThr (w := w) (i := i) (s := (w.thr i).ensureCurrent.2)
    (by rw [hcur, Option.getD_some, hcur']; rfl) i
  have hl := h.lists
  have hthr : (w.setThr i (w.thr i).ensureCurrent.2).thr i = (w.thr i).ensureCurrent.2 := by simp
  have hout : r = true → (w.thr i).ensureCurrent.1 ∉ R ∧ (w.thr i).ensureCurrent.1 ∉ B ∧
      (w.thr i).ensureCurrent.1 ∉ (w.thr i).ensureCurrent.2.sleepPqueue := by
    intro hr
    have := h.out (w.thr i).ensureCurrent.1 (by rw [if_pos hr])
    rwa [hthr] at this
  have hcov := h.cover
  rw [hthr] at hl hcov
  -- the stack of a context that does not run next stays
  have hkeep : ∀ n, ((w.switch i r (w.cpu i)).thr i).current = some n → ∀ c, c ≠ n →
      (w.switch i r (w.cpu i)).stack i c = (w.setThr i (w.thr i).ensureCurrent.2).stack i c := by
    intro n hn c hc
    rw [hst]
    rcases hsw c with hk | ⟨-, -, -, hcc, -⟩
    · exact hk
    · rw [cur, hn, Option.getD_some] at hcc
      exact absurd hcc.symm hc
  cases R with
  | nil =>
    have hp := readyPopFront_nil hl.ready
    obtain ⟨hl', core, hs, hprom⟩ := hl.pushIf r (fun hr => ⟨(hout hr).1, (hout hr).2.1, (hout hr).2.2, hlt⟩)
    have hsw' := switch_fresh (r := r) (k := w.cpu i) hp
    generalize hu : (if r then (w.thr i).ensureCurrent.2.readyPushBack (w.thr i).ensureCurrent.1
      else (w.thr i).ensureCurrent.2) = u at hl' core hs hprom hsw'
    have hthr' : (w.switch i r (w.cpu i)).thr i = { u.newContext.2 with current := some u.nctx } := by
      rw [hsw']; simp [setCpu]
    have hcurr : ((w.switch i r (w.cpu i)).thr i).current = some u.nctx := by rw [hthr']
    have hfresh : ∀ c, c ∈ (if r then [] ++ [(w.thr i).ensureCurrent.1] else ([] : List CtxId)) ∨ c ∈ B ∨
        c ∈ u.sleepPqueue →
        c ≠ u.nctx := fun c hc => Nat.ne_of_lt (hl'.alloc c hc)
    rw [hcurr]
    refine h.relist ?_ ?_ ?_ ?_ ?_ ?_
    · rw [hthr']
      exact hl'.newContext.congr ⟨rfl, rfl, rfl, rfl, rfl, fun _ _ => ⟨rfl, rfl, rfl, rfl⟩⟩
    · rw [hthr', hthr]; exact hs
    · intro c hc
      rw [hthr', hthr]
      have hne := hfresh c (.inr (.inl hc))
      simp [ThreadPrivate.newContext, hne, hprom c, core.resumeTime c]
    · intro c hc
      obtain rfl := Option.some.inj hc
      rw [hthr, ← hs]
      exact ⟨fun hm => hfresh _ (.inl hm) rfl, fun hm => hfresh _ (.inr (.inl hm)) rfl,
        fun hm => hfresh _ (.inr (.inr hm)) rfl⟩
    · rw [hthr', hthr]
      intro c hc
      have hc : c < u.nctx + 1 := hc
      by_cases hcn : c = u.nctx
      · exact .inl (by rw [hcn])
      · have hlt' : c < (w.thr i).ensureCurrent.2.nctx := by rw [← core.nctx]; omega
        rcases hcov c hlt' with hx | hR | hB
        · refine .inr (.inl ?_)
          cases r with
          | false => cases hx
          | true => simp at hx ⊢; exact hx.symm
        · cases hR
        · exact .inr (.inr hB)
    · intro c hc
      rw [hthr, ← hs] at hc
      exact hkeep _ hcurr c (hfresh c (.inr hc))
  | cons n R =>
    obtain ⟨s, hp, core₁, hs₁, hprom₁, hl₁⟩ := hl.popFront
    have hnd := List.nodup_cons.1 hl.ready.nodup
    obtain ⟨hl', core₂, hs₂, hprom₂⟩ := hl₁.pushIf r (c := (w.thr i).ensureCurrent.1) (fun hr =>
      ⟨fun hm => (hout hr).1 (List.mem_cons_of_mem _ hm), (hout hr).2.1, hs₁ ▸ (hout hr).2.2, core₁.nctx ▸ hlt⟩)
    have hsw' := switch_ready (r := r) (k := w.cpu i) hp
    generalize hu : (if r then s.readyPushBack (w.thr i).ensureCurrent.1 else s) = u at hl' core₂ hs₂ hprom₂ hsw'
    have hthr' : (w.switch i r (w.cpu i)).thr i = { u with current := some n } := by
      rw [hsw']; simp [setCpu]
    have hcurr : ((w.switch i r (w.cpu i)).thr i).current = some n := by rw [hthr']
    have hnB : n ∉ B := hl.disjoint n (by simp)
    have hnS : n ∉ (w.thr i).ensureCurrent.2.sleepPqueue := fun hm => hl.sleep_ready n hm (by simp)
    have hs := hs₂.trans hs₁
    rw [hcurr]
    refine h.relist ?_ ?_ ?_ ?_ ?_ ?_
    · rw [hthr']
      exact hl'.congr ⟨rfl, rfl, rfl, rfl, rfl, fun _ _ => ⟨rfl, rfl, rfl, rfl⟩⟩
    · rw [hthr', hthr]; exact hs
    · intro c _
      rw [hthr', hthr]
      exact ⟨(hprom₂ c).trans (hprom₁ c), (core₂.resumeTime c).trans (core₁.resumeTime c)⟩
    · intro c hc
      obtain rfl := Option.some.inj hc
      rw [hthr]
      refine ⟨fun hm => ?_, hnB, hnS⟩
      cases r with
      | false => exact hnd.1 hm
      | true =>
        rcases List.mem_append.1 hm with hm | hm
        · exact hnd.1 hm
        · exact (hout rfl).1 (by simp [List.mem_singleton.1 hm])
    · rw [hthr', hthr]
      intro c hc
      have hc : c < (w.thr i).ensureCurrent.2.nctx := by
        have : c < u.nctx := hc
        rwa [core₂.nctx, core₁.nctx] at this
      rcases hcov c hc with hx | hR | hB
      · refine .inr (.inl ?_)
        cases r with
        | false => cases hx
        | true => simp at hx ⊢; exact .inr hx.symm
      · rcases List.mem_cons.1 hR with rfl | hR
        · exact .inl rfl
        · refine .inr (.inl ?_)
          cases r with
          | false => exact hR
          | true => exact List.mem_append_left _ hR
      · exact .inr (.inr hB)
    · intro c hc
      rw [hthr] at hc
      refine hkeep _ hcurr c (fun e => ?_)
      rw [e] at hc
      exact hc.elim hnB hnS

end ThreadOk

/-! ## Moves keep the lists intact -/

/-- Two contexts of one thread wait on the same promise only if neither has a deadline. -/
def OneTimed (w : World V) : Prop :=
  ∀ i c c' p d d', c ≠ c' → waitOf (w.stack i c) = some (p, d) → waitOf (w.stack i c') = some (p, d') →
    d = timePointMax ∧ d' = timePointMax

section Moves
variable {w₀ w w' : World V} {i : ThreadId} {ph ph' : Phase} {es : List (Event V)} {R B : List CtxId}

theorem OneTimed.atStart (h : OneTimed w₀) (hs : AtStart w₀ w) : OneTimed w := by
  obtain ⟨t, -, rfl⟩ := hs
  exact h

theorem runs_of_ne {ph : Phase} (h : ph ≠ .suspended) (s : ThreadPrivate) : runs ph s = s.current := by
  cases ph with
  | suspended => exact absurd rfl h
  | _ => rfl

theorem ThreadOk.ne_cur (hv : ValidThr (w.thr i)) (h : ThreadOk w i (w.thr i).current R B)
    {c : CtxId} (hc : c ∈ R ∨ c ∈ B ∨ c ∈ (w.thr i).sleepPqueue) : c ≠ w.cur i := by
  rintro rfl
  cases hcur : (w.thr i).current with
  | none => exact Nat.not_lt_zero _ (hv.noCurrent hcur ▸ h.lists.alloc _ hc)
  | some x =>
    obtain ⟨hR, hB, hS⟩ := h.out x hcur
    have : w.cur i = x := by rw [cur, hcur]; rfl
    rw [this] at hc
    exact hc.elim hR (fun hc => hc.elim hB hS)

/-- A move that leaves the lists alone. -/
theorem PlacedAs.keep (hm : Move w₀ i ph w ph' w' es) (hv : Valid w) (h : PlacedAs R B ph w i)
    (hp : ph ≠ .suspended) (hp' : ph' ≠ .suspended) (hs : SameLists (fun _ => True) (w.thr i) (w'.thr i))
    (hc : (w'.thr i).current = (w.thr i).current) : PlacedAs R B ph' w' i := by
  obtain ⟨-, hok⟩ := h
  rw [runs_of_ne hp] at hok
  refine ⟨fun h => absurd h hp', ?_⟩
  rw [runs_of_ne hp', hc]
  refine hok.congr (hs.mono (fun _ _ => trivial)) (fun c hc => hm.stack_suspended hv (fun _ => ?_))
  exact ⟨hok.ne_cur (hv i) (.inr hc), hok.lists.alloc c (.inr hc)⟩

/-- A move that writes fields of the running context. -/
theorem PlacedAs.resume {f : CmtContext → CmtContext} {k : List (Frame V)} (hv : Valid w)
    (h : PlacedAs R B .out w i) :
    PlacedAs R B .out ((w.setThr i ((w.thr i).ensureCurrent.2.modCtx (w.thr i).ensureCurrent.1 f)).setCpu i k) i := by
  obtain ⟨-, hok⟩ := h
  obtain ⟨-, hcur, hcur', -⟩ := (hv i).ensureCurrent
  have he : (w.thr i).ensureCurrent.2.current.getD 0 = w.cur i := by rw [hcur, Option.getD_some, hcur']; rfl
  have hens := hok.ensureCurrent (hv i)
  have hne : ∀ c, c ∈ R ∨ c ∈ B ∨ c ∈ (w.thr i).ensureCurrent.2.sleepPqueue → c ≠ (w.thr i).ensureCurrent.1 := by
    rintro c hc rfl
    have := hens.out _ rfl
    rw [setThr_thr, if_pos rfl] at this
    exact hc.elim this.1 (fun hc => hc.elim this.2.1 this.2.2)
  refine ⟨by simp, ?_⟩
  have hthr : (((w.setThr i ((w.thr i).ensureCurrent.2.modCtx (w.thr i).ensureCurrent.1 f)).setCpu i k).thr i) =
      (w.thr i).ensureCurrent.2.modCtx (w.thr i).ensureCurrent.1 f := by simp [setCpu]
  have hcurr : runs .out (((w.setThr i ((w.thr i).ensureCurrent.2.modCtx (w.thr i).ensureCurrent.1 f)).setCpu i k).thr i)
      = some (w.thr i).ensureCurrent.1 := by rw [hthr]; exact hcur
  rw [hcurr]
  refine hens.congr ?_ (fun c hc => ?_)
  · rw [hthr, setThr_thr, if_pos rfl]
    exact (SameLists.modCtx _ _ f).mono (fun c hc => hne c hc)
  · rw [setThr_thr, if_pos rfl] at hc
    rw [stack_setThr he, (stackStep_thr (s := (w.thr i).ensureCurrent.2.modCtx (w.thr i).ensureCurrent.1 f) he k).stack,
      if_neg]
    rintro ⟨-, rfl⟩
    exact hne _ (.inr hc) (by rw [hcur']; rfl)

/-- A call of `notify` that ends on the own thread. -/
theorem PlacedAs.notify_own {p : PromId} {s : ThreadPrivate} (h : PlacedAs R B ph w i)
    (hn : (w.thr i).notify p = some s) :
    ∃ R' B', PlacedAs R' B' ph (w.setThr i s) i ∧ Notified (w.thr i) p R B R' B' := by
  obtain ⟨hc, hok⟩ := h
  obtain ⟨R', B', hok', hnot⟩ := hok.notify hn
  have hcur : ((w.setThr i s).thr i).current = (w.thr i).current := by
    rw [setThr_thr, if_pos rfl]; exact (notify_core hn).current
  refine ⟨R', B', ⟨fun hp => by rw [hcur]; exact hc hp, ?_⟩, hnot⟩
  have : runs ph ((w.setThr i s).thr i) = runs ph (w.thr i) := by cases ph <;> simp only [runs, hcur]
  rw [this]
  exact hok'

theorem PlacedAs.notify {t : ThreadId} {p : PromId} (h : PlacedAs R B ph w i) (hn : w.notify i t p = some w') :
    ∃ R' B', PlacedAs R' B' ph w' i ∧
      (t = i ∧ Notified (w.thr i) p R B R' B' ∨ t ≠ i ∧ R' = R ∧ B' = B) := by
  simp only [World.notify] at hn
  split at hn
  · next hti =>
    simp only [Option.map_eq_some_iff] at hn
    obtain ⟨s, hs, rfl⟩ := hn
    obtain ⟨R', B', h', hnot⟩ := h.notify_own hs
    exact ⟨R', B', h', .inl ⟨hti, hnot⟩⟩
  · next hti =>
    obtain rfl := Option.some.inj hn
    obtain ⟨hc, hok⟩ := h
    have hthr : ∀ j, j ≠ t → ((w.newTask timePointMin 0 (.notify p) 1).2.async t
        (w.newTask timePointMin 0 (.notify p) 1).1).thr j = w.thr j := by
      intro j hj; simp only [async, setThr_thr, if_neg hj]; rfl
    have hi := hthr i (Ne.symm hti)
    refine ⟨R, B, ⟨fun hp => by rw [hi]; exact hc hp, ?_⟩, .inr ⟨hti, rfl, rfl⟩⟩
    rw [hi]
    refine hok.congr (by rw [hi]; exact ⟨rfl, rfl, rfl, rfl, rfl, fun _ _ => ⟨rfl, rfl, rfl, rfl⟩⟩) (fun c _ => ?_)
    rw [stack, stack, cur_async]
    rfl

theorem PlacedAs.setException {p : PromId} {e : Error} (h : PlacedAs R B ph w i)
    (hn : w.setException i p e = some w') :
    ∃ R' B', PlacedAs R' B' ph w' i ∧
      ((w.prom p).blockedThread = some i ∧ Notified (w.thr i) p R B R' B' ∨
        (w.prom p).blockedThread ≠ some i ∧ R' = R ∧ B' = B) := by
  have h' : PlacedAs R B ph (w.modProm p (fun q => { q with error := some e })) i :=
    ⟨h.1, h.2.congr ⟨rfl, rfl, rfl, rfl, rfl, fun _ _ => ⟨rfl, rfl, rfl, rfl⟩⟩ (fun _ _ => rfl)⟩
  have hb : ((w.modProm p (fun q => { q with error := some e })).prom p).blockedThread = (w.prom p).blockedThread := by
    simp [modProm]
  simp only [World.setException, notifyBase, hb] at hn
  split at hn
  · next hb =>
    obtain rfl := Option.some.inj hn
    exact ⟨R, B, h', .inr ⟨by simp [hb], rfl, rfl⟩⟩
  · next t hb =>
    obtain ⟨R', B', h'', ⟨rfl, hnot⟩ | ⟨hne, rfl, rfl⟩⟩ := h'.notify hn
    · exact ⟨R', B', h'', .inl ⟨hb, hnot⟩⟩
    · exact ⟨R', B', h'', .inr ⟨by simpa [hb] using hne, rfl, rfl⟩⟩

theorem PlacedAs.phase (h : PlacedAs R B ph w i) (hp : ph ≠ .suspended) (hp' : ph' ≠ .suspended) :
    PlacedAs R B ph' w i := by
  obtain ⟨-, hok⟩ := h
  rw [runs_of_ne hp] at hok
  exact ⟨fun h => absurd h hp', by rw [runs_of_ne hp']; exact hok⟩

theorem PlacedAs.setCpu (h : PlacedAs R B .out w i) (hv : ValidThr (w.thr i)) (k : List (Frame V)) :
    PlacedAs R B .out (w.setCpu i k) i := by
  obtain ⟨-, hok⟩ := h
  refine ⟨by simp, hok.congr ⟨rfl, rfl, rfl, rfl, rfl, fun _ _ => ⟨rfl, rfl, rfl, rfl⟩⟩ (fun c hc => ?_)⟩
  rw [(stackStep_setCpu (w := w) (fun _ => rfl) rfl rfl k).stack, if_neg]
  exact fun h => hok.ne_cur hv (.inr hc) h.2

theorem PlacedAs.runTask {t : Task} {tm : Int} {k : List (Frame V)} (hv : Valid w) (h : PlacedAs R B (.hand t) w i)
    (hr : w.runTask i t tm k = some (w', es)) :
    ∃ R' B', PlacedAs R' B' .out w' i ∧
      ((∃ p, t.body = .notify p ∧ Notified (w.thr i) p R B R' B') ∨
        (∀ p, t.body ≠ .notify p) ∧ R' = R ∧ B' = B) := by
  have hout : PlacedAs R B .out (w.modCell t.postedNum
      (fun c => { c with activeContext := (w.thr i).current.map (i, ·) })) i := by
    obtain ⟨-, hok⟩ := show PlacedAs R B .out w i from h.phase (by simp) (by simp)
    exact ⟨by simp, hok.congr ⟨rfl, rfl, rfl, rfl, rfl, fun _ _ => ⟨rfl, rfl, rfl, rfl⟩⟩ (fun _ _ => rfl)⟩
  simp only [World.runTask] at hr
  split at hr
  · next hb =>
    split at hr <;> obtain ⟨rfl, -⟩ := Prod.mk.inj (Option.some.inj hr) <;>
      exact ⟨R, B, hout.setCpu (hv i) _, .inr ⟨by simp [hb], rfl, rfl⟩⟩
  · next p hb =>
    simp only [Option.map_eq_some_iff] at hr
    obtain ⟨s, hs, he⟩ := hr
    obtain ⟨rfl, -⟩ := Prod.mk.inj he
    obtain ⟨R', B', h', hnot⟩ := hout.notify_own hs
    refine ⟨R', B', h'.setCpu ?_ _, .inl ⟨p, hb, hnot⟩⟩
    rw [setThr_thr, if_pos rfl]
    exact (hv i).notify hs
  · next hb =>
    obtain ⟨rfl, -⟩ := Prod.mk.inj (Option.some.inj hr)
    exact ⟨R, B, hout.setCpu (hv i) _, .inr ⟨by simp [hb], rfl, rfl⟩⟩

/-- The running context goes to sleep. -/
theorem PlacedAs.sleepOn (h : PlacedAs R B .start w i) (hv : Valid w) (tp : Int) (k : List (Frame V)) :
    PlacedAs R B .suspended ((w.setThr i ((w.thr i).ensureCurrent.2.sleepOn (w.thr i).ensureCurrent.1 tp)).setCpu i
      (.sleep :: k)) i := by
  obtain ⟨hve, hcur, hcur', -⟩ := (hv i).ensureCurrent
  have he : (w.thr i).ensureCurrent.2.current.getD 0 = w.cur i := by rw [hcur, Option.getD_some, hcur']; rfl
  have hens := h.2.ensureCurrent (hv i)
  have hs := hens.sleepOn (c := (w.thr i).ensureCurrent.1) (k := k) (by simpa using hve.current _ hcur)
    (by rw [cur_setThr he]; exact hcur'.symm) tp
  simp only [setThr_thr, if_true, setThr_setThr] at hs
  refine ⟨fun _ => ?_, hs⟩
  simp [World.setCpu, (sleepOn_core _ _ tp).1, hcur]

/-- The running context blocks. -/
theorem PlacedAs.waitOn {p : PromId} {d : Int} {k : List (Frame V)} (h : PlacedAs R B .start w i) (hv : Valid w)
    (hone : OneTimed w) (hcpu : w.cpu i = .wait .block p d :: k) :
    PlacedAs R (w.cur i :: B) .suspended ((w.setThr i ((w.thr i).ensureCurrent.2.waitOn (w.thr i).ensureCurrent.1 p d)).setCpu i
      (.wait .resumed p d :: k)) i := by
  obtain ⟨hve, hcur, hcur', -⟩ := (hv i).ensureCurrent
  have he : (w.thr i).ensureCurrent.2.current.getD 0 = w.cur i := by rw [hcur, Option.getD_some, hcur']; rfl
  have hens := h.2.ensureCurrent (hv i)
  -- another waiter on `p` is inside its own wait, so the guard speaks about both
  have hone' : ∀ y ∈ B, (((w.thr i).ensureCurrent.2).ctx y).prom = some p →
      y ∉ (w.thr i).ensureCurrent.2.sleepPqueue ∧ d = timePointMax := by
    intro y hy hp
    obtain ⟨q, d', k', hk, hq', hd'⟩ := hens.waits y hy
    simp only [setThr_thr, if_true] at hq' hd'
    obtain rfl : q = p := Option.some.inj (hq'.symm.trans hp)
    rw [stack_setThr he] at hk
    have hyc : y ≠ w.cur i := fun e => by
      have := (hens.out _ rfl).2.1
      rw [show (w.thr i).ensureCurrent.1 = w.cur i from hcur', ← e] at this
      exact this hy
    have hwait : waitOf (w.stack i (w.cur i)) = some (q, d) := by rw [stack_cur, hcpu]; rfl
    obtain ⟨hmax, hmax'⟩ := hone i y _ q d' d hyc (by rw [hk]; rfl) hwait
    exact ⟨fun hm => (hd' hm).1 hmax, hmax'⟩
  have hs := hens.waitOn (c := (w.thr i).ensureCurrent.1) (p := p) (d := d) (k := k) (by simpa using hve.current _ hcur)
    (by rw [cur_setThr he]; exact hcur'.symm) (by simp only [setThr_thr, if_true]; exact hone')
  simp only [setThr_thr, if_true, setThr_setThr] at hs
  refine ⟨fun _ => ?_, by rw [show w.cur i = (w.thr i).ensureCurrent.1 from hcur'.symm]; exact hs⟩
  simp only [World.setCpu, setThr_thr, if_true]
  rw [(waitOn_core _ _ _ _).1]
  show (w.thr i).ensureCurrent.2.current ≠ none
  rw [hcur]; simp

theorem PlacedAs.setNow (h : PlacedAs R B ph w i) (t : Int) : PlacedAs R B ph (w.setNow t) i :=
  ⟨h.1, h.2.congr ⟨rfl, rfl, rfl, rfl, rfl, fun _ _ => ⟨rfl, rfl, rfl, rfl⟩⟩ (fun _ _ => rfl)⟩

/-- A plain sleeper whose deadline has passed is the last ready context. -/
theorem PlacedAs.expireSleep {c : CtxId} {v : List CtxId} (h : PlacedAs R B ph w i)
    (hq : (w.thr i).sleepPqueue = c :: v) (hp : ((w.thr i).ctx c).prom = none) :
    PlacedAs (R ++ [c]) B ph (w.setThr i ((w.thr i).sleepPop.readyPushBack c)) i := by
  obtain ⟨hc, hok⟩ := h
  have hcurr : ((w.thr i).sleepPop.readyPushBack c).current = (w.thr i).current :=
    (readyPushBack_core (w.thr i).sleepPop c).1.current
  refine ⟨fun hs => by rw [setThr_thr, if_pos rfl, hcurr]; exact hc hs, ?_⟩
  have hr : runs ph ((w.setThr i ((w.thr i).sleepPop.readyPushBack c)).thr i) = runs ph (w.thr i) := by
    cases ph <;> simp only [runs, setThr_thr, if_true, hcurr]
  rw [hr]
  exact hok.expireSleep hq hp

/-- A waiter whose deadline has passed is not asleep any more, and its promise is notified. -/
theorem PlacedAs.expireWait {c : CtxId} {v : List CtxId} {p : PromId} {e : Error} (h : PlacedAs R B ph w i)
    (hq : (w.thr i).sleepPqueue = c :: v) (hp : ((w.thr i).ctx c).prom = some p)
    (hx : (w.setThr i (w.thr i).sleepPop).setException i p e = some w') :
    ∃ R' B', PlacedAs R' B' ph w' i ∧
      ((w.prom p).blockedThread = some i ∧ Notified (w.thr i) p R B R' B' ∨ R' = R ∧ B' = B) := by
  obtain ⟨hc, hok⟩ := h
  have hpop : PlacedAs R B ph (w.setThr i (w.thr i).sleepPop) i := by
    refine ⟨fun hs => by rw [setThr_thr, if_pos rfl]; exact hc hs, ?_⟩
    have hr : runs ph ((w.setThr i (w.thr i).sleepPop).thr i) = runs ph (w.thr i) := by
      cases ph <;> simp only [runs, setThr_thr, if_true] <;> rfl
    rw [hr]
    exact hok.sleepPop hq (by simp [hp])
  obtain ⟨R', B', h', ⟨hb, hnot⟩ | ⟨-, rfl, rfl⟩⟩ := hpop.setException hx
  · rw [setThr_thr, if_pos rfl] at hnot
    exact ⟨R', B', h', .inl ⟨hb, hnot⟩⟩
  · exact ⟨R', B', h', .inr ⟨rfl, rfl⟩⟩

/-- A move of a thread keeps its lists intact. -/
theorem Move.relisted (hm : Move w₀ i ph w ph' w' es) (hq : NoQuit es) (hone : OneTimed w₀)
    (hv : Valid w) (h : PlacedAs R B ph w i) :
    ∃ R' B', PlacedAs R' B' ph' w' i ∧ Relisted (w.thr i) (w.cur i) (w'.cur i) R B R' B' ∧
      Reblocked w w' i ph es R B R' B' := by
  have hm' := hm
  have hsame : ∀ {ph ph' : Phase} {w' : World V} {es}, Move w₀ i ph w ph' w' es → PlacedAs R B ph w i →
      ph ≠ .suspended → ph' ≠ .suspended → w'.thr i = w.thr i →
      ∃ R' B', PlacedAs R' B' ph' w' i ∧ Relisted (w.thr i) (w.cur i) (w'.cur i) R B R' B' ∧
        Reblocked w w' i ph es R B R' B' := fun hm h hp hp' hthr =>
    ⟨R, B, h.keep hm hv hp hp' (by rw [hthr]; exact ⟨rfl, rfl, rfl, rfl, rfl, fun _ _ => ⟨rfl, rfl, rfl, rfl⟩⟩)
      (by rw [hthr]), .same, (.same rfl)⟩
  have hpost : ∀ {w' : World V} {es}, Move w₀ i .start w .out w' es → PlacedAs R B .start w i →
      Foreign (w.thr i) (w'.thr i) →
      ∃ R' B', PlacedAs R' B' .out w' i ∧ Relisted (w.thr i) (w.cur i) (w'.cur i) R B R' B' ∧
        Reblocked w w' i .start es R B R' B' := fun hm h hf =>
    ⟨R, B, h.keep hm hv (by simp) (by simp) hf.lists hf.current, .same, (.same rfl)⟩
  obtain ⟨hve, hcur, hcur', -⟩ := (hv i).ensureCurrent
  have he : (w.thr i).ensureCurrent.2.current.getD 0 = w.cur i := by rw [hcur, Option.getD_some, hcur']; rfl
  have hlt := hve.current _ hcur
  cases hm with
  | clock => exact ⟨R, B, h.setNow _, .same, (.same rfl)⟩
  | async j when prio =>
    exact hpost hm' h
      (foreign_async ((w.newTask when prio (.rtask w.promCount) 1).2.newPromise _ false).2 _ j i)
  | asyncVoid j when prio => exact hpost hm' h (foreign_async (w.newTask when prio .vtask 1).2 _ j i)
  | sync ov j prio d =>
    exact hpost hm' h (foreign_async
      ((w.newTask timePointMin prio (.rtask w.promCount) (1 + ov.retains)).2.newPromise _ true).2 _ j i)
  | cancel => exact hpost hm' h (cancelTask_foreign w _ i)
  | quit => exact absurd (by simp) (hq i)
  | sleepOn tp => exact ⟨R, B, h.sleepOn hv tp _, .same, (.same rfl)⟩
  | waitOn hst hcpu hd =>
    refine ⟨R, _ :: B, h.waitOn hv (hone.atStart hst) hcpu, .blocks, .blocks hcpu rfl ?_⟩
    rw [(stackStep_thr (by rw [(waitOn_core _ _ _ _).1]; exact he) _).stack, if_pos ⟨rfl, rfl⟩, setCpu_cpu, if_pos rfl]
  | @expireSleep _ _ c _ _ hq' hle hp =>
    have hcB : c ∉ B := fun hB => absurd hp ((h.2.lists.sleep_prom c (by simp [hq'])).2 hB)
    exact ⟨R ++ [c], B, h.expireSleep hq' hp, .woken (by simp [hq']) hcB, (.same rfl)⟩
  | @expireWait _ _ _ c _ p _ hq' hle hp hx =>
    have hcause : Notifies w i ph [.expired i c p] p := .inr (.inr ⟨c, List.mem_singleton_self _⟩)
    obtain ⟨R', B', h', ⟨-, hnot⟩ | ⟨rfl, rfl⟩⟩ := h.expireWait hq' hp hx
    · exact ⟨R', B', h', .notified hnot, .notified hcause hnot⟩
    · exact ⟨_, _, h', .same, (.same rfl)⟩
  | switch =>
    obtain ⟨hc, hok⟩ := h
    -- the suspended context exists, so nothing is made here
    have hens : (w.thr i).ensureCurrent.2 = w.thr i := by
      obtain ⟨c, hcc⟩ := Option.ne_none_iff_exists'.1 (hc rfl)
      simp [ThreadPrivate.ensureCurrent, hcc]
    have hok' : ThreadOk (w.setThr i (w.thr i).ensureCurrent.2) i
        (if false = true then some (w.thr i).ensureCurrent.1 else none) R B := by
      refine hok.congr ?_ (fun c _ => stack_setThr he i c)
      rw [setThr_thr, if_pos rfl, hens]
      exact ⟨rfl, rfl, rfl, rfl, rfl, fun _ _ => ⟨rfl, rfl, rfl, rfl⟩⟩
    refine ⟨_, B, ⟨by simp, ThreadOk.switch hv hok'⟩, ?_, (.same rfl)⟩
    have hl := hok'.lists
    rw [setThr_thr, if_pos rfl] at hl
    cases R with
    | nil => exact .same
    | cons next R =>
      rw [switch_cur hl]
      exact .pops
  | reschedule =>
    obtain ⟨-, hok⟩ := h
    have hok' := hok.ensureCurrent (hv i)
    refine ⟨_, B, ⟨by simp, ThreadOk.switch (r := true) hv hok'⟩, ?_, (.same rfl)⟩
    have hl := hok'.lists
    rw [setThr_thr, if_pos rfl] at hl
    rw [hcur']
    cases R with
    | nil => exact .turnsNew
    | cons next R =>
      rw [switch_cur hl]
      exact .turns
  | dequeue _ _ _ _ hd =>
    have hs := dequeue_sched hd
    exact ⟨R, B, h.keep hm' hv (by simp) (by simp) (by simpa using hs.lists) (by simpa using hs.current), .same, (.same rfl)⟩
  | drain _ _ _ _ hd =>
    have hs := dequeue_sched hd
    exact ⟨R, B, h.keep hm' hv (by simp) (by simp) (by simpa [setCpu] using hs.lists)
      (by simpa [setCpu] using hs.current), .same, (.same rfl)⟩
  | check _ hpc =>
    have hph : ph ≠ .suspended := by
      rintro rfl
      rcases hpc with ⟨h, -⟩ | ⟨-, ⟨h, -⟩ | ⟨t, h⟩⟩ <;> cases h
    exact hsame hm' h hph hph rfl
  | abandon => exact hsame hm' h (by simp) (by simp) rfl
  | runTask _ hr =>
    obtain ⟨R', B', h', ⟨p, hb, hnot⟩ | ⟨-, rfl, rfl⟩⟩ := h.runTask hv hr
    · exact ⟨R', B', h', .notified hnot, .notified (.inr (.inl ⟨_, rfl, hb⟩)) hnot⟩
    · exact ⟨R', B', h', .same, (.same rfl)⟩
  | release => exact hsame hm' h (by simp) (by simp) (by show (w.release _).thr i = _; rw [release_thr])
  | resumeWait => exact ⟨R, B, (h.phase (by simp) (by simp)).resume hv, .same, (.same rfl)⟩
  | resumeSleep => exact ⟨R, B, (h.phase (by simp) (by simp)).resume hv, .same, (.same rfl)⟩
  | post _ hcpu hn =>
    obtain ⟨R', B', h', hnot⟩ := h.notify hn
    refine ⟨R', B', (h'.phase (by simp) (by simp)).setCpu (hv.notify hn i) _, ?_⟩
    rcases hnot with ⟨-, hnot⟩ | ⟨-, rfl, rfl⟩
    · exact ⟨.notified hnot, .notified (.inl ⟨_, _, _, _, hcpu⟩) hnot⟩
    · exact ⟨.same, (.same rfl)⟩
  | go => exact ⟨R, B, h.phase (by simp) (by simp), .same, (.same rfl)⟩
  | _ => exact hsame hm' h (by simp) (by simp) rfl

theorem Move.placed (hm : Move w₀ i ph w ph' w' es) (hq : NoQuit es) (hone : OneTimed w₀)
    (hv : Valid w) (h : Placed ph w i) : Placed ph' w' i := by
  obtain ⟨R, B, h⟩ := h
  obtain ⟨R', B', h', -⟩ := hm.relisted hq hone hv h
  exact ⟨R', B', h'⟩

/-- A move of another thread does too. -/
theorem Move.placed_other (hm : Move w₀ i ph w ph' w' es) (hv : Valid w) {j : ThreadId} (hj : j ≠ i)
    (h : PlacedAs R B .out w j) : PlacedAs R B .out w' j := by
  obtain ⟨-, hok⟩ := h
  have hf := hm.foreign hj
  refine ⟨by simp, ?_⟩
  have hr : runs .out (w'.thr j) = runs .out (w.thr j) := hf.current
  rw [hr]
  exact hok.congr (hf.lists.mono (fun _ _ => trivial)) (fun c _ => hm.stack_suspended hv (fun e => absurd e hj))

/-- The lists of every thread are intact. -/
def Intact (w : World V) : Prop := Sane w ∧ ∀ j, Placed .out w j

/-- The same in the middle of a step of thread `i`. -/
structure IntactIn (ph : Phase) (w : World V) (i : ThreadId) : Prop where
  sane : Sane w
  placed : Placed ph w i
  others : ∀ j, j ≠ i → Placed .out w j

theorem Intact.start (h : Intact w) (i : ThreadId) : IntactIn .start w i :=
  ⟨h.1, (h.2 i).imp fun _ => Exists.imp fun _ h => h.phase (by simp) (by simp), fun j _ => h.2 j⟩

theorem IntactIn.intact (h : IntactIn .out w i) : Intact w := by
  refine ⟨h.sane, fun j => ?_⟩
  by_cases hj : j = i
  · rw [hj]; exact h.placed
  · exact h.others j hj

theorem Move.intactIn (hm : Move w₀ i ph w ph' w' es) (hq : NoQuit es) (hone : OneTimed w₀) (h : IntactIn ph w i) :
    IntactIn ph' w' i :=
  ⟨hm.sane h.sane, hm.placed hq hone h.sane.valid h.placed,
    fun j hj => (h.others j hj).imp fun _ => Exists.imp fun _ h' => hm.placed_other h.sane.valid hj h'⟩

theorem Intact.step {a : Action V} (h : Intact w) (hs : w.step a = some (w', es)) (hq : NoQuit es)
    (hone : OneTimed w) : Intact w' :=
  ((step_moves hs).inv (fun ph w => IntactIn ph w a.thread)
    (fun _ _ _ _ _ hm he hI => hm.intactIn (fun j hj => hq j (he _ hj)) hone hI) (h.start _)).intact

theorem intact_init : Intact (init : World V) := by
  refine ⟨sane_init, fun j => ⟨[], [], by simp, ?_⟩⟩
  have hl : Lists {} [] [] :=
    ⟨rfl, rfl, rfl, by simp, by simp, by simp, by simp, fun i a b _ hi => absurd hi (by simp), by simp⟩
  exact ⟨hl, by simp [runs, init], by simp [init], by simp, by simp [init], by simp⟩

end Moves

/-! ## Runs -/

/-- The lists of thread `i` in a state of a run. -/
structure ContextsPlaced (w : World V) (i : ThreadId) (R B : List CtxId) : Prop where
  ready : Chain (fun c => ((w.thr i).ctx c).next) (w.thr i).readyHead R
  readyTail : (w.thr i).readyTail = R.getLast?
  ready_nodup : R.Nodup
  blocked : Chain (fun c => ((w.thr i).ctx c).nextBlocked) (w.thr i).blocked B
  blocked_nodup : B.Nodup
  disjoint : ∀ c ∈ R, c ∉ B
  sleep_nodup : (w.thr i).sleepPqueue.Nodup
  sleep_ready : ∀ c ∈ (w.thr i).sleepPqueue, c ∉ R
  sleep_prom : ∀ c ∈ (w.thr i).sleepPqueue, (((w.thr i).ctx c).prom ≠ none ↔ c ∈ B)
  heap : IsHeap (w.thr i).sleepPriorityLess (w.thr i).sleepPqueue
  running : ∀ c, (w.thr i).current = some c → c ∉ R ∧ c ∉ B ∧ c ∉ (w.thr i).sleepPqueue
  suspended : ∀ c, c < (w.thr i).nctx → (w.thr i).current ≠ some c → c ∈ R ∨ c ∈ B ∨ c ∈ (w.thr i).sleepPqueue

theorem Intact.contextsPlaced {w : World V} (h : Intact w) (i : ThreadId) : ∃ R B, ContextsPlaced w i R B := by
  obtain ⟨R, B, -, hok⟩ := h.2 i
  have hl := hok.lists
  exact ⟨R, B, hl.ready, hl.tail, hl.ready.nodup, hl.blocked, hl.blocked.nodup, hl.disjoint, hl.sleep_nodup,
    hl.sleep_ready, hl.sleep_prom, hl.heap, hok.out, fun c hc hne => (hok.cover c hc).resolve_left hne⟩

/-- No promise has two waiting contexts of one thread. -/
def SingleWaiter (w : World V) : Prop :=
  ∀ i c c' p d d', waitOf (w.stack i c) = some (p, d) → waitOf (w.stack i c') = some (p, d') → c = c'

theorem SingleWaiter.oneTimed {w : World V} (h : SingleWaiter w) : OneTimed w :=
  fun i c c' p d d' hne hc hc' => absurd (h i c c' p d d' hc hc') hne

/-- Runs in which waits on one promise overlap on one thread only without deadlines keep all lists intact. -/
theorem intact_run {w : World V} {es : List (Event V)}
    (h : Run step (fun _ w _ e => OneTimed w ∧ NoQuit e) init w es) : Intact w :=
  h.inv (fun _ w => Intact w) intact_init (fun _ _ _ _ _ hI hok hs => hI.step hs hok.2 hok.1)

/-- In every run without `quit` in which no promise has two waiting contexts, the ready list, the blocked list and
the sleepers of every thread are intact after every step, the running context is in none of them, and every
suspended one is in one of them. -/
theorem contexts_placed {w : World V} {es : List (Event V)}
    (h : Run step (fun _ w _ e => SingleWaiter w ∧ NoQuit e) init w es) (i : ThreadId) :
    ∃ R B, ContextsPlaced w i R B :=
  (intact_run (h.mono (fun _ _ _ _ hok => ⟨hok.1.oneTimed, hok.2⟩))).contextsPlaced i

/-- The check of `SingleWaiter` on the threads below `N`. -/
def singleWaiterCheck (N : Nat) (w : World V) : Bool :=
  (List.range N).all fun i => (List.range ((w.thr i).nctx + 1)).all fun c => (List.range ((w.thr i).nctx + 1)).all
    fun c' => c == c' || (waitOf (w.stack i c)).isNone ||
      (waitOf (w.stack i c)).map Prod.fst != (waitOf (w.stack i c')).map Prod.fst

theorem Small.waitOf_bound {N : Nat} {w : World V} (h : Small N w) {i : ThreadId} {c : CtxId} {x : PromId × Int}
    (hx : waitOf (w.stack i c) = some x) : i < N ∧ c < (w.thr i).nctx + 1 :=
  h.bound (fun e => by rw [e] at hx; cases hx) (fun e => by rw [e] at hx; cases hx)

theorem singleWaiterCheck_sound {N : Nat} {w : World V} (hs : Small N w) (h : singleWaiterCheck N w = true) :
    SingleWaiter w := by
  simp only [singleWaiterCheck, List.all_eq_true, List.mem_range] at h
  intro i c c' p d d' hc hc'
  obtain ⟨hi, hcn⟩ := hs.waitOf_bound hc
  simpa [hc, hc'] using h i hi c hcn c' (hs.waitOf_bound hc').2

/-- A context waits with a deadline and is woken when it passes. -/
theorem contexts_placed_timed_wait : ∃ (w : World Nat) (es : List (Event Nat)),
    Run step (fun _ w _ e => SingleWaiter w ∧ NoQuit e) init w es ∧ Event.expired 0 0 0 ∈ es ∧
      ∃ R B, ContextsPlaced w 0 R B := by
  obtain ⟨w, es, h, -, he⟩ := run_of_small_exec (V := Nat) 1 (fun _ w _ e => SingleWaiter w ∧ NoQuit e)
    (fun _ w _ _ => singleWaiterCheck 1 w) (fun _ es => decide (Event.expired 0 0 0 ∈ es))
    [.call 0 0 .newPromise, .call 0 0 (.wait 0 10), .run 0 0 0 0, .run 0 0 0 0, .run 0 0 0 0, .run 0 0 0 0,
      .run 0 10 10 10, .run 0 10 10 10]
    (fun _ _ _ _ hs hq hb => ⟨singleWaiterCheck_sound hs hb, hq⟩) (by decide)
  exact ⟨w, es, h, by simpa using he, contexts_placed h 0⟩

end World

end BoostCmt
