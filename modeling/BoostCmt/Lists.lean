import Mathlib.Data.List.Dedup
import BoostCmt.Lib.Chain
import BoostCmt.Thread
/-!
# The ready list, the blocked list and the sleepers

`Lists s R B` says that the links of `s` hold the ready list `R` and the blocked
list `B`, and how these and `sleep_pqueue` share contexts. There is one lemma for
each function of `thread_private`: what it does to `R`, `B` and `sleep_pqueue`.
The later modules never unfold the functions again.
-/

namespace BoostCmt

open StdHeap Linked ThreadPrivate

/-- The three structures of a thread, with their contents. -/
structure Lists (s : ThreadPrivate) (R B : List CtxId) : Prop where
  ready : Chain (fun c => (s.ctx c).next) s.readyHead R
  tail : s.readyTail = R.getLast?
  blocked : Chain (fun c => (s.ctx c).nextBlocked) s.blocked B
  disjoint : ∀ c ∈ R, c ∉ B
  sleep_nodup : s.sleepPqueue.Nodup
  sleep_ready : ∀ c ∈ s.sleepPqueue, c ∉ R
  sleep_prom : ∀ c ∈ s.sleepPqueue, ((s.ctx c).prom ≠ none ↔ c ∈ B)
  heap : IsHeap s.sleepPriorityLess s.sleepPqueue
  alloc : ∀ c, c ∈ R ∨ c ∈ B ∨ c ∈ s.sleepPqueue → c < s.nctx

/-- What the list operations never change. -/
structure SameCore (s s' : ThreadPrivate) : Prop where
  inQueue : s'.taskInQueue = s.taskInQueue
  pqueue : s'.taskPqueue = s.taskPqueue
  schQueue : s'.taskSchQueue = s.taskSchQueue
  done : s'.done = s.done
  current : s'.current = s.current
  nctx : s'.nctx = s.nctx
  resumeTime : ∀ c, (s'.ctx c).resumeTime = (s.ctx c).resumeTime
  canceled : ∀ c, (s'.ctx c).canceled = (s.ctx c).canceled

theorem SameCore.refl (s : ThreadPrivate) : SameCore s s :=
  ⟨rfl, rfl, rfl, rfl, rfl, rfl, fun _ => rfl, fun _ => rfl⟩

theorem SameCore.trans {s s' s'' : ThreadPrivate} (h : SameCore s s') (h' : SameCore s' s'') : SameCore s s'' where
  inQueue := h'.inQueue.trans h.inQueue
  pqueue := h'.pqueue.trans h.pqueue
  schQueue := h'.schQueue.trans h.schQueue
  done := h'.done.trans h.done
  current := h'.current.trans h.current
  nctx := h'.nctx.trans h.nctx
  resumeTime c := (h'.resumeTime c).trans (h.resumeTime c)
  canceled c := (h'.canceled c).trans (h.canceled c)

theorem sleepLess_strictWeak (s : ThreadPrivate) : StrictWeak s.sleepPriorityLess where
  asymm := by
    intro a b h; simp only [sleepPriorityLess, gt_iff_lt, decide_eq_true_eq, decide_eq_false_iff_not] at *; omega
  not_trans := by intro a b c; simp only [sleepPriorityLess, gt_iff_lt, decide_eq_false_iff_not]; omega

namespace ThreadPrivate

@[simp] theorem modCtx_ctx (s : ThreadPrivate) (c x : CtxId) (f : CmtContext → CmtContext) :
    (s.modCtx c f).ctx x = if x = c then f (s.ctx x) else s.ctx x := rfl

end ThreadPrivate

/-! ## Pushing and popping ready contexts -/

section Ready
variable {s : ThreadPrivate} {R B : List CtxId} {c : CtxId}

theorem readyPushBack_core (s : ThreadPrivate) (c : CtxId) :
    SameCore s (s.readyPushBack c) ∧ (s.readyPushBack c).sleepPqueue = s.sleepPqueue ∧
      (s.readyPushBack c).blocked = s.blocked ∧
      ∀ x, ((s.readyPushBack c).ctx x).prom = (s.ctx x).prom ∧
        ((s.readyPushBack c).ctx x).nextBlocked = (s.ctx x).nextBlocked := by
  unfold readyPushBack
  split <;> refine ⟨⟨rfl, rfl, rfl, rfl, rfl, rfl, ?_, ?_⟩, rfl, rfl, ?_⟩ <;> intro x <;> simp only [modCtx] <;> grind

theorem readyPushFront_core (s : ThreadPrivate) (c : CtxId) :
    SameCore s (s.readyPushFront c) ∧ (s.readyPushFront c).sleepPqueue = s.sleepPqueue ∧
      (s.readyPushFront c).blocked = s.blocked ∧
      ∀ x, ((s.readyPushFront c).ctx x).prom = (s.ctx x).prom ∧
        ((s.readyPushFront c).ctx x).nextBlocked = (s.ctx x).nextBlocked := by
  refine ⟨⟨rfl, rfl, rfl, rfl, rfl, rfl, ?_, ?_⟩, rfl, rfl, ?_⟩ <;> intro x <;>
    simp only [readyPushFront, modCtx] <;> grind

/-- `readyPushBack` appends to the ready list. -/
theorem readyPushBack_chain (h : Chain (fun c => (s.ctx c).next) s.readyHead R) (ht : s.readyTail = R.getLast?)
    (hc : c ∉ R) :
    Chain (fun x => ((s.readyPushBack c).ctx x).next) (s.readyPushBack c).readyHead (R ++ [c]) ∧
      (s.readyPushBack c).readyTail = (R ++ [c]).getLast? := by
  rcases List.eq_nil_or_concat R with rfl | ⟨R', t, rfl⟩
  · have ht' : s.readyTail = none := by simpa using ht
    simp [readyPushBack, modCtx, ht']
  · rw [List.concat_eq_append] at *
    have ht' : s.readyTail = some t := by simpa using ht
    have hnd := h.nodup
    have htc : t ≠ c := by rintro rfl; simp at hc
    refine ⟨?_, by simp [readyPushBack, modCtx, ht']⟩
    have hhead : (s.readyPushBack c).readyHead = s.readyHead := by simp [readyPushBack, modCtx, ht']
    rw [hhead]
    refine h.push_back ?_ ?_ ?_
    · simp [readyPushBack, modCtx, ht']
    · simp [readyPushBack, modCtx, ht', Ne.symm htc]
    · intro a ha
      have hat : a ≠ t := by rintro rfl; simp [List.nodup_append] at hnd; exact hnd.2 a ha rfl
      have hac : a ≠ c := by rintro rfl; exact hc (by simp [ha])
      simp [readyPushBack, modCtx, ht', hat, hac]

/-- `readyPushFront` puts the context first. -/
theorem readyPushFront_chain (h : Chain (fun c => (s.ctx c).next) s.readyHead R) (ht : s.readyTail = R.getLast?)
    (hc : c ∉ R) :
    Chain (fun x => ((s.readyPushFront c).ctx x).next) (s.readyPushFront c).readyHead (c :: R) ∧
      (s.readyPushFront c).readyTail = (c :: R).getLast? := by
  refine ⟨⟨rfl, ?_⟩, ?_⟩
  · simp only [readyPushFront, modCtx_ctx, if_true]
    refine h.congr (fun a ha => ?_)
    have hac : a ≠ c := by rintro rfl; exact hc ha
    simp [hac]
  · simp only [readyPushFront]
    rw [ht]
    cases R with
    | nil => rfl
    | cons a R => simp [List.getLast?_cons_cons, List.getLast?_eq_none_iff]

theorem readyPopFront_nil (h : Chain (fun c => (s.ctx c).next) s.readyHead []) : s.readyPopFront = (none, s) := by
  have h : s.readyHead = none := h
  simp [readyPopFront, h]

/-- `readyPopFront` takes the first context. -/
theorem readyPopFront_chain (h : Chain (fun c => (s.ctx c).next) s.readyHead (c :: R))
    (ht : s.readyTail = (c :: R).getLast?) :
    ∃ s', s.readyPopFront = (some c, s') ∧ SameCore s s' ∧ s'.sleepPqueue = s.sleepPqueue ∧
      s'.blocked = s.blocked ∧
      (∀ x, (s'.ctx x).prom = (s.ctx x).prom ∧ (s'.ctx x).nextBlocked = (s.ctx x).nextBlocked) ∧
      Chain (fun x => (s'.ctx x).next) s'.readyHead R ∧ s'.readyTail = R.getLast? := by
  have hnd := List.nodup_cons.1 h.nodup
  obtain ⟨hh, hR⟩ := h
  simp only [readyPopFront, hh]
  refine ⟨_, rfl, ⟨rfl, rfl, rfl, rfl, rfl, rfl, ?_, ?_⟩, rfl, rfl, ?_, ?_, ?_⟩
  · intro x; simp only [modCtx_ctx]; split <;> rfl
  · intro x; simp only [modCtx_ctx]; split <;> rfl
  · intro x; simp only [modCtx_ctx]; split <;> exact ⟨rfl, rfl⟩
  · refine Chain.congr hR (fun a ha => ?_)
    have : a ≠ c := by rintro rfl; exact hnd.1 ha
    simp [this]
  · have hhd : (s.ctx c).next = R.head? := hR.head_eq
    cases R with
    | nil => simp [hhd]
    | cons a R => simp [hhd, ht, List.getLast?_cons_cons]

/-- A list operation that only changes the ready list. -/
theorem Lists.relink {s' : ThreadPrivate} {R' : List CtxId} (h : Lists s R B) (core : SameCore s s')
    (hs : s'.sleepPqueue = s.sleepPqueue) (hb : s'.blocked = s.blocked)
    (hx : ∀ x, (s'.ctx x).prom = (s.ctx x).prom ∧ (s'.ctx x).nextBlocked = (s.ctx x).nextBlocked)
    (hr : Chain (fun x => (s'.ctx x).next) s'.readyHead R') (ht : s'.readyTail = R'.getLast?)
    (hR : ∀ c ∈ R', c ∉ B ∧ c ∉ s.sleepPqueue ∧ c < s.nctx) : Lists s' R' B where
  ready := hr
  tail := ht
  blocked := by rw [hb]; exact h.blocked.congr (fun a _ => (hx a).2)
  disjoint c hc := (hR c hc).1
  sleep_nodup := by rw [hs]; exact h.sleep_nodup
  sleep_ready c hc hcR := (hR c hcR).2.1 (hs ▸ hc)
  sleep_prom c hc := by rw [(hx c).1]; exact h.sleep_prom c (hs ▸ hc)
  heap := by
    rw [hs]
    refine h.heap.congr (fun a _ b _ => ?_)
    simp only [sleepPriorityLess, core.resumeTime]
  alloc c hc := by
    rw [core.nctx]
    rcases hc with hc | hc | hc
    · exact (hR c hc).2.2
    · exact h.alloc c (.inr (.inl hc))
    · exact h.alloc c (.inr (.inr (hs ▸ hc)))

theorem Lists.pushBack (h : Lists s R B) (hR : c ∉ R) (hB : c ∉ B) (hS : c ∉ s.sleepPqueue) (hn : c < s.nctx) :
    Lists (s.readyPushBack c) (R ++ [c]) B := by
  obtain ⟨core, hs, hb, hx⟩ := readyPushBack_core s c
  obtain ⟨hr, ht⟩ := readyPushBack_chain h.ready h.tail hR
  refine h.relink core hs hb hx hr ht (fun x hxm => ?_)
  rcases List.mem_append.1 hxm with hxR | hxc
  · exact ⟨h.disjoint x hxR, fun hm => h.sleep_ready x hm hxR, h.alloc x (.inl hxR)⟩
  · rw [List.mem_singleton.1 hxc]; exact ⟨hB, hS, hn⟩

theorem Lists.pushFront (h : Lists s R B) (hR : c ∉ R) (hB : c ∉ B) (hS : c ∉ s.sleepPqueue) (hn : c < s.nctx) :
    Lists (s.readyPushFront c) (c :: R) B := by
  obtain ⟨core, hs, hb, hx⟩ := readyPushFront_core s c
  obtain ⟨hr, ht⟩ := readyPushFront_chain h.ready h.tail hR
  refine h.relink core hs hb hx hr ht (fun x hxm => ?_)
  rcases List.mem_cons.1 hxm with rfl | hxR
  · exact ⟨hB, hS, hn⟩
  · exact ⟨h.disjoint x hxR, fun hm => h.sleep_ready x hm hxR, h.alloc x (.inl hxR)⟩

theorem Lists.popFront (h : Lists s (c :: R) B) :
    ∃ s', s.readyPopFront = (some c, s') ∧ SameCore s s' ∧ s'.sleepPqueue = s.sleepPqueue ∧
      (∀ x, (s'.ctx x).prom = (s.ctx x).prom) ∧ Lists s' R B := by
  obtain ⟨s', he, core, hs, hb, hx, hr, ht⟩ := readyPopFront_chain h.ready h.tail
  refine ⟨s', he, core, hs, fun x => (hx x).1, h.relink core hs hb hx hr ht (fun x hxR => ?_)⟩
  have hm : x ∈ c :: R := List.mem_cons_of_mem _ hxR
  exact ⟨h.disjoint x hm, fun hs => h.sleep_ready x hs hm, h.alloc x (.inl hm)⟩

end Ready

/-! ## Going to sleep and blocking -/

section Suspend
variable {s : ThreadPrivate} {R B : List CtxId} {c : CtxId}

theorem sleepPush_perm (s : ThreadPrivate) (c : CtxId) : (s.sleepPush c).sleepPqueue.Perm (c :: s.sleepPqueue) :=
  (pushHeap_perm _ _).trans (List.perm_append_singleton _ _)

/-- A new sleeper: `sleep_until` up to `start_next_task`. -/
theorem Lists.sleepOn (h : Lists s R B) (hR : c ∉ R) (hB : c ∉ B) (hS : c ∉ s.sleepPqueue) (hn : c < s.nctx)
    (tp : Int) : Lists (s.sleepOn c tp) R B ∧ (s.sleepOn c tp).sleepPqueue.Perm (c :: s.sleepPqueue) := by
  have hp : (s.sleepOn c tp).sleepPqueue.Perm (c :: s.sleepPqueue) := sleepPush_perm _ _
  have hne : ∀ x ∈ s.sleepPqueue, x ≠ c := fun x hx e => hS (e ▸ hx)
  refine ⟨?_, hp⟩
  constructor
  · refine h.ready.congr (fun a ha => ?_)
    have : a ≠ c := fun e => hR (e ▸ ha)
    simp [ThreadPrivate.sleepOn, sleepPush, this]
  · exact h.tail
  · refine h.blocked.congr (fun a ha => ?_)
    have : a ≠ c := fun e => hB (e ▸ ha)
    simp [ThreadPrivate.sleepOn, sleepPush, this]
  · exact h.disjoint
  · exact hp.nodup_iff.2 (List.nodup_cons.2 ⟨hS, h.sleep_nodup⟩)
  · intro x hx
    rcases List.mem_cons.1 (hp.subset hx) with rfl | hx
    · exact hR
    · exact h.sleep_ready x hx
  · intro x hx
    rcases List.mem_cons.1 (hp.subset hx) with rfl | hx
    · simp [ThreadPrivate.sleepOn, sleepPush, hB]
    · have := hne x hx
      simpa [ThreadPrivate.sleepOn, sleepPush, this] using h.sleep_prom x hx
  · refine pushHeap_heap (sleepLess_strictWeak _) ?_ c
    refine h.heap.congr (fun a ha b hb => ?_)
    simp [sleepPriorityLess, ThreadPrivate.sleepOn, sleepPush, hne a ha, hne b hb]
  · intro x hx
    rcases hx with hx | hx | hx
    · exact h.alloc x (.inl hx)
    · exact h.alloc x (.inr (.inl hx))
    · rcases List.mem_cons.1 (hp.subset hx) with rfl | hx
      · exact hn
      · exact h.alloc x (.inr (.inr hx))

theorem sleepOn_core (s : ThreadPrivate) (c : CtxId) (tp : Int) :
    (s.sleepOn c tp).current = s.current ∧ (s.sleepOn c tp).nctx = s.nctx ∧
      (∀ x, x ≠ c → (s.sleepOn c tp).ctx x = s.ctx x) ∧ ((s.sleepOn c tp).ctx c).resumeTime = tp ∧
      ((s.sleepOn c tp).ctx c).canceled = (s.ctx c).canceled := by
  refine ⟨rfl, rfl, fun x hx => ?_, ?_, ?_⟩ <;> simp_all [sleepOn, sleepPush]

/-- Who sleeps after `waitOn`: the context too, if it has a deadline. -/
theorem waitOn_sleep (s : ThreadPrivate) (c : CtxId) (p : PromId) (d : Int) :
    (s.waitOn c p d).sleepPqueue.Perm (if d ≠ timePointMax then c :: s.sleepPqueue else s.sleepPqueue) := by
  unfold waitOn
  split
  · exact sleepPush_perm _ _
  · exact .refl _

theorem waitOn_core (s : ThreadPrivate) (c : CtxId) (p : PromId) (d : Int) :
    (s.waitOn c p d).current = s.current ∧ (s.waitOn c p d).nctx = s.nctx ∧
      (s.waitOn c p d).readyHead = s.readyHead ∧ (s.waitOn c p d).readyTail = s.readyTail ∧
      (s.waitOn c p d).blocked = some c ∧
      (∀ x, x ≠ c → (s.waitOn c p d).ctx x = s.ctx x) ∧ ((s.waitOn c p d).ctx c).prom = some p ∧
      (d ≠ timePointMax → ((s.waitOn c p d).ctx c).resumeTime = d) ∧
      ((s.waitOn c p d).ctx c).nextBlocked = s.blocked ∧
      ((s.waitOn c p d).ctx c).canceled = (s.ctx c).canceled := by
  unfold waitOn
  split <;> refine ⟨rfl, rfl, rfl, rfl, rfl, fun x hx => ?_, ?_, fun hd => ?_, ?_, ?_⟩ <;>
    simp_all [addToBlocked, sleepPush, modCtx]

/-- A new waiter: `thread::wait` up to `start_next_task`. -/
theorem Lists.waitOn (h : Lists s R B) (hR : c ∉ R) (hB : c ∉ B) (hS : c ∉ s.sleepPqueue) (hn : c < s.nctx)
    (p : PromId) (d : Int) : Lists (s.waitOn c p d) R (c :: B) := by
  have hp := waitOn_sleep s c p d
  obtain ⟨-, hnctx, hhead, htail, hblk, hx, hprom, -, hnb, -⟩ := waitOn_core s c p d
  have hne : ∀ x ∈ s.sleepPqueue, x ≠ c := fun x hx e => hS (e ▸ hx)
  have hmem : ∀ x ∈ (s.waitOn c p d).sleepPqueue, x = c ∨ x ∈ s.sleepPqueue := by
    intro x hx
    have := hp.subset hx
    split at this
    · exact List.mem_cons.1 this
    · exact .inr this
  constructor
  · rw [hhead]
    exact h.ready.congr (fun a ha => by rw [hx a (fun e => hR (e ▸ ha))])
  · rw [htail]; exact h.tail
  · rw [hblk]
    refine ⟨rfl, ?_⟩
    dsimp only
    rw [hnb]
    exact h.blocked.congr (fun a ha => by rw [hx a (fun e => hB (e ▸ ha))])
  · intro x hxR hxB
    rcases List.mem_cons.1 hxB with rfl | hxB
    · exact hR hxR
    · exact h.disjoint x hxR hxB
  · refine hp.nodup_iff.2 ?_
    split
    · exact List.nodup_cons.2 ⟨hS, h.sleep_nodup⟩
    · exact h.sleep_nodup
  · intro x hxs
    rcases hmem x hxs with rfl | hxs
    · exact hR
    · exact h.sleep_ready x hxs
  · intro x hxs
    rcases hmem x hxs with rfl | hxs
    · simp [hprom]
    · have hxc := hne x hxs
      rw [hx x hxc, h.sleep_prom x hxs]
      simp [hxc]
  · have hcongr : ∀ a ∈ s.sleepPqueue, ∀ b ∈ s.sleepPqueue,
        (s.waitOn c p d).sleepPriorityLess a b = s.sleepPriorityLess a b := by
      intro a ha b hb
      simp only [sleepPriorityLess, hx a (hne a ha), hx b (hne b hb)]
    by_cases hd : d = timePointMax
    · have : (s.waitOn c p d).sleepPqueue = s.sleepPqueue := by
        simp [ThreadPrivate.waitOn, hd, addToBlocked, modCtx]
      rw [this]
      exact h.heap.congr hcongr
    · have : (s.waitOn c p d).sleepPqueue =
          pushHeap (s.waitOn c p d).sleepPriorityLess (s.sleepPqueue ++ [c]) := by
        simp only [ThreadPrivate.waitOn, hd, ne_eq, not_false_eq_true, if_true]
        have : ∀ s' : ThreadPrivate, (s'.addToBlocked c).sleepPriorityLess = s'.sleepPriorityLess := by
          intro s'; funext a b; simp only [sleepPriorityLess, addToBlocked, modCtx]; split <;> split <;> rfl
        rw [this]
        rfl
      rw [this]
      exact pushHeap_heap (sleepLess_strictWeak _) (h.heap.congr hcongr) c
  · intro x hxm
    rw [hnctx]
    rcases hxm with hxm | hxm | hxm
    · exact h.alloc x (.inl hxm)
    · rcases List.mem_cons.1 hxm with rfl | hxm
      · exact hn
      · exact h.alloc x (.inr (.inl hxm))
    · rcases hmem x hxm with rfl | hxm
      · exact hn
      · exact h.alloc x (.inr (.inr hxm))

end Suspend

/-! ## Waking sleepers -/

section Wake
variable {s : ThreadPrivate} {R B : List CtxId} {c : CtxId}

theorem sleepPop_perm {v : List CtxId} (h : s.sleepPqueue = c :: v) : s.sleepPop.sleepPqueue.Perm v := by
  simp only [sleepPop, h]
  exact popHeap_dropLast_perm _ c v

theorem sleepPop_core (s : ThreadPrivate) : SameCore s s.sleepPop :=
  ⟨rfl, rfl, rfl, rfl, rfl, rfl, fun _ => rfl, fun _ => rfl⟩

/-- The front of `sleep_pqueue` has the earliest deadline. -/
theorem Lists.front_min {v : List CtxId} (h : Lists s R B) (hs : s.sleepPqueue = c :: v) :
    ∀ x ∈ s.sleepPqueue, (s.ctx c).resumeTime ≤ (s.ctx x).resumeTime := by
  intro x hx
  have := (hs ▸ h.heap).front (sleepLess_strictWeak s) x (hs ▸ hx)
  simpa [sleepPriorityLess] using this

/-- Taking out the front leaves the lists as they are. -/
theorem Lists.sleepPop {v : List CtxId} (h : Lists s R B) (hs : s.sleepPqueue = c :: v) :
    Lists s.sleepPop R B ∧ c ∉ s.sleepPop.sleepPqueue := by
  have hp := sleepPop_perm hs
  have hnd := List.nodup_cons.1 (hs ▸ h.sleep_nodup)
  have hsub : ∀ x ∈ s.sleepPop.sleepPqueue, x ∈ s.sleepPqueue := fun x hx =>
    hs ▸ List.mem_cons_of_mem _ (hp.subset hx)
  refine ⟨⟨h.ready, h.tail, h.blocked, h.disjoint, hp.nodup_iff.2 hnd.2, ?_, ?_, ?_, ?_⟩,
    fun hc => hnd.1 (hp.subset hc)⟩
  · exact fun x hx => h.sleep_ready x (hsub x hx)
  · exact fun x hx => h.sleep_prom x (hsub x hx)
  · have := h.heap
    rw [hs] at this
    have := popHeap_heap (sleepLess_strictWeak s) this
    simp only [ThreadPrivate.sleepPop, hs]
    exact this
  · rintro x (hx | hx | hx)
    · exact h.alloc x (.inl hx)
    · exact h.alloc x (.inr (.inl hx))
    · exact h.alloc x (.inr (.inr (hsub x hx)))

end Wake

/-! ## Notifying -/

section Notify
variable {s : ThreadPrivate} {R B : List CtxId} {c : CtxId} {p : PromId}

theorem Lists.length_le (h : Lists s R B) : B.length ≤ s.nctx := by
  have hsub : B ⊆ List.range s.nctx := fun x hx => List.mem_range.2 (h.alloc x (.inr (.inl hx)))
  have := (List.subperm_of_subset h.blocked.nodup hsub).length_le
  simpa using this

theorem unblock_core (s : ThreadPrivate) (prev : Option CtxId) (c : CtxId) :
    SameCore s (s.unblock prev c) ∧ (s.unblock prev c).sleepPqueue = s.sleepPqueue ∧
      (∀ x, ((s.unblock prev c).ctx x).prom = (s.ctx x).prom) ∧
      ((s.unblock prev c).ctx c).nextBlocked = none := by
  have hcore : ∀ s₁ : ThreadPrivate, SameCore s s₁ → s₁.sleepPqueue = s.sleepPqueue →
      (∀ x, (s₁.ctx x).prom = (s.ctx x).prom) →
      let s₂ := (s₁.modCtx c (fun k => { k with nextBlocked := none })).readyPushFront c
      SameCore s s₂ ∧ s₂.sleepPqueue = s.sleepPqueue ∧ (∀ x, (s₂.ctx x).prom = (s.ctx x).prom) ∧
        (s₂.ctx c).nextBlocked = none := by
    intro s₁ h₁ hs hp
    obtain ⟨core, hs', -, hx⟩ := readyPushFront_core (s₁.modCtx c (fun k => { k with nextBlocked := none })) c
    have hmod : SameCore s₁ (s₁.modCtx c (fun k => { k with nextBlocked := none })) := by
      refine ⟨rfl, rfl, rfl, rfl, rfl, rfl, ?_, ?_⟩ <;> intro x <;> simp only [modCtx_ctx] <;> split <;> rfl
    refine ⟨(h₁.trans hmod).trans core, hs'.trans hs, fun x => ?_, ?_⟩
    · rw [(hx x).1, ← hp x, modCtx_ctx]; split <;> rfl
    · rw [(hx c).2]; simp
  unfold unblock
  cases prev with
  | none => exact hcore { s with blocked := _ } ⟨rfl, rfl, rfl, rfl, rfl, rfl, fun _ => rfl, fun _ => rfl⟩ rfl (fun _ => rfl)
  | some q =>
    refine hcore (s.modCtx q _) ⟨rfl, rfl, rfl, rfl, rfl, rfl, ?_, ?_⟩ rfl ?_ <;>
      intro x <;> simp only [modCtx_ctx] <;> split <;> rfl

/-- `unblock` writes no link of a context other than `c` and the one before it in the blocked list. -/
theorem unblock_links {prev : Option CtxId} {x : CtxId} (hx : x ≠ c) :
    ((s.unblock prev c).ctx x).next = (s.ctx x).next ∧
      (prev ≠ some x → ((s.unblock prev c).ctx x).nextBlocked = (s.ctx x).nextBlocked) := by
  cases prev with
  | none => simp [unblock, readyPushFront, hx]
  | some q =>
    by_cases hq : x = q
    · subst hq
      simp [unblock, readyPushFront, hx]
    · simp [unblock, readyPushFront, hx, hq]

/-- `unblock` puts `c` first in the ready list. -/
theorem unblock_ready (prev : Option CtxId) (h : Chain (fun c => (s.ctx c).next) s.readyHead R)
    (ht : s.readyTail = R.getLast?) (hc : c ∉ R) :
    Chain (fun x => ((s.unblock prev c).ctx x).next) (s.unblock prev c).readyHead (c :: R) ∧
      (s.unblock prev c).readyTail = (c :: R).getLast? := by
  cases prev with
  | none =>
    exact readyPushFront_chain (h.congr (fun a _ => by simp only [modCtx_ctx]; split <;> rfl)) ht hc
  | some q =>
    exact readyPushFront_chain (h.congr (fun a _ => by simp only [modCtx_ctx]; split <;> split <;> rfl)) ht hc

/-- `unblock` takes `c` out of the blocked list. -/
theorem unblock_blocked {B₁ B₂ : List CtxId} (h : Chain (fun c => (s.ctx c).nextBlocked) s.blocked (B₁ ++ c :: B₂)) :
    Chain (fun x => ((s.unblock B₁.getLast? c).ctx x).nextBlocked) (s.unblock B₁.getLast? c).blocked (B₁ ++ B₂) := by
  have hnd := h.nodup
  rw [List.nodup_middle, List.nodup_cons] at hnd
  have hne : ∀ a ∈ B₁ ++ B₂, a ≠ c := fun a ha e => hnd.1 (e ▸ ha)
  rcases List.eq_nil_or_concat B₁ with rfl | ⟨B', q, rfl⟩
  · refine Chain.congr h.2 (fun a ha => ?_)
    exact (unblock_links (hne a ha)).2 (by simp)
  · rw [List.concat_eq_append] at *
    have hlast : (B' ++ [q]).getLast? = some q := by simp
    rw [hlast, List.append_assoc]
    rw [List.append_assoc] at h hne hnd
    have hq : ∀ a, a ∈ B' ∨ a ∈ B₂ → some q ≠ some a := by
      intro a ha e
      obtain rfl := Option.some.inj e
      have := hnd.2
      rw [List.nodup_append] at this
      simp only [List.singleton_append, List.nodup_cons, List.mem_cons] at this
      rcases ha with ha | ha
      · exact this.2.2 q ha q (.inl rfl) rfl
      · exact this.2.1.1 ha
    refine h.unlink ?_ ?_ ?_
    · have hqc : q ≠ c := hne q (by simp)
      simp [unblock, readyPushFront, hqc]
    · exact fun a ha => (unblock_links (hne a (by simp [ha]))).2 (hq a (.inl ha))
    · exact fun a ha => (unblock_links (hne a (by simp [ha]))).2 (hq a (.inr ha))

theorem notifyBlocked_skip (l : List CtxId) : ∀ (fuel : Nat) (prev cur : Option CtxId),
    Chain (fun x => (s.ctx x).nextBlocked) cur l → (∀ x ∈ l, (s.ctx x).prom ≠ some p) → l.length < fuel →
    notifyBlocked p fuel s prev cur = some s := by
  induction l with
  | nil =>
    intro fuel prev cur hc _ hf
    obtain ⟨n, rfl⟩ := Nat.exists_eq_succ_of_ne_zero (Nat.ne_of_gt hf)
    obtain rfl : cur = none := hc
    rfl
  | cons a l ih =>
    intro fuel prev cur hc hp hf
    obtain ⟨n, rfl⟩ := Nat.exists_eq_succ_of_ne_zero (Nat.ne_of_gt (Nat.lt_of_le_of_lt (Nat.zero_le _) hf))
    obtain ⟨rfl, hc⟩ := hc
    simp only [notifyBlocked, hp a (by simp), if_false]
    exact ih n _ _ hc (fun x hx => hp x (by simp [hx])) (by simpa using hf)

theorem notifyBlocked_found (l₁ : List CtxId) {l₂ : List CtxId} : ∀ (fuel : Nat) (prev cur : Option CtxId),
    Chain (fun x => (s.ctx x).nextBlocked) cur (l₁ ++ c :: l₂) → (∀ x ∈ l₁, (s.ctx x).prom ≠ some p) →
    (s.ctx c).prom = some p → l₁.length + 1 < fuel →
    notifyBlocked p fuel s prev cur = some (s.unblock (l₁.getLast?.or prev) c) := by
  induction l₁ with
  | nil =>
    intro fuel prev cur hc _ hp hf
    obtain ⟨n, rfl⟩ : ∃ n, fuel = n + 2 := ⟨fuel - 2, by simp at hf; omega⟩
    obtain ⟨rfl, -⟩ := hc
    simp only [notifyBlocked, hp, if_true, (unblock_core s prev c).2.2.2, List.getLast?_nil, Option.none_or]
  | cons a l₁ ih =>
    intro fuel prev cur hc hn hp hf
    obtain ⟨n, rfl⟩ := Nat.exists_eq_succ_of_ne_zero (Nat.ne_of_gt (Nat.lt_of_le_of_lt (Nat.zero_le _) hf))
    obtain ⟨rfl, hc⟩ := hc
    simp only [notifyBlocked, hn a (by simp), if_false]
    rw [ih n (some a) _ hc (fun x hx => hn x (by simp [hx])) hp (by simpa using hf)]
    cases l₁ with
    | nil => simp
    | cons b l₁ =>
      have hl : (b :: l₁).getLast? = some ((b :: l₁).getLast (by simp)) := List.getLast?_eq_some_getLast _
      rw [List.getLast?_cons_cons, hl]
      rfl

/-- Overwriting an entry with the last one and dropping the last one removes the entry. -/
theorem set_last_dropLast_perm {l : List CtxId} {i : Nat} {back : CtxId} (hl : l.getLast? = some back)
    (hc : l[i]? = some c) : ((l.set i back).dropLast).Perm (l.eraseIdx i) := by
  obtain ⟨ys, rfl⟩ := List.getLast?_eq_some_iff.1 hl
  have hi : i < (ys ++ [back]).length := (List.getElem?_eq_some_iff.1 hc).1
  simp only [List.length_append, List.length_singleton] at hi
  rcases Nat.lt_or_ge i ys.length with h | h
  · rw [List.set_append_left _ _ h, List.dropLast_concat, List.eraseIdx_append_of_lt_length h]
    have hp : (ys.set i back).Perm (back :: ys.eraseIdx i) := by
      rw [List.set_eq_take_append_cons_drop, if_pos h, List.eraseIdx_eq_take_drop_succ]
      exact List.perm_middle
    exact hp.trans (List.perm_append_singleton _ _).symm
  · obtain rfl : i = ys.length := by omega
    rw [List.set_append_right _ _ (Nat.le_refl _)]
    simp [List.eraseIdx_append_of_length_le]

/-- The loop of `notify` over the sleepers takes out the first entry that waits on `p`. -/
theorem notifySleep_first {x : CtxId} (hx : x ∈ s.sleepPqueue) (hp : (s.ctx x).prom = some p) :
    ∃ i c v, s.sleepPqueue[i]? = some c ∧ (s.ctx c).prom = some p ∧ v.Perm (s.sleepPqueue.eraseIdx i) ∧
      notifySleep p s = { s.modCtx c (fun k => { k with prom := none }) with sleepPqueue := v } ∧
      IsHeap (s.modCtx c (fun k => { k with prom := none })).sleepPriorityLess v := by
  obtain ⟨i, hi⟩ : ∃ i, s.sleepPqueue.findIdx? (fun c => (s.ctx c).prom = some p) = some i := by
    rw [← Option.isSome_iff_exists, List.findIdx?_isSome, List.any_eq_true]
    exact ⟨x, hx, by simpa using hp⟩
  obtain ⟨hlt, hpi, -⟩ := List.findIdx?_eq_some_iff_getElem.1 hi
  obtain ⟨back, hb⟩ : ∃ back, s.sleepPqueue.getLast? = some back :=
    Option.isSome_iff_exists.1 (by rw [List.getLast?_isSome]; exact List.ne_nil_of_mem hx)
  have hget : s.sleepPqueue[i]? = some s.sleepPqueue[i] := List.getElem?_eq_getElem hlt
  refine ⟨i, _, _, hget, by simpa using hpi, (makeHeap_perm _ _).trans (set_last_dropLast_perm hb hget), ?_,
    makeHeap_heap (sleepLess_strictWeak _) _⟩
  simp only [notifySleep, hi, hb, hget]
  rfl

/-- The sleepers after `notify`: the entry of `c` is gone, and `c` no longer waits. -/
theorem notifySleep_found (hnd : s.sleepPqueue.Nodup) (hc : c ∈ s.sleepPqueue) (hp : (s.ctx c).prom = some p)
    (huniq : ∀ x ∈ s.sleepPqueue, (s.ctx x).prom = some p → x = c) :
    ∃ v, notifySleep p s = { s.modCtx c (fun k => { k with prom := none }) with sleepPqueue := v } ∧
      v.Perm (s.sleepPqueue.erase c) ∧ IsHeap (s.modCtx c (fun k => { k with prom := none })).sleepPriorityLess v := by
  obtain ⟨i, x, v, hi, hx, hv, heq, hheap⟩ := notifySleep_first hc hp
  obtain ⟨hlt, hxi⟩ := List.getElem?_eq_some_iff.1 hi
  obtain rfl : x = c := huniq x (hxi ▸ List.getElem_mem hlt) hx
  refine ⟨v, heq, ?_, hheap⟩
  rwa [← hxi, hnd.erase_getElem]

theorem notifySleep_skip (h : ∀ x ∈ s.sleepPqueue, (s.ctx x).prom ≠ some p) : notifySleep p s = s := by
  have : s.sleepPqueue.findIdx? (fun c => (s.ctx c).prom = some p) = none := by
    rw [List.findIdx?_eq_none_iff]
    exact fun x hx => by simpa using h x hx
  simp only [notifySleep, this]

/-- `notify` when nobody waits on `p`. -/
theorem Lists.notify_none (h : Lists s R B) (hp : ∀ x ∈ B, (s.ctx x).prom ≠ some p) : s.notify p = some s := by
  have hb := notifyBlocked_skip (p := p) B (s.nctx + 1) none s.blocked h.blocked hp
    (Nat.lt_succ_of_le h.length_le)
  simp only [ThreadPrivate.notify, hb, Option.map_some]
  rw [notifySleep_skip]
  exact fun x hx e => hp x ((h.sleep_prom x hx).1 (by simp [e])) e

/-- What is left after `unblock` and the loop over the sleepers, which removes `c` and nothing else. -/
theorem Lists.notified {s' : ThreadPrivate} {B₁ B₂ : List CtxId} (h : Lists s R (B₁ ++ c :: B₂))
    (core : SameCore s s')
    (hr : Chain (fun x => (s'.ctx x).next) s'.readyHead (c :: R)) (ht : s'.readyTail = (c :: R).getLast?)
    (hb : Chain (fun x => (s'.ctx x).nextBlocked) s'.blocked (B₁ ++ B₂))
    (hs : s'.sleepPqueue.Perm (s.sleepPqueue.erase c)) (hx : ∀ x, x ≠ c → (s'.ctx x).prom = (s.ctx x).prom)
    (hheap : IsHeap s'.sleepPriorityLess s'.sleepPqueue) : Lists s' (c :: R) (B₁ ++ B₂) := by
  have hmem : ∀ x ∈ s'.sleepPqueue, x ≠ c ∧ x ∈ s.sleepPqueue := by
    intro x hxs
    have := hs.subset hxs
    exact ⟨fun e => h.sleep_nodup.not_mem_erase (e ▸ this), List.mem_of_mem_erase this⟩
  have hsub : ∀ x, x ∈ B₁ ++ B₂ → x ∈ B₁ ++ c :: B₂ := by simp only [List.mem_append, List.mem_cons]; grind
  constructor
  · exact hr
  · exact ht
  · exact hb
  · intro x hxR hxB
    rcases List.mem_cons.1 hxR with rfl | hxR
    · have := h.blocked.nodup
      rw [List.nodup_middle, List.nodup_cons] at this
      exact this.1 hxB
    · exact h.disjoint x hxR (hsub x hxB)
  · exact hs.nodup_iff.2 (h.sleep_nodup.erase c)
  · intro x hxs hxR
    obtain ⟨hxc, hxs⟩ := hmem x hxs
    exact h.sleep_ready x hxs ((List.mem_cons.1 hxR).resolve_left hxc)
  · intro x hxs
    obtain ⟨hxc, hxs⟩ := hmem x hxs
    rw [hx x hxc, h.sleep_prom x hxs]
    simp [hxc]
  · exact hheap
  · rintro x (hxR | hxB | hxs)
    · rw [core.nctx]
      rcases List.mem_cons.1 hxR with rfl | hxR
      · exact h.alloc x (.inr (.inl (by simp)))
      · exact h.alloc x (.inl hxR)
    · rw [core.nctx]; exact h.alloc x (.inr (.inl (hsub x hxB)))
    · rw [core.nctx]; exact h.alloc x (.inr (.inr (hmem x hxs).2))

/-- `notify` when the first context in the blocked list that waits on `p` is `c`, and no other one that waits on
`p` sleeps: `c` leaves the blocked list and the sleepers and is the first ready context. -/
theorem Lists.notify_some {B₁ B₂ : List CtxId} (h : Lists s R (B₁ ++ c :: B₂))
    (hfirst : ∀ x ∈ B₁, (s.ctx x).prom ≠ some p) (hc : (s.ctx c).prom = some p)
    (huniq : ∀ x ∈ s.sleepPqueue, (s.ctx x).prom = some p → x = c) :
    ∃ s', s.notify p = some s' ∧ SameCore s s' ∧ Lists s' (c :: R) (B₁ ++ B₂) ∧
      s'.sleepPqueue.Perm (s.sleepPqueue.erase c) ∧ ∀ x, x ≠ c → (s'.ctx x).prom = (s.ctx x).prom := by
  have hlen := h.length_le
  have hfound := notifyBlocked_found B₁ (s.nctx + 1) none s.blocked h.blocked hfirst hc
    (by simp at hlen; omega)
  rw [Option.or_none] at hfound
  obtain ⟨hr, ht⟩ := unblock_ready B₁.getLast? h.ready h.tail (fun hc => h.disjoint c hc (by simp))
  have hb := unblock_blocked h.blocked
  obtain ⟨core, hs, hp, -⟩ := unblock_core s B₁.getLast? c
  simp only [ThreadPrivate.notify, hfound, Option.map_some]
  generalize s.unblock B₁.getLast? c = u at *
  have hheap : IsHeap u.sleepPriorityLess u.sleepPqueue := by
    rw [hs]
    exact h.heap.congr (fun a _ b _ => by simp only [sleepPriorityLess, core.resumeTime])
  by_cases hcs : c ∈ s.sleepPqueue
  · obtain ⟨v, heq, hperm, hv⟩ := notifySleep_found (s := u) (hs ▸ h.sleep_nodup) (hs ▸ hcs)
      ((hp c).trans hc) (fun x hx e => huniq x (hs ▸ hx) ((hp x).symm.trans e))
    have hmod : SameCore u (u.modCtx c (fun k => { k with prom := none })) := by
      refine ⟨rfl, rfl, rfl, rfl, rfl, rfl, ?_, ?_⟩ <;> intro x <;> simp only [modCtx_ctx] <;> split <;> rfl
    have hprom : ∀ x, x ≠ c → ((u.modCtx c (fun k => { k with prom := none })).ctx x).prom = (s.ctx x).prom := by
      intro x hx
      simp [hx, hp x]
    rw [hs] at hperm
    rw [heq]
    have core' := core.trans hmod
    have core'' : SameCore s { u.modCtx c (fun k => { k with prom := none }) with sleepPqueue := v } :=
      ⟨core'.1, core'.2, core'.3, core'.4, core'.5, core'.6, core'.7, core'.8⟩
    refine ⟨_, rfl, core'', ?_, hperm, hprom⟩
    refine h.notified core'' ?_ ht ?_ hperm hprom hv
    · exact hr.congr (fun a _ => by simp only [modCtx_ctx]; split <;> rfl)
    · exact hb.congr (fun a _ => by simp only [modCtx_ctx]; split <;> rfl)
  · have hskip : notifySleep p u = u := by
      refine notifySleep_skip (fun x hx e => ?_)
      rw [hs] at hx
      exact hcs (huniq x hx ((hp x).symm.trans e) ▸ hx)
    have hperm : u.sleepPqueue.Perm (s.sleepPqueue.erase c) := by rw [List.erase_of_not_mem hcs, hs]
    rw [hskip]
    exact ⟨u, rfl, core, h.notified core hr ht hb hperm (fun x _ => hp x) hheap, hperm, fun x _ => hp x⟩

/-- The first member of a list with a property, if there is one. -/
theorem first_waiter (B : List CtxId) (q : CtxId → Prop) :
    (∀ x ∈ B, ¬ q x) ∨ ∃ B₁ c B₂, B = B₁ ++ c :: B₂ ∧ (∀ x ∈ B₁, ¬ q x) ∧ q c := by
  induction B with
  | nil => exact .inl (by simp)
  | cons a B ih =>
    by_cases ha : q a
    · exact .inr ⟨[], a, B, rfl, by simp, ha⟩
    · rcases ih with h | ⟨B₁, c, B₂, rfl, h₁, hc⟩
      · exact .inl (by simpa [ha] using h)
      · exact .inr ⟨a :: B₁, c, B₂, rfl, by simpa [ha] using h₁, hc⟩

/-- What `unblock` keeps, the walk over the blocked list keeps. -/
theorem notifyBlocked_keeps {P : ThreadPrivate → Prop} (hP : ∀ s prev c, P s → P (s.unblock prev c)) {p : PromId}
    {fuel : Nat} {s s' : ThreadPrivate} {prev cur : Option CtxId} (hs : P s)
    (h : notifyBlocked p fuel s prev cur = some s') : P s' := by
  induction fuel generalizing s prev cur with
  | zero => cases h
  | succ fuel ih =>
    cases cur with
    | none =>
      obtain rfl := Option.some.inj h
      exact hs
    | some c =>
      simp only [notifyBlocked] at h
      split at h
      · exact ih (hP s prev c hs) h
      · exact ih hs h

theorem notifyBlocked_core {p : PromId} {fuel : Nat} {s s' : ThreadPrivate} {prev cur : Option CtxId}
    (h : notifyBlocked p fuel s prev cur = some s') : SameCore s s' :=
  notifyBlocked_keeps (fun u prev c hu => hu.trans (unblock_core u prev c).1) (.refl s) h

theorem notifySleep_core (p : PromId) (s : ThreadPrivate) : SameCore s (notifySleep p s) := by
  simp only [notifySleep]
  split
  · split
    · refine ⟨rfl, rfl, rfl, rfl, rfl, rfl, ?_, ?_⟩ <;> intro x <;> simp only [modCtx_ctx] <;> split <;> rfl
    · exact .refl s
  · exact .refl s

theorem notify_core {p : PromId} {s s' : ThreadPrivate} (h : s.notify p = some s') : SameCore s s' := by
  simp only [ThreadPrivate.notify, Option.map_eq_some_iff] at h
  obtain ⟨u, hu, rfl⟩ := h
  exact (notifyBlocked_core hu).trans (notifySleep_core p u)

end Notify

/-! ## New contexts -/

section Create
variable {s : ThreadPrivate} {R B : List CtxId}

theorem Lists.newContext (h : Lists s R B) : Lists s.newContext.2 R B := by
  have hlt : ∀ x, x ∈ R ∨ x ∈ B ∨ x ∈ s.sleepPqueue → x ≠ s.nctx := fun x hx => Nat.ne_of_lt (h.alloc x hx)
  have hctx : ∀ x, x ≠ s.nctx → s.newContext.2.ctx x = s.ctx x := by
    intro x hx; simp [ThreadPrivate.newContext, hx]
  refine ⟨?_, h.tail, ?_, h.disjoint, h.sleep_nodup, h.sleep_ready, ?_, ?_, ?_⟩
  · exact h.ready.congr (fun a ha => by rw [hctx a (hlt a (.inl ha))])
  · exact h.blocked.congr (fun a ha => by rw [hctx a (hlt a (.inr (.inl ha)))])
  · intro x hx
    rw [hctx x (hlt x (.inr (.inr hx)))]
    exact h.sleep_prom x hx
  · refine h.heap.congr (fun a ha b hb => ?_)
    simp only [sleepPriorityLess, hctx a (hlt a (.inr (.inr ha))), hctx b (hlt b (.inr (.inr hb)))]
  · exact fun x hx => Nat.lt_succ_of_lt (h.alloc x hx)

end Create

end BoostCmt
