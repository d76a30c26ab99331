import BoostCmt.Lists
/-!
# What one `notify` releases

`thread::notify(p)` on its own thread walks the blocked list and then the
sleepers. The walk goes on from the link of the context it has just unlinked,
which is null by then, and the loop over the sleepers stops at its first hit.
`notify_releases` says exactly when the call still releases every waiter of `p`.
-/

namespace BoostCmt

open StdHeap Linked ThreadPrivate

/-- Whether `c` waits on `p`: `try_unblock`. -/
def tryUnblock (s : ThreadPrivate) (p : PromId) (c : CtxId) : Bool := (s.ctx c).prom = some p

/-- `s'` is `s` with the contexts that wait on `p` taken out of the blocked list `B` and of the sleepers and put
before the ready list `R`. -/
structure Released (p : PromId) (R B : List CtxId) (s s' : ThreadPrivate) : Prop where
  blocked : Chain (fun c => (s'.ctx c).nextBlocked) s'.blocked (B.filter fun c => !tryUnblock s p c)
  ready : ∃ W, W.Perm (B.filter (tryUnblock s p)) ∧ Chain (fun c => (s'.ctx c).next) s'.readyHead (W ++ R) ∧
    s'.readyTail = (W ++ R).getLast?
  sleep : s'.sleepPqueue.Perm (s.sleepPqueue.filter fun c => !tryUnblock s p c)
  heap : IsHeap s'.sleepPriorityLess s'.sleepPqueue
  others : ∀ c, tryUnblock s p c = false → (s'.ctx c).prom = (s.ctx c).prom ∧ (s'.ctx c).next = (s.ctx c).next ∧
    (c ∉ B → (s'.ctx c).nextBlocked = (s.ctx c).nextBlocked)

section Filter
variable {α : Type} {P : α → Bool} {l : List α}

/-- Taking out one entry that passes the test leaves those that fail it only if no other one passes. -/
theorem one_of_eraseIdx_perm {i : Nat} {v : List α} (hi : i < l.length) (hv : v.Perm (l.eraseIdx i))
    (hf : v.Perm (l.filter fun a => !P a)) : (l.filter P).length = 1 := by
  have h₁ := hv.length_eq
  have h₂ := hf.length_eq
  have h₃ := List.length_eq_length_filter_add (l := l) P
  rw [List.length_eraseIdx_of_lt hi] at h₁
  omega

/-- With one entry that passes the test, taking it out leaves those that fail it. -/
theorem filter_not_of_one {l₁ l₂ : List α} {a : α} (ha : P a = true)
    (h : ((l₁ ++ a :: l₂).filter P).length ≤ 1) : (l₁ ++ a :: l₂).filter (fun a => !P a) = l₁ ++ l₂ := by
  simp only [List.filter_append, List.filter_cons, ha, if_true, List.length_append, List.length_cons] at h
  have h₁ : l₁.filter P = [] := List.length_eq_zero_iff.1 (by omega)
  have h₂ : l₂.filter P = [] := List.length_eq_zero_iff.1 (by omega)
  rw [List.filter_eq_nil_iff] at h₁ h₂
  have e₁ : l₁.filter (fun a => !P a) = l₁ := List.filter_eq_self.2 (fun x hx => by simpa using h₁ x hx)
  have e₂ : l₂.filter (fun a => !P a) = l₂ := List.filter_eq_self.2 (fun x hx => by simpa using h₂ x hx)
  simp [ha, e₁, e₂]

end Filter

section
variable {s u : ThreadPrivate} {R B : List CtxId} {c : CtxId} {p : PromId}

/-- The loop over the sleepers writes no link. -/
theorem notifySleep_links (p : PromId) (s : ThreadPrivate) :
    (notifySleep p s).blocked = s.blocked ∧ (notifySleep p s).readyHead = s.readyHead ∧
      (notifySleep p s).readyTail = s.readyTail ∧
      ∀ x, ((notifySleep p s).ctx x).next = (s.ctx x).next ∧
        ((notifySleep p s).ctx x).nextBlocked = (s.ctx x).nextBlocked ∧
        (tryUnblock s p x = false → ((notifySleep p s).ctx x).prom = (s.ctx x).prom) := by
  by_cases h : ∃ x ∈ s.sleepPqueue, (s.ctx x).prom = some p
  · obtain ⟨x, hx, hp⟩ := h
    obtain ⟨i, c, v, -, hc, -, heq, -⟩ := notifySleep_first hx hp
    rw [heq]
    refine ⟨rfl, rfl, rfl, fun y => ?_⟩
    simp only [modCtx_ctx]
    split
    · next e =>
      subst e
      simp [tryUnblock, hc]
    · exact ⟨rfl, rfl, fun _ => rfl⟩
  · rw [notifySleep_skip (fun x hx e => h ⟨x, hx, e⟩)]
    exact ⟨rfl, rfl, rfl, fun _ => ⟨rfl, rfl, fun _ => rfl⟩⟩

/-- The loop over the sleepers removes all entries that wait on `p` exactly when there is at most one. -/
theorem notifySleep_filter (hheap : IsHeap s.sleepPriorityLess s.sleepPqueue) :
    ((notifySleep p s).sleepPqueue.Perm (s.sleepPqueue.filter fun c => !tryUnblock s p c) ↔
      (s.sleepPqueue.filter (tryUnblock s p)).length ≤ 1) ∧
      IsHeap (notifySleep p s).sleepPriorityLess (notifySleep p s).sleepPqueue := by
  by_cases h : ∃ x ∈ s.sleepPqueue, (s.ctx x).prom = some p
  · obtain ⟨x, hx, hp⟩ := h
    obtain ⟨i, c, v, hi, hc, hv, heq, hh⟩ := notifySleep_first hx hp
    obtain ⟨hlt, hci⟩ := List.getElem?_eq_some_iff.1 hi
    rw [heq]
    refine ⟨⟨fun hf => Nat.le_of_eq (one_of_eraseIdx_perm hlt hv hf), fun hone => ?_⟩, hh⟩
    have hl : s.sleepPqueue = s.sleepPqueue.take i ++ c :: s.sleepPqueue.drop (i + 1) := by
      rw [← hci, List.getElem_cons_drop, List.take_append_drop]
    rw [List.eraseIdx_eq_take_drop_succ] at hv
    have hf := filter_not_of_one (P := tryUnblock s p) (by simpa [tryUnblock] using hc) (hl ▸ hone)
    rw [← hl] at hf
    rw [hf]
    exact hv
  · have hnone : ∀ x ∈ s.sleepPqueue, (s.ctx x).prom ≠ some p := fun x hx e => h ⟨x, hx, e⟩
    rw [notifySleep_skip hnone]
    have h₁ : s.sleepPqueue.filter (tryUnblock s p) = [] :=
      List.filter_eq_nil_iff.2 (fun x hx => by simpa [tryUnblock] using hnone x hx)
    have h₂ : s.sleepPqueue.filter (fun c => !tryUnblock s p c) = s.sleepPqueue :=
      List.filter_eq_self.2 (fun x hx => by simpa [tryUnblock] using hnone x hx)
    simp [h₁, h₂, hheap]

/-- The walk over the blocked list leaves the sleepers alone. -/
theorem notifyBlocked_sleep {fuel : Nat} {s u : ThreadPrivate} {prev cur : Option CtxId}
    (h : notifyBlocked p fuel s prev cur = some u) : u.sleepPqueue = s.sleepPqueue :=
  notifyBlocked_keeps (fun v prev c hv => (unblock_core v prev c).2.1.trans hv) rfl h

/-- `notify` puts nobody to sleep. -/
theorem notify_sleep_subperm {s' : ThreadPrivate} (h : s.notify p = some s') :
    List.Subperm s'.sleepPqueue s.sleepPqueue := by
  simp only [ThreadPrivate.notify, Option.map_eq_some_iff] at h
  obtain ⟨u, hu, rfl⟩ := h
  rw [← notifyBlocked_sleep hu]
  by_cases hw : ∃ x ∈ u.sleepPqueue, (u.ctx x).prom = some p
  · obtain ⟨y, hy, hp⟩ := hw
    obtain ⟨i, c, v, -, -, hv, heq, -⟩ := notifySleep_first hy hp
    rw [heq]
    exact hv.subperm.trans (List.eraseIdx_sublist _ _).subperm
  · rw [notifySleep_skip (fun y hy e => hw ⟨y, hy, e⟩)]

/-- What `notify` computes: it unlinks the first context of the blocked list that waits on `p`, if there is one,
and then goes over the sleepers. -/
theorem notify_eq (hb : Chain (fun c => (s.ctx c).nextBlocked) s.blocked B) (hn : ∀ c ∈ B, c < s.nctx) :
    (B.filter (tryUnblock s p) = [] ∧ s.notify p = some (notifySleep p s)) ∨
      ∃ B₁ c B₂, B = B₁ ++ c :: B₂ ∧ tryUnblock s p c = true ∧
        s.notify p = some (notifySleep p (s.unblock B₁.getLast? c)) := by
  have hlen : B.length ≤ s.nctx := by
    have hsub : B ⊆ List.range s.nctx := fun x hx => List.mem_range.2 (hn x hx)
    simpa using (List.subperm_of_subset hb.nodup hsub).length_le
  rcases first_waiter B (fun c => tryUnblock s p c = true) with h | ⟨B₁, c, B₂, rfl, h₁, hc⟩
  · refine .inl ⟨List.filter_eq_nil_iff.2 h, ?_⟩
    have := notifyBlocked_skip (p := p) B (s.nctx + 1) none s.blocked hb (fun x hx => by simpa [tryUnblock] using h x hx)
      (Nat.lt_succ_of_le hlen)
    simp [ThreadPrivate.notify, this]
  · refine .inr ⟨B₁, c, B₂, rfl, hc, ?_⟩
    have := notifyBlocked_found B₁ (s.nctx + 1) none s.blocked hb (fun x hx => by simpa [tryUnblock] using h₁ x hx)
      (by simpa [tryUnblock] using hc) (by simp at hlen; omega)
    simp [ThreadPrivate.notify, this]

/-- `notify(p)` releases exactly the waiters of `p` if and only if at most one context of the blocked list and at
most one entry of `sleep_pqueue` waits on `p`, and no waiter in the blocked list is ready already. -/
theorem notify_releases (hr : Chain (fun c => (s.ctx c).next) s.readyHead R) (ht : s.readyTail = R.getLast?)
    (hb : Chain (fun c => (s.ctx c).nextBlocked) s.blocked B) (hn : ∀ c ∈ B, c < s.nctx)
    (hheap : IsHeap s.sleepPriorityLess s.sleepPqueue) (p : PromId) :
    (∃ s', s.notify p = some s' ∧ Released p R B s s') ↔
      (B.filter (tryUnblock s p)).length ≤ 1 ∧ (s.sleepPqueue.filter (tryUnblock s p)).length ≤ 1 ∧
        ∀ c ∈ B, tryUnblock s p c = true → c ∉ R := by
  rcases notify_eq (p := p) hb hn with ⟨hnil, heq⟩ | ⟨B₁, c, B₂, rfl, hc, heq⟩
  · obtain ⟨hfilter, hheap'⟩ := notifySleep_filter (p := p) hheap
    obtain ⟨hbl, hhead, htail, hlinks⟩ := notifySleep_links p s
    have hB : B.filter (fun c => !tryUnblock s p c) = B := by
      rw [List.filter_eq_nil_iff] at hnil
      exact List.filter_eq_self.2 (fun x hx => by simpa using hnil x hx)
    constructor
    · rintro ⟨s', hs', hrel⟩
      obtain rfl := Option.some.inj (heq.symm.trans hs')
      refine ⟨by simp [hnil], hfilter.1 hrel.sleep, fun c hcB hc => ?_⟩
      exact absurd hc (List.filter_eq_nil_iff.1 hnil c hcB)
    · rintro ⟨-, hsleep, -⟩
      refine ⟨_, heq, ?_, ⟨[], by simp [hnil], ?_, htail.trans ht⟩, hfilter.2 hsleep, hheap', fun x hx => ?_⟩
      · rw [hB, hbl]
        exact hb.congr (fun a _ => (hlinks a).2.1)
      · rw [hhead]
        exact hr.congr (fun a _ => (hlinks a).1)
      · exact ⟨(hlinks x).2.2 hx, (hlinks x).1, fun _ => (hlinks x).2.1⟩
  · -- the walk has ended at its first hit `c`
    obtain ⟨core, hsleep, hprom, -⟩ := unblock_core s B₁.getLast? c
    have hblocked := unblock_blocked hb
    have hlinks : ∀ x, x ≠ c → ((s.unblock B₁.getLast? c).ctx x).next = (s.ctx x).next ∧
        (B₁.getLast? ≠ some x → ((s.unblock B₁.getLast? c).ctx x).nextBlocked = (s.ctx x).nextBlocked) :=
      fun x hx => unblock_links hx
    have hready := unblock_ready B₁.getLast? (c := c) hr ht
    generalize s.unblock B₁.getLast? c = u at *
    have htry : tryUnblock u p = tryUnblock s p := by funext x; simp only [tryUnblock, hprom]
    have hheapu : IsHeap u.sleepPriorityLess u.sleepPqueue := by
      rw [hsleep]
      exact hheap.congr (fun a _ b _ => by simp only [sleepPriorityLess, core.resumeTime])
    obtain ⟨hfilter, hheap'⟩ := notifySleep_filter (p := p) hheapu
    obtain ⟨hbl, hhead, htail, hsame⟩ := notifySleep_links p u
    rw [hsleep, htry] at hfilter
    have hblocked' : Chain (fun x => ((notifySleep p u).ctx x).nextBlocked) (notifySleep p u).blocked (B₁ ++ B₂) := by
      rw [hbl]
      exact hblocked.congr (fun a _ => (hsame a).2.1)
    constructor
    · rintro ⟨s', hs', hrel⟩
      obtain rfl := Option.some.inj (heq.symm.trans hs')
      have hB := hblocked'.unique hrel.blocked
      have hone : ((B₁ ++ c :: B₂).filter (tryUnblock s p)).length = 1 := by
        refine one_of_eraseIdx_perm (i := B₁.length) (by simp) (.refl _) ?_
        rw [← hB, List.eraseIdx_append_of_length_le (Nat.le_refl _)]
        simp
      obtain ⟨W, hW, hchain, -⟩ := hrel.ready
      refine ⟨Nat.le_of_eq hone, hfilter.1 hrel.sleep, fun x hx hxp hxR => ?_⟩
      have hxW : x ∈ W := hW.mem_iff.2 (List.mem_filter.2 ⟨hx, hxp⟩)
      exact (List.nodup_append.1 hchain.nodup).2.2 x hxW x hxR rfl
    · rintro ⟨hone, hsl, hdis⟩
      have hnot := filter_not_of_one hc hone
      have hW : (B₁ ++ c :: B₂).filter (tryUnblock s p) = [c] := by
        have hmem : c ∈ (B₁ ++ c :: B₂).filter (tryUnblock s p) := List.mem_filter.2 ⟨by simp, hc⟩
        obtain ⟨a, ha⟩ := List.length_eq_one_iff.1 (Nat.le_antisymm hone (List.length_pos_of_mem hmem))
        rw [ha] at hmem ⊢
        rw [List.mem_singleton.1 hmem]
      obtain ⟨hr', ht'⟩ := hready (hdis c (by simp) hc)
      refine ⟨_, heq, ?_, ⟨[c], by rw [hW], ?_, htail.trans ht'⟩, hfilter.2 hsl, hheap', fun x hx => ?_⟩
      · rwa [hnot]
      · rw [hhead]
        exact hr'.congr (fun a _ => (hsame a).1)
      · have hxc : x ≠ c := by rintro rfl; rw [hc] at hx; cases hx
        refine ⟨((hsame x).2.2 (by rw [htry]; exact hx)).trans (hprom x), (hsame x).1.trans (hlinks x hxc).1, fun hxB => ?_⟩
        refine (hsame x).2.1.trans ((hlinks x hxc).2 (fun e => hxB ?_))
        exact List.mem_append_left _ (List.mem_of_getLast? e)

end

/-- The lists of a thread in which no context waits. -/
theorem lists_idle (n : Nat) : Lists { nctx := n } [] [] :=
  ⟨rfl, rfl, rfl, by simp, by simp, by simp, by simp, by intro i a b _ h; simp at h, by simp⟩

/-- A thread in which context `0` waits on promise `0` until 10 and then context `1` on promise `1`. -/
def oneWaiter : ThreadPrivate := (({ nctx := 3 } : ThreadPrivate).waitOn 0 0 10).waitOn 1 1 timePointMax

theorem notify_releases_one_waiter : ∃ s', oneWaiter.notify 0 = some s' ∧ Released 0 [] [1, 0] oneWaiter s' := by
  have h₁ := (lists_idle 3).waitOn (c := 0) (by simp) (by simp) (by simp) (by simp) 0 10
  have h : Lists oneWaiter [] [1, 0] :=
    h₁.waitOn (by simp) (by simp) (by decide) (by decide) 1 timePointMax
  exact (notify_releases h.ready h.tail h.blocked (by decide) h.heap 0).2 ⟨by decide, by decide, by decide⟩

/-- A thread in which both contexts wait on promise `0`. -/
def twoWaiters : ThreadPrivate := (({ nctx := 3 } : ThreadPrivate).waitOn 0 0 timePointMax).waitOn 1 0 timePointMax

/-- With two waiters, `notify` leaves the one that blocked first in the blocked list. -/
theorem notify_leaves_second_waiter :
    Lists twoWaiters [] [1, 0] ∧ ¬ ∃ s', twoWaiters.notify 0 = some s' ∧ Released 0 [] [1, 0] twoWaiters s' := by
  have h₁ := (lists_idle 3).waitOn (c := 0) (by simp) (by simp) (by simp) (by simp) 0 timePointMax
  refine ⟨h₁.waitOn (by simp) (by simp) (by decide) (by decide) 0 timePointMax, ?_⟩
  rintro ⟨s', hs', hrel⟩
  have hleft : (twoWaiters.notify 0).map (·.blocked) = some (some 0) := by decide
  have hnone : [1, 0].filter (fun c => !tryUnblock twoWaiters 0 c) = [] := by decide
  have hblocked := hrel.blocked
  rw [hnone, chain_nil] at hblocked
  rw [hs', Option.map_some, hblocked] at hleft
  cases hleft

end BoostCmt
