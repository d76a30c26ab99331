import BoostCmt.Lib.Runs
import BoostCmt.Lists
import BoostCmt.Moves
/-!
# Stacks and foreign threads

What a move leaves alone. A move of thread `i` rewrites the stack of the context
that thread `i` runs and no other one; a switch only changes which context that
is. Of another thread it can only change `task_in_queue`, by posting, and the
`canceled` flags of contexts.
-/

namespace BoostCmt

open ThreadPrivate Runs

variable {V : Type}

/-! ## What other threads leave alone -/

/-- What a step of one thread can do to another one. -/
structure Foreign (s s' : ThreadPrivate) : Prop where
  inQueue : ∃ l, s'.taskInQueue = l ++ s.taskInQueue
  pqueue : s'.taskPqueue = s.taskPqueue
  schQueue : s'.taskSchQueue = s.taskSchQueue
  sleep : s'.sleepPqueue = s.sleepPqueue
  done : s'.done = s.done
  current : s'.current = s.current
  readyHead : s'.readyHead = s.readyHead
  readyTail : s'.readyTail = s.readyTail
  blocked : s'.blocked = s.blocked
  nctx : s'.nctx = s.nctx
  ctx : ∀ c, ∃ b, s'.ctx c = { s.ctx c with canceled := b }

theorem Foreign.refl (s : ThreadPrivate) : Foreign s s :=
  ⟨⟨[], rfl⟩, rfl, rfl, rfl, rfl, rfl, rfl, rfl, rfl, rfl, fun c => ⟨(s.ctx c).canceled, rfl⟩⟩

theorem Foreign.trans {s s₁ s₂ : ThreadPrivate} (h₁ : Foreign s s₁) (h₂ : Foreign s₁ s₂) : Foreign s s₂ where
  inQueue := by
    obtain ⟨l₁, h₁⟩ := h₁.inQueue
    obtain ⟨l₂, h₂⟩ := h₂.inQueue
    exact ⟨l₂ ++ l₁, by rw [h₂, h₁, List.append_assoc]⟩
  pqueue := h₂.pqueue.trans h₁.pqueue
  schQueue := h₂.schQueue.trans h₁.schQueue
  sleep := h₂.sleep.trans h₁.sleep
  done := h₂.done.trans h₁.done
  current := h₂.current.trans h₁.current
  readyHead := h₂.readyHead.trans h₁.readyHead
  readyTail := h₂.readyTail.trans h₁.readyTail
  blocked := h₂.blocked.trans h₁.blocked
  nctx := h₂.nctx.trans h₁.nctx
  ctx c := by
    obtain ⟨b₁, h₁⟩ := h₁.ctx c
    obtain ⟨b₂, h₂⟩ := h₂.ctx c
    exact ⟨b₂, by rw [h₂, h₁]⟩

theorem foreign_post (s : ThreadPrivate) (t : Task) : Foreign s { s with taskInQueue := t :: s.taskInQueue } :=
  ⟨⟨[t], rfl⟩, rfl, rfl, rfl, rfl, rfl, rfl, rfl, rfl, rfl, fun c => ⟨(s.ctx c).canceled, rfl⟩⟩

theorem foreign_cancel (s : ThreadPrivate) (c : CtxId) :
    Foreign s (s.modCtx c (fun k => { k with canceled := true })) := by
  refine ⟨⟨[], rfl⟩, rfl, rfl, rfl, rfl, rfl, rfl, rfl, rfl, rfl, fun x => ?_⟩
  by_cases hx : x = c
  · exact ⟨true, by simp [hx]⟩
  · exact ⟨(s.ctx x).canceled, by simp [hx]⟩

namespace World

variable {w w' : World V} {i : ThreadId}

/-! ## Other threads -/

theorem foreign_setThr (w : World V) (s : ThreadPrivate) {j : ThreadId} (hj : j ≠ i) :
    Foreign (w.thr j) ((w.setThr i s).thr j) := by
  rw [setThr_thr, if_neg hj]
  exact .refl _

theorem foreign_async (w : World V) (t : Task) (i j : ThreadId) : Foreign (w.thr j) ((w.async i t).thr j) := by
  simp only [async, setThr_thr]
  split
  · next hj => rw [hj]; exact foreign_post _ t
  · exact .refl _

theorem notify_foreign {t : ThreadId} {p : PromId} (h : w.notify i t p = some w') {j : ThreadId} (hj : j ≠ i) :
    Foreign (w.thr j) (w'.thr j) := by
  simp only [notify] at h
  split at h
  · simp only [Option.map_eq_some_iff] at h
    obtain ⟨s, -, rfl⟩ := h
    exact foreign_setThr w s hj
  · obtain rfl := Option.some.inj h
    exact foreign_async (w.newTask timePointMin 0 (.notify p) 1).2 _ t j

theorem setException_foreign {p : PromId} {e : Error} (h : w.setException i p e = some w') {j : ThreadId}
    (hj : j ≠ i) : Foreign (w.thr j) (w'.thr j) := by
  simp only [setException, notifyBase] at h
  split at h
  · obtain rfl := Option.some.inj h
    exact .refl _
  · exact notify_foreign (w := w.modProm p _) h hj

theorem cancelTask_foreign (w : World V) (n : Nat) (j : ThreadId) :
    Foreign (w.thr j) ((w.cancelTask n).thr j) := by
  simp only [cancelTask]
  split
  · next j' c _ =>
    rw [setThr_thr]
    split
    · next hj => rw [hj]; exact foreign_cancel _ c
    · exact .refl _
  · exact .refl _

theorem quitBlocked_foreign {fuel : Nat} {c : Option CtxId} (h : quitBlocked i fuel w c = some w') {j : ThreadId}
    (hj : j ≠ i) : Foreign (w.thr j) (w'.thr j) := by
  induction fuel generalizing w c with
  | zero => cases h
  | succ fuel ih =>
    cases c with
    | none => obtain rfl := Option.some.inj h; exact .refl _
    | some c =>
      simp only [quitBlocked] at h
      split at h
      · cases h
      · simp only [Option.bind_eq_bind, Option.bind_eq_some_iff] at h
        obtain ⟨w₁, h₁, h⟩ := h
        exact (setException_foreign h₁ hj).trans (ih h)

theorem quit_foreign (h : w.quit i = some w') {j : ThreadId} (hj : j ≠ i) : Foreign (w.thr j) (w'.thr j) := by
  simp only [quit, Option.bind_eq_bind, Option.bind_eq_some_iff] at h
  obtain ⟨w₁, h₁, s, -, he⟩ := h
  obtain rfl := Option.some.inj he
  exact (quitBlocked_foreign h₁ hj).trans (foreign_setThr w₁ _ hj)

theorem switch_thr_other (w : World V) (r : Bool) (k : List (Frame V)) {j : ThreadId} (hj : j ≠ i) :
    (w.switch i r k).thr j = w.thr j := by
  simp only [switch]
  split <;> simp [setCpu, setMyContext, hj]

theorem runTask_foreign {t : Task} {tm : Int} {k : List (Frame V)} {es : List (Event V)}
    (h : w.runTask i t tm k = some (w', es)) {j : ThreadId} (hj : j ≠ i) : Foreign (w.thr j) (w'.thr j) := by
  simp only [runTask] at h
  split at h
  · split at h <;> (obtain ⟨rfl, -⟩ := Prod.mk.inj (Option.some.inj h); exact .refl _)
  · simp only [Option.map_eq_some_iff] at h
    obtain ⟨s, -, he⟩ := h
    obtain ⟨rfl, -⟩ := Prod.mk.inj he
    exact foreign_setThr (w.modCell t.postedNum _) s hj
  · obtain ⟨rfl, -⟩ := Prod.mk.inj (Option.some.inj h)
    exact .refl _

theorem release_thr (w : World V) (t : Task) : (w.release t).thr = w.thr := by
  cases hb : t.body <;> simp only [release, hb] <;> [split; skip; skip] <;> rfl

/-- A move changes other threads only by posting and cancelling. -/
theorem Move.foreign {w₀ : World V} {ph ph' : Phase} {es : List (Event V)} (h : Move w₀ i ph w ph' w' es)
    {j : ThreadId} (hj : j ≠ i) : Foreign (w.thr j) (w'.thr j) := by
  cases h with
  | async j' when prio =>
    exact foreign_async ((w.newTask when prio (.rtask w.promCount) 1).2.newPromise _ false).2 _ j' j
  | asyncVoid j' when prio => exact foreign_async (w.newTask when prio .vtask 1).2 _ j' j
  | sync ov j' prio d =>
    exact foreign_async
      ((w.newTask timePointMin prio (.rtask w.promCount) (1 + ov.retains)).2.newPromise _ true).2 _ j' j
  | cancel => exact cancelTask_foreign w _ j
  | quit h => exact quit_foreign h hj
  | expireWait _ _ _ _ h => exact (foreign_setThr w _ hj).trans (setException_foreign h hj)
  | switch => rw [switch_thr_other w _ _ hj]; exact .refl _
  | reschedule => rw [switch_thr_other w _ _ hj]; exact .refl _
  | runTask _ h => exact runTask_foreign h hj
  | release => rw [show ((w.release _).setCpu i _).thr = (w.release _).thr from rfl, release_thr]; exact .refl _
  | post _ _ h => exact notify_foreign h hj
  | sleepOn => exact foreign_setThr w _ hj
  | waitOn => exact foreign_setThr w _ hj
  | expireSleep => exact foreign_setThr w _ hj
  | dequeue => exact foreign_setThr w _ hj
  | drain => exact foreign_setThr w _ hj
  | resumeWait => exact foreign_setThr w _ hj
  | resumeSleep => exact foreign_setThr w _ hj
  | _ => exact .refl _

end World

/-! ## Every context a thread can reach is one it has made -/

/-- The context numbers a thread holds are below `nctx`. -/
structure ValidThr (s : ThreadPrivate) : Prop where
  noCurrent : s.current = none → s.nctx = 0
  current : ∀ c, s.current = some c → c < s.nctx
  head : ∀ c, s.readyHead = some c → c < s.nctx
  tail : ∀ c, s.readyTail = some c → c < s.nctx
  blocked : ∀ c, s.blocked = some c → c < s.nctx
  next : ∀ x c, (s.ctx x).next = some c → c < s.nctx
  nextBlocked : ∀ x c, (s.ctx x).nextBlocked = some c → c < s.nctx
  sleep : ∀ c ∈ s.sleepPqueue, c < s.nctx

section ValidThr
variable {s s' : ThreadPrivate} {c : CtxId}

/-- Writing fields other than the links of one context. -/
theorem ValidThr.modCtx {f : CmtContext → CmtContext} (h : ValidThr s)
    (hn : ∀ k x, (f k).next = some x → k.next = some x ∨ x < s.nctx)
    (hb : ∀ k x, (f k).nextBlocked = some x → k.nextBlocked = some x ∨ x < s.nctx) : ValidThr (s.modCtx c f) := by
  refine ⟨h.noCurrent, h.current, h.head, h.tail, h.blocked, ?_, ?_, h.sleep⟩
  · intro x y hy
    rw [modCtx_ctx] at hy
    split at hy
    · exact (hn _ _ hy).elim (h.next x y) id
    · exact h.next x y hy
  · intro x y hy
    rw [modCtx_ctx] at hy
    split at hy
    · exact (hb _ _ hy).elim (h.nextBlocked x y) id
    · exact h.nextBlocked x y hy

theorem ValidThr.setNext (h : ValidThr s) {n : Option CtxId} (hn : ∀ x, n = some x → x < s.nctx) :
    ValidThr (s.modCtx c (fun k => { k with next := n })) :=
  h.modCtx (fun _ x hx => .inr (hn x hx)) (fun _ _ hx => .inl hx)

theorem ValidThr.setNextBlocked (h : ValidThr s) {n : Option CtxId} (hn : ∀ x, n = some x → x < s.nctx) :
    ValidThr (s.modCtx c (fun k => { k with nextBlocked := n })) :=
  h.modCtx (fun _ _ hx => .inl hx) (fun _ x hx => .inr (hn x hx))

theorem ValidThr.readyPushBack (h : ValidThr s) (hc : c < s.nctx) : ValidThr (s.readyPushBack c) := by
  have hsome : ∀ x, some c = some x → x < s.nctx := fun x hx => Option.some.inj hx ▸ hc
  have h₁ : ValidThr (s.modCtx c (fun k => { k with next := none })) := h.setNext (fun _ hx => nomatch hx)
  unfold ThreadPrivate.readyPushBack
  split
  · next t ht =>
    have h₂ := h₁.setNext (c := t) hsome
    exact ⟨h₂.1, h₂.2, h₂.3, hsome, h₂.5, h₂.6, h₂.7, h₂.8⟩
  · exact ⟨h₁.1, h₁.2, hsome, hsome, h₁.5, h₁.6, h₁.7, h₁.8⟩

theorem ValidThr.readyPushFront (h : ValidThr s) (hc : c < s.nctx) : ValidThr (s.readyPushFront c) := by
  have hsome : ∀ x, some c = some x → x < s.nctx := fun x hx => Option.some.inj hx ▸ hc
  have h₁ := h.setNext (c := c) h.head
  refine ⟨h₁.1, h₁.2, hsome, ?_, h₁.5, h₁.6, h₁.7, h₁.8⟩
  intro x hx
  simp only [ThreadPrivate.readyPushFront] at hx
  split at hx
  · exact hsome x hx
  · exact h.tail x hx

theorem ValidThr.readyPopFront {o : Option CtxId} (h : ValidThr s) (hp : s.readyPopFront = (o, s')) :
    ValidThr s' ∧ (∀ c, o = some c → c < s.nctx) ∧ s'.nctx = s.nctx ∧ s'.current = s.current := by
  unfold ThreadPrivate.readyPopFront at hp
  split at hp
  · obtain ⟨rfl, rfl⟩ := Prod.mk.inj hp
    exact ⟨h, by simp, rfl, rfl⟩
  · next tmp ht =>
    obtain ⟨rfl, rfl⟩ := Prod.mk.inj hp
    have h₁ := h.setNext (c := tmp) (n := none) (fun _ hx => nomatch hx)
    refine ⟨⟨h₁.1, h₁.2, h.next tmp, ?_, h₁.5, h₁.6, h₁.7, h₁.8⟩, ?_, rfl, rfl⟩
    · intro x hx
      split at hx
      · cases hx
      · exact h.tail x hx
    · intro x hx
      exact h.head x (ht.trans hx)

theorem ValidThr.sleepPop (h : ValidThr s) : ValidThr s.sleepPop := by
  refine ⟨h.1, h.2, h.3, h.4, h.5, h.6, h.7, fun x hx => h.8 x ?_⟩
  cases hs : s.sleepPqueue with
  | nil => simp [ThreadPrivate.sleepPop, hs, StdHeap.popHeap] at hx
  | cons c v =>
    have := (sleepPop_perm hs).subset hx
    exact List.mem_cons_of_mem _ this

theorem ValidThr.sleepPush (h : ValidThr s) (hc : c < s.nctx) : ValidThr (s.sleepPush c) := by
  refine ⟨h.1, h.2, h.3, h.4, h.5, h.6, h.7, fun x hx => ?_⟩
  rcases List.mem_cons.1 ((sleepPush_perm s c).subset hx) with rfl | hx
  · exact hc
  · exact h.8 x hx

theorem ValidThr.sleepOn (h : ValidThr s) (hc : c < s.nctx) (tp : Int) : ValidThr (s.sleepOn c tp) :=
  (h.modCtx (f := fun k => { k with resumeTime := tp, prom := none }) (fun _ _ hx => .inl hx)
    (fun _ _ hx => .inl hx)).sleepPush hc

theorem ValidThr.waitOn (h : ValidThr s) (hc : c < s.nctx) (p : PromId) (d : Int) : ValidThr (s.waitOn c p d) := by
  have hblock : ∀ {u : ThreadPrivate}, ValidThr u → c < u.nctx → ValidThr (u.addToBlocked c) := by
    intro u hu hcu
    have h₁ := hu.setNextBlocked (c := c) hu.blocked
    exact ⟨h₁.1, h₁.2, h₁.3, h₁.4, fun x hx => Option.some.inj hx ▸ hcu, h₁.6, h₁.7, h₁.8⟩
  have h₁ : ValidThr (s.modCtx c (fun k => { k with prom := some p })) :=
    h.modCtx (fun _ _ hx => .inl hx) (fun _ _ hx => .inl hx)
  unfold ThreadPrivate.waitOn
  split
  · refine hblock (ValidThr.sleepPush (h₁.modCtx ?_ ?_) hc) hc
    · exact fun _ _ hx => .inl hx
    · exact fun _ _ hx => .inl hx
  · exact hblock h₁ hc

theorem ValidThr.unblock (h : ValidThr s) (hc : c < s.nctx) (prev : Option CtxId) :
    ValidThr (s.unblock prev c) := by
  unfold ThreadPrivate.unblock
  cases prev with
  | none =>
    have h₁ : ValidThr { s with blocked := (s.ctx c).nextBlocked } :=
      ⟨h.1, h.2, h.3, h.4, h.nextBlocked c, h.6, h.7, h.8⟩
    exact ValidThr.readyPushFront (h₁.setNextBlocked (fun _ hx => nomatch hx)) hc
  | some q =>
    have h₁ := h.setNextBlocked (c := q) (h.nextBlocked c)
    exact ValidThr.readyPushFront (h₁.setNextBlocked (fun _ hx => nomatch hx)) hc

theorem ValidThr.notifyBlocked {p : PromId} {fuel : Nat} {prev cur : Option CtxId} (h : ValidThr s)
    (hcur : ∀ c, cur = some c → c < s.nctx) (hn : notifyBlocked p fuel s prev cur = some s') : ValidThr s' := by
  induction fuel generalizing s prev cur with
  | zero => cases hn
  | succ fuel ih =>
    cases cur with
    | none => obtain rfl := Option.some.inj hn; exact h
    | some c =>
      simp only [ThreadPrivate.notifyBlocked] at hn
      split at hn
      · refine ih (h.unblock (hcur c rfl) prev) (fun x hx => ?_) hn
        rw [(unblock_core s prev c).2.2.2] at hx
        cases hx
      · exact ih h (h.nextBlocked c) hn

theorem ValidThr.notify {p : PromId} (h : ValidThr s) (hn : s.notify p = some s') : ValidThr s' := by
  simp only [ThreadPrivate.notify, Option.map_eq_some_iff] at hn
  obtain ⟨u, hu, rfl⟩ := hn
  have hv := h.notifyBlocked h.blocked hu
  simp only [notifySleep]
  split
  · next i back hi hb =>
    split
    · next c hc =>
      have h₁ : ValidThr (u.modCtx c (fun k => { k with prom := none })) :=
        hv.modCtx (fun _ _ hx => .inl hx) (fun _ _ hx => .inl hx)
      refine ⟨h₁.1, h₁.2, h₁.3, h₁.4, h₁.5, h₁.6, h₁.7, fun x hx => hv.8 x ?_⟩
      have hx := List.dropLast_subset _ ((StdHeap.makeHeap_perm _ _).subset hx)
      rcases List.mem_or_eq_of_mem_set hx with hx | rfl
      · exact hx
      · exact List.mem_of_getLast? hb
    · exact hv
  · exact hv

theorem ValidThr.newContext (h : ValidThr s) :
    ValidThr { s.newContext.2 with current := some s.newContext.1 } := by
  have hlt : ∀ {x}, x < s.nctx → x < s.nctx + 1 := fun hx => Nat.lt_succ_of_lt hx
  refine ⟨by simp, ?_, ?_, ?_, ?_, ?_, ?_, ?_⟩
  · intro x hx
    obtain rfl := Option.some.inj hx
    exact Nat.lt_succ_self _
  · exact fun x hx => hlt (h.head x hx)
  · exact fun x hx => hlt (h.tail x hx)
  · exact fun x hx => hlt (h.blocked x hx)
  · intro x y hy
    simp only [ThreadPrivate.newContext, modCtx_ctx] at hy
    split at hy
    · cases hy
    · exact hlt (h.next x y hy)
  · intro x y hy
    simp only [ThreadPrivate.newContext, modCtx_ctx] at hy
    split at hy
    · cases hy
    · exact hlt (h.nextBlocked x y hy)
  · exact fun x hx => hlt (h.sleep x hx)

/-- `ensureCurrent` of a valid thread: the first context is number 0. -/
theorem ValidThr.ensureCurrent (h : ValidThr s) :
    ValidThr s.ensureCurrent.2 ∧ s.ensureCurrent.2.current = some s.ensureCurrent.1 ∧
      s.ensureCurrent.1 = s.current.getD 0 ∧ s.nctx ≤ s.ensureCurrent.2.nctx := by
  unfold ThreadPrivate.ensureCurrent
  split
  · next c hc => exact ⟨h, hc, by simp [hc], Nat.le_refl _⟩
  · next hc =>
    refine ⟨h.newContext, rfl, ?_, Nat.le_succ _⟩
    simp [ThreadPrivate.newContext, hc, h.noCurrent hc]

theorem ValidThr.foreign (h : ValidThr s) (hf : Foreign s s') : ValidThr s' := by
  have hctx : ∀ x, (s'.ctx x).next = (s.ctx x).next ∧ (s'.ctx x).nextBlocked = (s.ctx x).nextBlocked := by
    intro x
    obtain ⟨b, hb⟩ := hf.ctx x
    rw [hb]
    exact ⟨rfl, rfl⟩
  constructor <;> rw [hf.nctx]
  · rw [hf.current]; exact h.noCurrent
  · rw [hf.current]; exact h.current
  · rw [hf.readyHead]; exact h.head
  · rw [hf.readyTail]; exact h.tail
  · rw [hf.blocked]; exact h.blocked
  · exact fun x y hy => h.next x y ((hctx x).1 ▸ hy)
  · exact fun x y hy => h.nextBlocked x y ((hctx x).2 ▸ hy)
  · rw [hf.sleep]; exact h.sleep

end ValidThr

/-! ## The queues -/

theorem ValidThr.sched {s s' : ThreadPrivate} (h : ValidThr s) (hs : SameSched s s') : ValidThr s' := by
  constructor <;> rw [hs.nctx]
  · rw [hs.current]; exact h.noCurrent
  · rw [hs.current]; exact h.current
  · rw [hs.readyHead]; exact h.head
  · rw [hs.readyTail]; exact h.tail
  · rw [hs.blocked]; exact h.blocked
  · rw [hs.ctx]; exact h.next
  · rw [hs.ctx]; exact h.nextBlocked
  · rw [hs.sleep]; exact h.sleep

namespace World

variable {w w' : World V} {i : ThreadId}

/-- All threads are valid. -/
def Valid (w : World V) : Prop := ∀ j, ValidThr (w.thr j)

theorem Valid.setThr (h : Valid w) {s : ThreadPrivate} (hs : ValidThr s) : Valid (w.setThr i s) := by
  intro j
  rw [setThr_thr]
  split
  · exact hs
  · exact h j

theorem Valid.notify {t : ThreadId} {p : PromId} (h : Valid w) (hn : w.notify i t p = some w') : Valid w' := by
  simp only [World.notify] at hn
  split at hn
  · simp only [Option.map_eq_some_iff] at hn
    obtain ⟨s, hs, rfl⟩ := hn
    exact h.setThr ((h i).notify hs)
  · obtain rfl := Option.some.inj hn
    intro j
    exact (h j).foreign (foreign_async (w.newTask timePointMin 0 (.notify p) 1).2 _ t j)

theorem Valid.setException {p : PromId} {e : Error} (h : Valid w) (hn : w.setException i p e = some w') :
    Valid w' := by
  simp only [World.setException, notifyBase] at hn
  split at hn
  · obtain rfl := Option.some.inj hn
    exact h
  · exact Valid.notify (w := w.modProm p _) h hn

theorem Valid.quit (h : Valid w) (hq : w.quit i = some w') : Valid w' := by
  have hb : ∀ fuel (w : World V) c w', Valid w → quitBlocked i fuel w c = some w' → Valid w' := by
    intro fuel
    induction fuel with
    | zero => intro w c w' _ h; cases h
    | succ fuel ih =>
      intro w c w' hv h
      cases c with
      | none => obtain rfl := Option.some.inj h; exact hv
      | some c =>
        simp only [quitBlocked] at h
        split at h
        · cases h
        · simp only [Option.bind_eq_bind, Option.bind_eq_some_iff] at h
          obtain ⟨w₁, h₁, h⟩ := h
          exact ih w₁ _ w' (hv.setException h₁) h
  have hcan : ∀ {s : ThreadPrivate} (c : CtxId), ValidThr s →
      ValidThr (s.modCtx c (fun k => { k with canceled := true })) :=
    fun c hv => hv.modCtx (fun _ _ hx => .inl hx) (fun _ _ hx => .inl hx)
  have hr : ∀ fuel s c s', ValidThr s → quitReady fuel s c = some s' → ValidThr s' := by
    intro fuel
    induction fuel with
    | zero => intro s c s' _ h; cases h
    | succ fuel ih =>
      intro s c s' hv h
      cases c with
      | none => obtain rfl := Option.some.inj h; exact hv
      | some c => exact ih _ _ _ (hcan c hv) h
  have hf : ∀ (l : List CtxId) (s : ThreadPrivate), ValidThr s → (∀ c ∈ l, c < s.nctx) →
      ValidThr (l.foldl (fun s c => (s.modCtx c (fun k => { k with canceled := true })).readyPushFront c) s) := by
    intro l
    induction l with
    | nil => exact fun s hv _ => hv
    | cons c l ih =>
      intro s hv hl
      exact ih _ (ValidThr.readyPushFront (hcan c hv) (hl c (by simp))) (fun x hx => hl x (by simp [hx]))
  simp only [World.quit, Option.bind_eq_bind, Option.bind_eq_some_iff] at hq
  obtain ⟨w₁, h₁, s, hs, he⟩ := hq
  obtain rfl := Option.some.inj he
  have hv₁ := hb _ _ _ _ h h₁
  have hs₁ := hr _ _ _ _ (hv₁ i) hs
  have hs₂ := hf s.sleepPqueue s hs₁ hs₁.sleep
  exact hv₁.setThr ⟨hs₂.1, hs₂.2, hs₂.3, hs₂.4, hs₂.5, hs₂.6, hs₂.7, by simp⟩

/-! ## Switching -/

/-- The switch to the context `next` from the ready list. -/
theorem switch_ready {r : Bool} {k : List (Frame V)} {next : CtxId} {s : ThreadPrivate}
    (hp : (w.thr i).ensureCurrent.2.readyPopFront = (some next, s)) :
    w.switch i r k = ((w.setMyContext i (w.thr i).ensureCurrent.1 k).setThr i
      { (if r then s.readyPushBack (w.thr i).ensureCurrent.1 else s) with current := some next }).setCpu i
        ((w.setMyContext i (w.thr i).ensureCurrent.1 k).myContext i next) := by
  simp only [switch, hp]
  rfl

/-- The switch to a new context. -/
theorem switch_fresh {r : Bool} {k : List (Frame V)} {s : ThreadPrivate}
    (hp : (w.thr i).ensureCurrent.2.readyPopFront = (none, s)) :
    w.switch i r k = (((w.setMyContext i (w.thr i).ensureCurrent.1 k).setMyContext i
      (if r then s.readyPushBack (w.thr i).ensureCurrent.1 else s).nctx [.processTasks .start 0]).setThr i
        { (if r then s.readyPushBack (w.thr i).ensureCurrent.1 else s).newContext.2 with
          current := some (if r then s.readyPushBack (w.thr i).ensureCurrent.1 else s).nctx }).setCpu i
            [.processTasks .start 0] := by
  simp only [switch, hp]
  rfl

theorem readyPushBack_nctx (s : ThreadPrivate) (c : CtxId) (r : Bool) :
    (if r then s.readyPushBack c else s).nctx = s.nctx := by
  split
  · exact (readyPushBack_core s c).1.nctx
  · rfl

theorem Valid.switch {r : Bool} {k : List (Frame V)} (h : Valid w) : Valid (w.switch i r k) := by
  obtain ⟨hv, hcur, -, -⟩ := (h i).ensureCurrent
  have hlt := hv.current _ hcur
  rcases hp : (w.thr i).ensureCurrent.2.readyPopFront with ⟨o, s⟩
  obtain ⟨hs, ho, hn, -⟩ := hv.readyPopFront hp
  have hpush : ValidThr (if r then s.readyPushBack (w.thr i).ensureCurrent.1 else s) := by
    split
    · exact hs.readyPushBack (hn ▸ hlt)
    · exact hs
  cases o with
  | none =>
    rw [switch_fresh hp]
    exact Valid.setThr (w := (w.setMyContext i _ _).setMyContext i _ _) h hpush.newContext
  | some next =>
    rw [switch_ready hp]
    refine Valid.setThr (w := w.setMyContext i _ _) h
      ⟨by simp, ?_, hpush.3, hpush.4, hpush.5, hpush.6, hpush.7, hpush.8⟩
    intro c hc
    obtain rfl := Option.some.inj hc
    show next < (if r then s.readyPushBack (w.thr i).ensureCurrent.1 else s).nctx
    rw [readyPushBack_nctx, hn]
    exact ho next rfl

theorem Valid.runTask {t : Task} {tm : Int} {k : List (Frame V)} {es : List (Event V)} (h : Valid w)
    (hr : w.runTask i t tm k = some (w', es)) : Valid w' := by
  simp only [World.runTask] at hr
  split at hr
  · split at hr <;> (obtain ⟨rfl, -⟩ := Prod.mk.inj (Option.some.inj hr); exact h)
  · simp only [Option.map_eq_some_iff] at hr
    obtain ⟨s, hs, he⟩ := hr
    obtain ⟨rfl, -⟩ := Prod.mk.inj he
    exact Valid.setThr (w := w.modCell t.postedNum _) h ((h i).notify hs)
  · obtain ⟨rfl, -⟩ := Prod.mk.inj (Option.some.inj hr)
    exact h

theorem Move.valid {w₀ : World V} {ph ph' : Phase} {es : List (Event V)} (hm : Move w₀ i ph w ph' w' es)
    (h : Valid w) : Valid w' := by
  obtain ⟨hv, hcur, -, -⟩ := (h i).ensureCurrent
  have hlt := hv.current _ hcur
  have hmod : ∀ f : CmtContext → CmtContext, (∀ k, (f k).next = k.next ∧ (f k).nextBlocked = k.nextBlocked) →
      Valid (w.setThr i ((w.thr i).ensureCurrent.2.modCtx (w.thr i).ensureCurrent.1 f)) := fun f hf =>
    h.setThr (hv.modCtx (fun k x hx => .inl ((hf k).1 ▸ hx)) (fun k x hx => .inl ((hf k).2 ▸ hx)))
  cases hm with
  | async j when prio =>
    exact fun l => (h l).foreign
      (foreign_async ((w.newTask when prio (.rtask w.promCount) 1).2.newPromise _ false).2 _ j l)
  | asyncVoid j when prio => exact fun l => (h l).foreign (foreign_async (w.newTask when prio .vtask 1).2 _ j l)
  | sync ov j prio d =>
    exact fun l => (h l).foreign (foreign_async
      ((w.newTask timePointMin prio (.rtask w.promCount) (1 + ov.retains)).2.newPromise _ true).2 _ j l)
  | cancel => exact fun l => (h l).foreign (cancelTask_foreign w _ l)
  | quit hq => exact h.quit hq
  | sleepOn tp => exact Valid.setThr h (hv.sleepOn hlt tp)
  | waitOn => exact Valid.setThr h (hv.waitOn hlt _ _)
  | @expireSleep _ _ c v _ hq =>
    refine h.setThr (ValidThr.readyPushBack (h i).sleepPop ((h i).sleep c ?_))
    rw [hq]; simp
  | expireWait _ _ _ _ hx => exact (h.setThr (h i).sleepPop).setException hx
  | switch => exact h.switch
  | reschedule => exact h.switch
  | dequeue _ _ _ _ hd => exact h.setThr ((h i).sched (dequeue_sched hd))
  | drain _ _ _ _ hd => exact Valid.setThr h ((h i).sched (dequeue_sched hd))
  | runTask _ hr => exact h.runTask hr
  | release =>
    intro j; rw [show ((w.release _).setCpu i _).thr = (w.release _).thr from rfl, release_thr]; exact h j
  | resumeWait => exact hmod _ (fun _ => ⟨rfl, rfl⟩)
  | resumeSleep => exact hmod _ (fun _ => ⟨rfl, rfl⟩)
  | post _ _ hn => exact fun j => h.notify hn j
  | _ => exact h

/-! ## The stacks after a move -/

theorem stack_cur (w : World V) (i : ThreadId) : w.stack i (w.cur i) = w.cpu i := by simp [stack]

/-- All stacks but the running one of thread `i` stay, and so does which context runs. -/
structure StackStep (i : ThreadId) (w w' : World V) : Prop where
  cur : ∀ j, w'.cur j = w.cur j
  cpu : ∀ j, j ≠ i → w'.cpu j = w.cpu j
  myContext : w'.myContext = w.myContext

theorem StackStep.stack (h : StackStep i w w') (j : ThreadId) (c : CtxId) :
    w'.stack j c = if j = i ∧ c = w.cur i then w'.cpu i else w.stack j c := by
  simp only [World.stack, h.cur, h.myContext]
  by_cases hj : j = i
  · subst hj
    by_cases hc : c = w.cur j
    · simp [hc]
    · simp [hc]
  · simp [hj, h.cpu j hj]

theorem stackStep_setCpu {u : World V} (hcur : ∀ j, u.cur j = w.cur j) (hcpu : u.cpu = w.cpu)
    (hmy : u.myContext = w.myContext) (k : List (Frame V)) : StackStep i w (u.setCpu i k) :=
  ⟨hcur, fun j hj => by rw [setCpu_cpu, if_neg hj, hcpu], hmy⟩

theorem stack_setThr {s : ThreadPrivate} (hs : s.current.getD 0 = w.cur i) (j : ThreadId) (c : CtxId) :
    (w.setThr i s).stack j c = w.stack j c := by
  rw [stack, stack, cur_setThr hs]
  rfl

theorem stackStep_thr {s : ThreadPrivate} (hs : s.current.getD 0 = w.cur i) (k : List (Frame V)) :
    StackStep i w ((w.setThr i s).setCpu i k) :=
  stackStep_setCpu (cur_setThr hs) rfl rfl k

theorem notify_nctx {t : ThreadId} {p : PromId} (h : w.notify i t p = some w') :
    (w'.thr i).nctx = (w.thr i).nctx := by
  simp only [notify] at h
  split at h
  · simp only [Option.map_eq_some_iff] at h
    obtain ⟨s, hs, rfl⟩ := h
    rw [setThr_thr, if_pos rfl]
    exact (notify_core hs).nctx
  · obtain rfl := Option.some.inj h
    exact (foreign_async (w.newTask timePointMin 0 (.notify p) 1).2 _ t i).nctx

theorem setException_nctx {p : PromId} {e : Error} (h : w.setException i p e = some w') :
    (w'.thr i).nctx = (w.thr i).nctx := by
  simp only [setException, notifyBase] at h
  split at h
  · obtain rfl := Option.some.inj h
    rfl
  · exact notify_nctx (w := w.modProm p _) h

theorem quit_stacks (h : w.quit i = some w') :
    (∀ j, w'.cur j = w.cur j) ∧ w'.cpu = w.cpu ∧ w'.myContext = w.myContext ∧
      (w'.thr i).nctx = (w.thr i).nctx := by
  have hb : ∀ fuel (w : World V) c w', quitBlocked i fuel w c = some w' →
      (∀ j, w'.cur j = w.cur j) ∧ w'.cpu = w.cpu ∧ w'.myContext = w.myContext ∧
        (w'.thr i).nctx = (w.thr i).nctx := by
    intro fuel
    induction fuel with
    | zero => intro w c w' h; cases h
    | succ fuel ih =>
      intro w c w' h
      cases c with
      | none => obtain rfl := Option.some.inj h; exact ⟨fun _ => rfl, rfl, rfl, rfl⟩
      | some c =>
        simp only [quitBlocked] at h
        split at h
        · cases h
        · simp only [Option.bind_eq_bind, Option.bind_eq_some_iff] at h
          obtain ⟨w₁, h₁, h⟩ := h
          obtain ⟨hc, hk, hm, hn⟩ := ih w₁ _ w' h
          have hf := setException_frame h₁
          exact ⟨fun j => (hc j).trans (setException_cur h₁ j), hk.trans hf.cpu, hm.trans hf.myContext,
            hn.trans (setException_nctx h₁)⟩
  have hr : ∀ fuel s c s', quitReady fuel s c = some s' → s'.current = s.current ∧ s'.nctx = s.nctx := by
    intro fuel
    induction fuel with
    | zero => intro s c s' h; cases h
    | succ fuel ih =>
      intro s c s' h
      cases c with
      | none => obtain rfl := Option.some.inj h; exact ⟨rfl, rfl⟩
      | some c =>
        simp only [quitReady] at h
        obtain ⟨hc, hn⟩ := ih _ _ _ h
        exact ⟨hc, hn⟩
  have hf : ∀ (l : List CtxId) (s : ThreadPrivate),
      (l.foldl (fun s c => (s.modCtx c (fun k => { k with canceled := true })).readyPushFront c) s).current =
        s.current ∧
      (l.foldl (fun s c => (s.modCtx c (fun k => { k with canceled := true })).readyPushFront c) s).nctx = s.nctx := by
    intro l
    induction l with
    | nil => exact fun _ => ⟨rfl, rfl⟩
    | cons c l ih => exact fun s => ih _
  simp only [quit, Option.bind_eq_bind, Option.bind_eq_some_iff] at h
  obtain ⟨w₁, h₁, s, hs, he⟩ := h
  obtain rfl := Option.some.inj he
  obtain ⟨hc, hk, hm, hn⟩ := hb _ _ _ _ h₁
  refine ⟨fun j => (cur_setThr ?_ j).trans (hc j), hk, hm, ?_⟩
  · show (List.foldl _ s s.sleepPqueue).current.getD 0 = _
    rw [(hf _ _).1, (hr _ _ _ _ hs).1]
    rfl
  · rw [setThr_thr, if_pos rfl]
    show (List.foldl _ s s.sleepPqueue).nctx = _
    rw [(hf _ _).2, (hr _ _ _ _ hs).2, hn]

theorem runTask_stackStep {t : Task} {tm : Int} {k : List (Frame V)} {es : List (Event V)}
    (h : w.runTask i t tm k = some (w', es)) : StackStep i w w' := by
  simp only [runTask] at h
  split at h
  · split at h <;>
      (obtain ⟨rfl, -⟩ := Prod.mk.inj (Option.some.inj h); refine stackStep_setCpu (fun _ => ?_) ?_ ?_ _ <;> rfl)
  · simp only [Option.map_eq_some_iff] at h
    obtain ⟨s, hs, he⟩ := h
    obtain ⟨rfl, -⟩ := Prod.mk.inj he
    refine stackStep_setCpu (fun j => ?_) ?_ ?_ _
    · exact cur_setThr (w := w.modCell t.postedNum _) (by rw [(notify_core hs).current]; rfl) j
    · rfl
    · rfl
  · obtain ⟨rfl, -⟩ := Prod.mk.inj (Option.some.inj h)
    refine stackStep_setCpu (fun _ => ?_) ?_ ?_ _ <;> rfl

theorem release_stacks (w : World V) (t : Task) :
    (w.release t).cpu = w.cpu ∧ (w.release t).myContext = w.myContext := by
  cases hb : t.body <;> simp only [release, hb] <;> [split; skip; skip] <;> exact ⟨rfl, rfl⟩

/-- A move rewrites the running stack, or it is the first switch of its step, by a context that is on a list or
gives up its turn. -/
theorem Move.stackStep_or_switch {w₀ : World V} {ph ph' : Phase} {es : List (Event V)}
    (hm : Move w₀ i ph w ph' w' es)
    (hv : Valid w) : StackStep i w w' ∨ ∃ r, w' = w.switch i r (w.cpu i) ∧ ph' = .out ∧
      (ph = .suspended ∨ w.cur i = w₀.cur i ∧
        ∃ f k, w.cpu i = f :: k ∧ (f = .yield ∨ ∃ tm, f = .processTasks .switched tm)) := by
  have he : (w.thr i).ensureCurrent.2.current.getD 0 = w.cur i := by
    obtain ⟨-, hc, hc', -⟩ := (hv i).ensureCurrent
    rw [hc, Option.getD_some, hc']
    rfl
  cases hm with
  | switch => exact .inr ⟨_, rfl, rfl, .inl rfl⟩
  | reschedule hcpu hf hcur => exact .inr ⟨_, rfl, rfl, .inr ⟨hcur, _, _, hcpu, hf⟩⟩
  | async j when prio => exact .inl ⟨fun _ => cur_async _ _ _ _, fun _ _ => rfl, rfl⟩
  | asyncVoid j when prio => exact .inl ⟨fun _ => cur_async _ _ _ _, fun _ _ => rfl, rfl⟩
  | sync ov j prio d =>
    refine .inl (stackStep_setCpu (fun _ => ?_) ?_ ?_ _)
    · exact cur_async _ _ _ _
    · rfl
    · rfl
  | @cancel _ n =>
    refine .inl ⟨fun j => ?_, fun _ _ => ?_, ?_⟩ <;> simp only [cancelTask] <;> split <;> try rfl
    exact cur_setThr (w := w.modCell n _) (s := ((w.modCell n _).thr _).modCtx _ _) rfl j
  | quit hq =>
    obtain ⟨hc, hk, hmy, -⟩ := quit_stacks hq
    exact .inl ⟨hc, fun j _ => congrFun hk j, hmy⟩
  | sleepOn tp =>
    refine .inl (stackStep_thr ?_ _)
    exact he
  | waitOn =>
    refine .inl (stackStep_thr ?_ _)
    rw [(waitOn_core _ _ _ _).1]
    exact he
  | expireSleep =>
    refine .inl ⟨fun j => cur_setThr ?_ j, fun _ _ => rfl, rfl⟩
    rw [(readyPushBack_core _ _).1.current]
    rfl
  | expireWait _ _ _ _ hx =>
    have hf := setException_frame hx
    have hc : ∀ j, (w.setThr i (w.thr i).sleepPop).cur j = w.cur j := cur_setThr (s := (w.thr i).sleepPop) rfl
    exact .inl ⟨fun j => (setException_cur hx j).trans (hc j), fun j _ => congrFun hf.cpu j, hf.myContext⟩
  | dequeue _ _ _ _ hd =>
    exact .inl ⟨fun j => cur_setThr (by rw [(dequeue_sched hd).current]; rfl) j, fun _ _ => rfl, rfl⟩
  | drain _ _ _ _ hd =>
    exact .inl (stackStep_thr (by rw [(dequeue_sched hd).current]; rfl) _)
  | runTask _ hr => exact .inl (runTask_stackStep hr)
  | @release _ t =>
    refine .inl (stackStep_setCpu (fun j => ?_) (release_stacks w t).1 (release_stacks w t).2 _)
    simp only [cur, release_thr]
  | resumeWait =>
    refine .inl (stackStep_thr ?_ _)
    exact he
  | resumeSleep =>
    refine .inl (stackStep_thr ?_ _)
    exact he
  | post _ _ hn =>
    have hf := notify_frame hn
    exact .inl (stackStep_setCpu (notify_cur hn) hf.cpu hf.myContext _)
  | clock => exact .inl ⟨fun _ => rfl, fun _ _ => rfl, rfl⟩
  | go => exact .inl ⟨fun _ => rfl, fun _ _ => rfl, rfl⟩
  | newPromise => exact .inl ⟨fun _ => rfl, fun _ _ => rfl, rfl⟩
  | _ => refine .inl (stackStep_setCpu (fun _ => ?_) ?_ ?_ _) <;> rfl

theorem Move.stackStep {w₀ : World V} {ph ph' : Phase} {es : List (Event V)} (hm : Move w₀ i ph w ph' w' es)
    (hv : Valid w) : StackStep i w w' ∨ ∃ r, w' = w.switch i r (w.cpu i) :=
  (hm.stackStep_or_switch hv).imp_right (fun ⟨r, h, _⟩ => ⟨r, h⟩)

/-- A switch leaves every stack as it is; it may make a new one. -/
theorem stack_switch (hv : Valid w) (r : Bool) (j : ThreadId) (c : CtxId) :
    (w.switch i r (w.cpu i)).stack j c = w.stack j c ∨
      (j = i ∧ (w.thr i).nctx ≤ c ∧ c ≠ w.cur i ∧ (w.switch i r (w.cpu i)).cur i = c ∧
        (w.switch i r (w.cpu i)).stack j c = [.processTasks .start 0]) := by
  obtain ⟨hve, hcur, hcur', hle⟩ := (hv i).ensureCurrent
  have hlt := hve.current _ hcur
  have hw : w.cur i = (w.thr i).ensureCurrent.1 := hcur'.symm
  by_cases hj : j = i
  · subst hj
    rcases hp : (w.thr j).ensureCurrent.2.readyPopFront with ⟨o, s⟩
    obtain ⟨-, -, hn, -⟩ := hve.readyPopFront hp
    cases o with
    | none =>
      have hn' := (readyPushBack_nctx s (w.thr j).ensureCurrent.1 r).trans hn
      have hst : (w.switch j r (w.cpu j)).stack j c = if c = (w.thr j).ensureCurrent.2.nctx then
          [.processTasks .start 0] else if c = (w.thr j).ensureCurrent.1 then w.cpu j else w.myContext j c := by
        rw [switch_fresh hp, hn']
        by_cases hc : c = (w.thr j).ensureCurrent.2.nctx <;> simp [stack, cur, setCpu, setMyContext, setThr, hc]
      by_cases hc : c = (w.thr j).ensureCurrent.2.nctx
      · refine .inr ⟨rfl, hc ▸ hle, by rw [hw, hc]; exact Nat.ne_of_gt hlt, ?_, by rw [hst, if_pos hc]⟩
        rw [switch_fresh hp, hn']
        simp [cur, setCpu, hc]
      · refine .inl ?_
        rw [hst, if_neg hc, stack, hw]
    | some next =>
      refine .inl ?_
      rw [switch_ready hp, stack, stack, hw]
      by_cases h₁ : c = next <;> by_cases h₂ : c = (w.thr j).ensureCurrent.1 <;>
        simp_all [cur, setCpu, setMyContext, setThr]
  · refine .inl ?_
    have hcpu : (w.switch i r (w.cpu i)).cpu j = w.cpu j := by
      simp only [switch]; split <;> rw [setCpu_cpu, if_neg hj] <;> rfl
    have hmy : (w.switch i r (w.cpu i)).myContext j c = w.myContext j c := by
      simp only [switch]; split <;> simp [setCpu, setThr, setMyContext, hj]
    have hcurj : (w.switch i r (w.cpu i)).cur j = w.cur j := by rw [cur, switch_thr_other w r _ hj, cur]
    rw [stack, stack, hcurj, hcpu, hmy]

/-- The stack of a suspended context stays. -/
theorem Move.stack_suspended {w₀ : World V} {ph ph' : Phase} {es : List (Event V)} (hm : Move w₀ i ph w ph' w' es)
    (hv : Valid w) {j : ThreadId} {c : CtxId} (hc : j = i → c ≠ w.cur i ∧ c < (w.thr i).nctx) :
    w'.stack j c = w.stack j c := by
  rcases hm.stackStep hv with hs | ⟨r, rfl⟩
  · rw [hs.stack, if_neg]
    exact fun h => (hc h.1).1 h.2
  · rcases stack_switch (i := i) hv r j c with h | ⟨hj, hle, -⟩
    · exact h
    · exact absurd (hc hj).2 (Nat.not_lt.2 hle)

theorem switch_nctx_ge (hv : Valid w) (r : Bool) (k : List (Frame V)) :
    (w.thr i).ensureCurrent.2.nctx ≤ ((w.switch i r k).thr i).nctx := by
  obtain ⟨hve, -, -, -⟩ := (hv i).ensureCurrent
  rcases hp : (w.thr i).ensureCurrent.2.readyPopFront with ⟨o, s⟩
  obtain ⟨-, -, hn, -⟩ := hve.readyPopFront hp
  have hn' := (readyPushBack_nctx s (w.thr i).ensureCurrent.1 r).trans hn
  cases o with
  | none =>
    rw [switch_fresh hp]
    simp only [setCpu, setThr_thr, if_true]
    show _ ≤ (if r then s.readyPushBack (w.thr i).ensureCurrent.1 else s).nctx + 1
    rw [hn']
    exact Nat.le_succ _
  | some n =>
    rw [switch_ready hp]
    simp only [setCpu, setThr_thr, if_true]
    show _ ≤ (if r then s.readyPushBack (w.thr i).ensureCurrent.1 else s).nctx
    exact Nat.le_of_eq hn'.symm

theorem nctx_switch (hv : Valid w) (r : Bool) (k : List (Frame V)) :
    (w.thr i).nctx ≤ ((w.switch i r k).thr i).nctx :=
  Nat.le_trans (hv i).ensureCurrent.2.2.2 (switch_nctx_ge hv r k)

/-- `quit` is not called. -/
def NoQuit (e : List (Event V)) : Prop := ∀ j, Event.quitted j ∉ e

theorem runTask_nctx {t : Task} {tm : Int} {k : List (Frame V)} {es : List (Event V)}
    (h : w.runTask i t tm k = some (w', es)) : (w'.thr i).nctx = (w.thr i).nctx := by
  simp only [runTask] at h
  split at h
  · split at h <;> (obtain ⟨rfl, -⟩ := Prod.mk.inj (Option.some.inj h); rfl)
  · simp only [Option.map_eq_some_iff] at h
    obtain ⟨s, hs, he⟩ := h
    obtain ⟨rfl, -⟩ := Prod.mk.inj he
    simp only [setCpu, setThr_thr, if_true]
    exact (notify_core hs).nctx
  · obtain ⟨rfl, -⟩ := Prod.mk.inj (Option.some.inj h)
    rfl

/-- Contexts are never deleted. -/
theorem Move.nctx_le {w₀ : World V} {ph ph' : Phase} {es : List (Event V)} (hm : Move w₀ i ph w ph' w' es)
    (hv : Valid w) : (w.thr i).nctx ≤ (w'.thr i).nctx := by
  have hle := (hv i).ensureCurrent.2.2.2
  have hthr : ∀ {s : ThreadPrivate} {k : List (Frame V)}, ((w.setThr i s).setCpu i k).thr i = s := by simp [setCpu]
  cases hm with
  | async j when prio =>
    exact Nat.le_of_eq
      (foreign_async ((w.newTask when prio (.rtask w.promCount) 1).2.newPromise _ false).2 _ j i).nctx.symm
  | asyncVoid j when prio => exact Nat.le_of_eq (foreign_async (w.newTask when prio .vtask 1).2 _ j i).nctx.symm
  | sync ov j prio d =>
    exact Nat.le_of_eq (foreign_async
      ((w.newTask timePointMin prio (.rtask w.promCount) (1 + ov.retains)).2.newPromise _ true).2 _ j i).nctx.symm
  | cancel => exact Nat.le_of_eq (cancelTask_foreign w _ i).nctx.symm
  | quit hq => exact Nat.le_of_eq (quit_stacks hq).2.2.2.symm
  | sleepOn tp => rw [hthr]; exact hle
  | waitOn => rw [hthr, (waitOn_core _ _ _ _).2.1]; exact hle
  | expireSleep => simp [(readyPushBack_core _ _).1.nctx, sleepPop]
  | expireWait _ _ _ _ hx => exact Nat.le_of_eq (by simp [setException_nctx hx, sleepPop])
  | switch => exact nctx_switch hv _ _
  | reschedule => exact nctx_switch hv _ _
  | dequeue _ _ _ _ hd => simp [(dequeue_sched hd).nctx]
  | drain _ _ _ _ hd => exact Nat.le_of_eq (by rw [hthr, (dequeue_sched hd).nctx])
  | runTask _ hr => exact Nat.le_of_eq (runTask_nctx hr).symm
  | release => exact Nat.le_of_eq (by show _ = ((w.release _).thr i).nctx; rw [release_thr])
  | resumeWait => rw [hthr]; exact hle
  | resumeSleep => rw [hthr]; exact hle
  | post _ _ hn => exact Nat.le_of_eq (notify_nctx hn).symm
  | _ => exact Nat.le_refl _

/-- Threads only name contexts that exist, and only these have a stack. -/
structure Sane (w : World V) : Prop where
  valid : Valid w
  blank : ∀ i c, (w.thr i).nctx ≤ c → c ≠ w.cur i → w.stack i c = []

theorem Move.sane {w₀ : World V} {ph ph' : Phase} {es : List (Event V)} (hm : Move w₀ i ph w ph' w' es)
    (h : Sane w) : Sane w' := by
  have hnctx := hm.nctx_le h.valid
  refine ⟨hm.valid h.valid, fun j c hle hc => ?_⟩
  by_cases hj : j = i
  · subst hj
    rcases hm.stackStep h.valid with hs | ⟨r, rfl⟩
    · rw [hs.cur] at hc
      rw [hs.stack, if_neg (fun e => hc e.2)]
      exact h.blank j c (Nat.le_trans hnctx hle) hc
    · rcases stack_switch (i := j) h.valid r j c with hst | ⟨-, -, -, hcc, -⟩
      · rw [hst]
        refine h.blank j c (Nat.le_trans hnctx hle) ?_
        rintro rfl
        obtain ⟨hve, hcur, hcur', -⟩ := (h.valid j).ensureCurrent
        have hlt : w.cur j < (w.thr j).ensureCurrent.2.nctx := by
          have := hve.current _ hcur
          rwa [hcur'] at this
        exact Nat.not_lt_of_ge (Nat.le_trans (switch_nctx_ge h.valid r _) hle) hlt
      · exact absurd hcc.symm hc
  · have hf := hm.foreign hj
    rw [hf.nctx] at hle
    have hcur : w'.cur j = w.cur j := by rw [cur, hf.current, cur]
    rw [hcur] at hc
    rw [hm.stack_suspended h.valid (fun e => absurd e hj)]
    exact h.blank j c hle hc

/-- A switch leaves every stack that there is as it is. -/
theorem Sane.stack_switch (h : Sane w) (r : Bool) {j : ThreadId} {c : CtxId} (hne : w.stack j c ≠ []) :
    (w.switch i r (w.cpu i)).stack j c = w.stack j c := by
  rcases World.stack_switch (i := i) h.valid r j c with e | ⟨rfl, hle, hc, -, -⟩
  · exact e
  · exact absurd (h.blank j c hle hc) hne

theorem sane_init : Sane (init : World V) := by
  have hv : ValidThr {} := ⟨fun _ => rfl, by simp, by simp, by simp, by simp, by simp, by simp, by simp⟩
  refine ⟨fun _ => hv, fun i c _ hc => ?_⟩
  rw [stack, if_neg hc]
  rfl

theorem Sane.step {a : Action V} {es : List (Event V)} (h : Sane w) (hs : w.step a = some (w', es)) : Sane w' :=
  (step_moves hs).inv (fun _ w => Sane w) (fun _ _ _ _ _ hm _ => hm.sane) h

/-! ## Bounds on what has a stack

For checks of concrete states: a world in which only threads below `N` have acted has finitely many stacks that
are not the initial ones.
-/

/-- Only threads below `N` have acted. -/
structure Small (N : Nat) (w : World V) : Prop extends Sane w where
  idle : ∀ i c, N ≤ i → w.stack i c = [] ∨ w.stack i c = [.user]

/-- Where the stacks are that differ from the initial ones. -/
theorem Small.bound {N : Nat} (h : Small N w) {c : CtxId} (h₀ : w.stack i c ≠ []) (h₁ : w.stack i c ≠ [.user]) :
    i < N ∧ c < (w.thr i).nctx + 1 := by
  refine ⟨Nat.lt_of_not_le (fun hi => (h.idle i c hi).elim h₀ h₁), Nat.lt_of_not_le (fun hc => ?_)⟩
  by_cases hne : c = w.cur i
  · subst hne
    cases hcur : (w.thr i).current with
    | none =>
      rw [cur, hcur, Option.getD_none] at hc
      exact Nat.not_succ_le_zero _ hc
    | some x =>
      rw [cur, hcur, Option.getD_some] at hc
      exact Nat.not_lt_of_ge (Nat.le_of_succ_le hc) ((h.valid i).current x hcur)
  · exact h₀ (h.blank i c (Nat.le_of_succ_le hc) hne)

theorem Move.small {w₀ : World V} {ph ph' : Phase} {es : List (Event V)} {N : Nat} (hm : Move w₀ i ph w ph' w' es)
    (hi : i < N) (h : Small N w) : Small N w' := by
  refine ⟨hm.sane h.toSane, fun j c hj => ?_⟩
  rw [hm.stack_suspended h.valid (fun e => absurd hi (Nat.not_lt.2 (e ▸ hj)))]
  exact h.idle j c hj

theorem Small.step {N : Nat} {a : Action V} {es : List (Event V)} (h : Small N w) (hs : w.step a = some (w', es))
    (ha : a.thread < N) : Small N w' :=
  (step_moves hs).inv (fun _ w => Small N w) (fun _ _ _ _ _ hm _ => hm.small ha) h

theorem small_init (N : Nat) : Small N (init : World V) := by
  refine ⟨sane_init, fun i c _ => ?_⟩
  by_cases hc : c = (init : World V).cur i
  · exact .inr (by rw [stack, if_pos hc]; rfl)
  · exact .inl (by rw [stack, if_neg hc]; rfl)

/-- Executing actions of threads below `N` that pass the check `okb` is a run. -/
theorem run_of_small_exec (N : Nat) (ok : List (Event V) → World V → Action V → List (Event V) → Prop)
    (okb : List (Event V) → World V → Action V → List (Event V) → Bool) (f : World V → List (Event V) → Bool)
    (as : List (Action V))
    (hok : ∀ es w a e, Small N w → NoQuit e → okb es w a e = true → ok es w a e)
    (h : ((exec step (fun es w a e => (decide (a.thread < N) && e.all (fun x => !(x matches .quitted _))) &&
      okb es w a e) [] init as).any fun r => f r.1 r.2) = true) :
    ∃ w es, Run step ok init w es ∧ Small N w ∧ f w es = true := by
  have hsplit : ∀ {a : Action V} {e : List (Event V)} {b : Bool},
      ((decide (a.thread < N) && e.all (fun x => !(x matches .quitted _))) && b) = true →
        a.thread < N ∧ NoQuit e ∧ b = true := by
    intro a e b hb
    simp only [Bool.and_eq_true, decide_eq_true_eq, List.all_eq_true] at hb
    exact ⟨hb.1.1, fun j hj => by simpa using hb.1.2 _ hj, hb.2⟩
  refine run_of_exec (Small N) (small_init N) (fun es w a w' e hs hb hstep => ?_) (fun es w a e hs hb => ?_) h
  · exact hs.step hstep (hsplit hb).1
  · exact hok es w a e hs (hsplit hb).2.1 (hsplit hb).2.2

/-- The same with one more step, which passes the check too. -/
theorem step_of_small_exec (N : Nat) (ok : List (Event V) → World V → Action V → List (Event V) → Prop)
    (okb : List (Event V) → World V → Action V → List (Event V) → Bool)
    (f : List (Event V) → World V → List (Event V) → Bool) (as : List (Action V)) (a : Action V)
    (hok : ∀ es w a e, Small N w → NoQuit e → okb es w a e = true → ok es w a e)
    (h : ((exec step (fun es w a e => (decide (a.thread < N) && e.all (fun x => !(x matches .quitted _))) &&
      okb es w a e) [] init as).any fun r => (r.1.step a).any fun r' =>
        (r'.2.all (fun x => !(x matches .quitted _)) && okb r.2 r.1 a r'.2) && f r.2 r'.1 r'.2) = true) :
    ∃ w es w' e, Run step ok init w es ∧ w.step a = some (w', e) ∧ ok es w a e ∧ f es w' e = true := by
  obtain ⟨w, es, hrun, hsmall, h⟩ := run_of_small_exec N ok okb (fun w es => (w.step a).any fun r' =>
    (r'.2.all (fun x => !(x matches .quitted _)) && okb es w a r'.2) && f es r'.1 r'.2) as hok h
  obtain ⟨⟨w', e⟩, hs, hf⟩ := (Option.any_eq_true _ _).1 h
  simp only [Bool.and_eq_true, List.all_eq_true] at hf
  exact ⟨w, es, w', e, hrun, hs, hok es w a e hsmall (fun j hj => by simpa using hf.1.1 _ hj) hf.1.2, hf.2⟩

/-- Executing actions of threads below `N` in steps `stepLog` that carry a log. -/
theorem log_of_small_exec {L : Type} (N : Nat)
    {stepLog : World V × L → Action V → Option ((World V × L) × List (Event V))}
    (hlog : ∀ s a s' e, stepLog s a = some (s', e) → s.1.step a = some (s'.1, e))
    (ok : List (Event V) → World V × L → Action V → List (Event V) → Prop)
    (okb : List (Event V) → World V × L → Action V → List (Event V) → Bool) (f : World V × L → List (Event V) → Bool)
    (s₀ : World V × L) (hs₀ : Small N s₀.1) (as : List (Action V))
    (hok : ∀ es s a e, Small N s.1 → okb es s a e = true → ok es s a e)
    (h : ((exec stepLog (fun es s a e => decide (a.thread < N) && okb es s a e) [] s₀ as).any
      fun r => f r.1 r.2) = true) : ∃ s es, Run stepLog ok s₀ s es ∧ Small N s.1 ∧ f s es = true := by
  refine run_of_exec (fun s : World V × L => Small N s.1) hs₀ (fun es s a s' e hs hb hstep => ?_)
    (fun es s a e hs hb => ?_) h
  · simp only [Bool.and_eq_true, decide_eq_true_eq] at hb
    exact hs.step (hlog _ _ _ _ hstep) hb.1
  · simp only [Bool.and_eq_true] at hb
    exact hok es s a e hs hb.2

end World

end BoostCmt
