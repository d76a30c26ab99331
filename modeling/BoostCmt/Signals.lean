import BoostCmt.Delivery
/-!
# Stores and signals of a promise

The promise of `thread::sync` is stored into once, by its task, and notified once.
`ahead` counts what is still going to store into it and `signals` what is still
going to wake who waits on it; each is in one place at most. `Finished` says that
nothing is left of either.
-/

namespace BoostCmt

open ThreadPrivate Places Runs

variable {V : Type}

/-- The functor of the task of `p`, or a call that has still to store into `p`. -/
def Frame.toStore (p : PromId) : Frame V → Bool
  | .task t => settles p t
  | .set .store q _ _ => q == p
  | _ => false

/-- A call that has stored into `p`. -/
def Frame.hasStored (p : PromId) : Frame V → Bool
  | .set .notify q _ _ => q == p
  | .set (.post _) q _ _ => q == p
  | _ => false

theorem Frame.hasStored_iff {f : Frame V} {p : PromId} :
    f.hasStored p = true ↔ ∃ pc o b, f = .set pc p o b ∧ pc ≠ .store := by
  constructor
  · intro h
    cases f with
    | set pc q o b =>
      cases pc with
      | store => cases h
      | _ => exact ⟨_, o, b, by rw [show q = p by simpa [Frame.hasStored] using h], by simp⟩
    | _ => cases h
  · rintro ⟨pc, o, b, rfl, hpc⟩
    cases pc with
    | store => exact absurd rfl hpc
    | _ => simp [Frame.hasStored]

/-- The task notifies `p`. -/
def notifies (p : PromId) (t : Task) : Bool := t.body == .notify p

namespace World

variable {w₀ w w' : World V} {i : ThreadId} {ph ph' : Phase} {es : List (Event V)} {a : Action V} {p : PromId}

/-- How often a place holds what is going to store into `p`. -/
def ahead (p : PromId) : Phase → World V → Place → Nat := heldBy (settles p) (Frame.toStore p)

/-- How often a place holds what is going to wake who waits on `p`. -/
def signals (p : PromId) : Phase → World V → Place → Nat := heldBy (notifies p) (Frame.hasStored p)

theorem heldBy_out (P : Task → Bool) (F : Frame V → Bool) (w : World V) (x : Place) :
    heldBy P F .start w x = heldBy P F .out w x := by
  cases x <;> rfl

/-! ## What is still to store -/

theorem unwind_toStore {k : List (Frame V)} (h : Nested (.yield :: k)) :
    (unwind i k).1.countP (Frame.toStore p) ≤ k.countP (Frame.toStore p) := by
  unfold unwind
  split
  · simp [Frame.toStore]
  · next pc q o t tm k' =>
    have hs := (List.isChain_cons.1 h).1 _ rfl
    have hpc : pc = .store := by
      rcases hs with hs | hs
      · cases hs
      · cases pc <;> first | rfl | cases hs
    simp [List.countP_cons, Frame.toStore, hpc]
  · exact (List.sublist_cons_self _ _).countP_le
  · exact Nat.le_refl _

theorem Local.toStore {k k' : List (Frame V)} (hl : Local w i k k' es) (hn : Nested k) (hp : w.shared p = false) :
    k'.countP (Frame.toStore p) ≤ k.countP (Frame.toStore p) := by
  cases hl with
  | raiseYield =>
    refine Nat.le_trans (unwind_toStore hn) ?_
    simp [List.countP_cons]
  | @callSet q o k hx hq =>
    have hne : q ≠ p := by
      rintro rfl
      rw [hp] at hq
      cases hq
    simp [Frame.toStore, hne]
  | finishSet hb => simp [List.countP_cons, Frame.toStore, settles, hb]
  | _ => simp [List.countP_cons, Frame.toStore]

theorem runTask_toStore {t : Task} {tm : Int} {k : List (Frame V)} (h : w.runTask i t tm k = some (w', es)) :
    (w'.cpu i).countP (Frame.toStore p) ≤ k.countP (Frame.toStore p) + if settles p t then 1 else 0 := by
  rcases runTask_cpu h with ⟨q, hb, -, hcpu⟩ | ⟨-, hcpu⟩ | ⟨q, -, -, hcpu⟩ <;> rw [hcpu]
  · by_cases hq : q = p <;> simp [Frame.toStore, settles, hb, hq]
  · by_cases hP : settles p t = true <;> simp [Frame.toStore, hP]
  · simp [Frame.toStore]

/-- A move puts a call that has still to store on the running stack only from the hand, unless it is a switch. -/
theorem Move.cpu_toStore (hm : Move w₀ i ph w ph' w' es) (hn : Nested (w.cpu i)) (hp : w.shared p = false) :
    (w'.cpu i).countP (Frame.toStore p) ≤ (w.cpu i).countP (Frame.toStore p) +
        (held (settles p) ph w .hand - held (settles p) ph' w' .hand) ∨
      ∃ r, w' = w.switch i r (w.cpu i) := by
  cases hm with
  | stackTop _ hl =>
    refine .inl (Nat.le_trans ?_ (Nat.le_add_right _ _))
    simp only [setCpu_cpu, if_true]
    exact hl.toStore hn hp
  | switch | reschedule => exact .inr ⟨_, rfl⟩
  | runTask hcpu hr =>
    refine .inl (Nat.le_trans (runTask_toStore hr) ?_)
    rw [hcpu]
    simp [Frame.toStore, held]
  | quit hx => exact .inl (by rw [(quit_stacks hx).2.1]; exact Nat.le_add_right _ _)
  | expireWait _ _ _ _ hx => exact .inl (by rw [(setException_frame hx).cpu]; exact Nat.le_add_right _ _)
  | cancel => exact .inl (by simp only [cancelTask]; split <;> exact Nat.le_add_right _ _)
  | drain hcpu | check hcpu | abandon hcpu | ran hcpu | release hcpu =>
    exact .inl (by simp [hcpu, Frame.toStore])
  | waitOn _ hcpu | enqueueThread _ hcpu | resumeWait _ hcpu | finishError _ hcpu | post _ hcpu =>
    exact .inl (by simp [hcpu, Frame.toStore])
  | storeValue _ hcpu | storeError _ hcpu =>
    refine .inl ?_
    simp only [hcpu, setCpu_cpu, if_true, List.countP_cons, Frame.toStore, Bool.false_eq_true, if_false]
    omega
  | resumeSleep hcpu => exact .inl (by simp [hcpu, Frame.toStore])
  | sleepOn | sync => exact .inl (by simp [Frame.toStore])
  | _ => exact .inl (Nat.le_add_right _ _)

theorem Move.stack_toStore (hm : Move w₀ i ph w ph' w' es) (hv : Valid w) (hn : Nested (w.cpu i))
    (hp : w.shared p = false) (j : ThreadId) (c : CtxId) :
    ahead p ph' w' (.stack j c) ≤ ahead p ph w (.stack j c) +
      if j = i ∧ c = w.cur i then held (settles p) ph w .hand - held (settles p) ph' w' .hand else 0 :=
  hm.stack_countP hv rfl (hm.cpu_toStore hn hp) j c

/-- There is at most one thing that is going to store into the promise of a `sync`. -/
theorem Move.ahead_sole (hm : Move w₀ i ph w ph' w' es) (hq : NoQuit es) (hv : Valid w) (hn : Nested (w.cpu i))
    (hp : w.shared p = false) (hnew : p = w.promCount → ∀ x, ahead p ph w x = 0) (h : AtMostOne (ahead p ph w)) :
    AtMostOne (ahead p ph' w') := by
  refine hm.soleBy hq (hm.stack_toStore hv hn hp) (fun j t hpost _ ht => ?_) h
  rcases hpost.2.2 with ⟨hb, -⟩ | hb | ⟨q, hb, -⟩
  · have : w.promCount = p := by simpa [settles, hb] using ht
    exact hnew this.symm
  · simp [settles, hb] at ht
  · simp [settles, hb] at ht

theorem Move.ahead_none (hm : Move w₀ i ph w ph' w' es) (hq : NoQuit es) (hv : Valid w) (hn : Nested (w.cpu i))
    (hp : w.shared p = false) (hlt : p < w.promCount) (h : ∀ x, ahead p ph w x = 0) (x : Place) : ahead p ph' w' x = 0 := by
  refine hm.none_heldBy hq (hm.stack_toStore hv hn hp) (fun j t hpost => ?_) h x
  rcases hpost.2.2 with ⟨hb, -⟩ | hb | ⟨q, hb, -⟩
  · simp only [settles, hb, beq_eq_false_iff_ne, ne_eq, TaskBody.rtask.injEq]
    exact Nat.ne_of_gt hlt
  · simp [settles, hb]
  · simp [settles, hb]

/-- What a store leaves of the threads and of the stacks. -/
theorem Move.stored_frame (hm : Move w₀ i ph w ph' w' es) {o : Outcome V} (ho : .stored p o ∈ es) :
    ph' = .out ∧ w'.thr = w.thr ∧ ∃ b k, w.cpu i = .set .store p o b :: k ∧
      ∀ j c, w'.stack j c = if j = i ∧ c = w.cur i then .set .notify p o b :: k else w.stack j c := by
  have hst : ∀ (f : Promise V → Promise V) {b : Bool} {k : List (Frame V)}, w.cpu i = .set .store p o b :: k →
      ((w.modProm p f).setCpu i (.set .notify p o b :: k)).thr = w.thr ∧
      ∃ b' k', w.cpu i = .set .store p o b' :: k' ∧
        ∀ j c, ((w.modProm p f).setCpu i (.set .notify p o b :: k)).stack j c =
          if j = i ∧ c = w.cur i then .set .notify p o b' :: k' else w.stack j c := by
    intro f b k hset
    refine ⟨rfl, b, k, hset, fun j c => ?_⟩
    rw [(stackStep_setCpu (w := w) (u := w.modProm p f) (fun _ => rfl) rfl rfl _).stack]
    split
    · next hjc =>
      obtain ⟨rfl, rfl⟩ := hjc
      simp
    · rfl
  cases hm with
  | @storeValue _ q v b k _ hcpu =>
    obtain ⟨rfl, rfl⟩ : p = q ∧ o = .value v := by simpa using ho
    exact ⟨rfl, hst _ hcpu⟩
  | @storeError _ q e b k _ hcpu =>
    obtain ⟨rfl, rfl⟩ : p = q ∧ o = .error e := by simpa using ho
    exact ⟨rfl, hst _ hcpu⟩
  | stackTop _ hl => exact absurd ho hl.not_stored
  | drain _ hpc =>
    obtain ⟨dl, hx⟩ := drain_event hpc ho
    cases hx
  | runTask _ hr =>
    obtain ⟨q, hx⟩ := runTask_event hr ho
    cases hx
  | _ => simp at ho

/-- The store uses up the one thing that can make it. -/
theorem Move.ahead_stored (hm : Move w₀ i ph w ph' w' es) {o : Outcome V} (ho : .stored p o ∈ es)
    (hsole : AtMostOne (ahead p ph w)) : (∃ x, ahead p ph w x ≠ 0) ∧ ∀ x, ahead p ph' w' x = 0 := by
  obtain ⟨rfl, hthr, b, k, hcpu, hst⟩ := hm.stored_frame ho
  have hcur : ahead p ph w (.stack i (w.cur i)) = k.countP (Frame.toStore p) + 1 := by
    simp [ahead, heldBy, stack_cur, hcpu, Frame.toStore]
  have hne : ahead p ph w (.stack i (w.cur i)) ≠ 0 := by
    rw [hcur]
    exact Nat.succ_ne_zero _
  refine ⟨⟨_, hne⟩, fun x => ?_⟩
  cases x with
  | queue j =>
    have := hsole.eq_zero hne (y := .queue j) (by simp)
    simpa only [ahead, heldBy, hthr] using this
  | hand => rfl
  | stack j c =>
    simp only [ahead, heldBy, hst]
    split
    · have hle := hsole.1 (.stack i (w.cur i))
      rw [hcur] at hle
      have hk : k.countP (Frame.toStore p) = 0 := by omega
      simpa [Frame.toStore] using hk
    · next hjc =>
        exact hsole.eq_zero hne (y := .stack j c) (fun e => hjc ⟨(Place.stack.inj e).1, (Place.stack.inj e).2⟩)

/-! ## What is still to wake the caller -/

theorem unwind_hasStored (k : List (Frame V)) :
    (unwind i k).1.countP (Frame.hasStored p) ≤ k.countP (Frame.hasStored p) := by
  unfold unwind
  split <;> simp [List.countP_cons, Frame.hasStored]

theorem Local.hasStored {k k' : List (Frame V)} (hl : Local w i k k' es) :
    k'.countP (Frame.hasStored p) ≤ k.countP (Frame.hasStored p) := by
  cases hl with
  | raiseYield =>
    refine Nat.le_trans (unwind_hasStored _) ?_
    simp [List.countP_cons]
  | _ => simp [List.countP_cons, Frame.hasStored]

/-- Only the store makes a call one that has stored. -/
theorem Move.cpu_hasStored (hm : Move w₀ i ph w ph' w' es) (hns : ∀ o, .stored p o ∉ es) :
    (w'.cpu i).countP (Frame.hasStored p) ≤ (w.cpu i).countP (Frame.hasStored p) + 0 ∨
      ∃ r, w' = w.switch i r (w.cpu i) := by
  cases hm with
  | stackTop _ hl =>
    simp only [setCpu_cpu, if_true]
    exact .inl hl.hasStored
  | switch | reschedule => exact .inr ⟨_, rfl⟩
  | runTask hcpu hr =>
    refine .inl ?_
    rcases runTask_cpu hr with ⟨q, -, -, e⟩ | ⟨-, e⟩ | ⟨q, -, -, e⟩ <;> rw [e, hcpu] <;> simp [Frame.hasStored]
  | quit hx => exact .inl (Nat.le_of_eq (by rw [(quit_stacks hx).2.1]; rfl))
  | expireWait _ _ _ _ hx => exact .inl (Nat.le_of_eq (by rw [(setException_frame hx).cpu]; rfl))
  | cancel => exact .inl (by simp only [cancelTask]; split <;> exact Nat.le_refl _)
  | drain hcpu | check hcpu | abandon hcpu | ran hcpu | release hcpu =>
    exact .inl (by simp [hcpu, Frame.hasStored])
  | waitOn _ hcpu | enqueueThread _ hcpu | resumeWait _ hcpu | finishError _ hcpu =>
    exact .inl (by simp [hcpu, Frame.hasStored])
  | post _ hcpu =>
    simp only [hcpu, setCpu_cpu, if_true]
    exact .inl (List.sublist_cons_self _ _).countP_le
  | @storeValue _ q v b k _ hcpu =>
    have hne : q ≠ p := fun e => hns (.value v) (by simp [e])
    exact .inl (by simp [hcpu, Frame.hasStored, hne])
  | @storeError _ q e b k _ hcpu =>
    have hne : q ≠ p := fun e' => hns (.error e) (by simp [e'])
    exact .inl (by simp [hcpu, Frame.hasStored, hne])
  | resumeSleep hcpu => exact .inl (by simp [hcpu, Frame.hasStored])
  | sleepOn | sync => exact .inl (by simp [Frame.hasStored])
  | _ => exact .inl (Nat.le_refl _)

/-- A `notify` of `p` is posted by a call that has stored into `p`, which returns. -/
theorem Move.notify_posted (hm : Move w₀ i ph w ph' w' es) (hq : NoQuit es) (hexp : ∀ c, .expired i c p ∉ es)
    {j : ThreadId} {t : Task} (ht : (w'.thr j).tasks = t :: (w.thr j).tasks) (hb : t.body = .notify p) :
    ph = .start ∧ ph' = .out ∧ j ≠ i ∧ ∃ o b k, w.cpu i = .set (.post j) p o b :: k ∧ w'.cpu i = k := by
  have hlen := congrArg List.length ht
  simp only [List.length_cons] at hlen
  rcases hm.tasks hq j with h | ⟨-, s, -, h⟩ | ⟨s, hp, he⟩
  · have := h.length_eq
    omega
  · have := h.length_eq
    simp only [List.length_cons] at this
    omega
  obtain rfl : s = t := (List.cons.inj (he.symm.trans ht)).1
  rcases hp.2.2 with ⟨hb', -⟩ | hb' | ⟨q, hb', hj, ⟨o, b, k, hcpu⟩ | ⟨-, c, rfl⟩⟩
  · rw [hb] at hb'; cases hb'
  · rw [hb] at hb'; cases hb'
  · rw [hb] at hb'
    cases hb'
    have hsame : (w'.thr j).tasks ≠ (w.thr j).tasks := by
      intro e
      rw [e] at hlen
      omega
    have hposted : ∀ (u : World V) (t' : Task) (j' : ThreadId), u.thr = w.thr → t'.body ≠ .notify p →
        ((u.async j' t').thr j).tasks ≠ s :: (w.thr j).tasks := by
      intro u t' j' hu hbody e
      rw [async_tasks, hu] at e
      split at e
      · exact hbody ((List.cons.inj e).1 ▸ hb)
      · have := congrArg List.length e
        simp at this
    cases hm with
    | async j' when prio =>
      exact absurd ht (hposted ((w.newTask when prio (.rtask w.promCount) 1).2.newPromise _ false).2 _ j' rfl
        (by simp [newTask]))
    | asyncVoid j' when prio =>
      exact absurd ht (hposted (w.newTask when prio .vtask 1).2 _ j' rfl (by simp [newTask]))
    | cancel => exact absurd (cancelTask_tasks _ _ _) hsame
    | quit => exact absurd (by simp) (hq i)
    | sync _ _ _ _ _ hx => rw [hcpu] at hx; cases hx
    | post _ hcpu' hn =>
      rw [hcpu] at hcpu'
      cases hcpu'
      exact ⟨rfl, rfl, hj, o, b, k, hcpu, if_pos rfl⟩
    | switch | reschedule => exact absurd (switch_tasks _ _ _ _) hsame
    | release hc | dequeue hc | drain hc | runTask hc | resumeSleep hc => rw [hcpu] at hc; cases hc
    | waitOn _ hc | resumeWait _ hc => rw [hcpu] at hc; cases hc
    | sleepOn _ _ hx => rw [hcpu] at hx; cases hx
    | expireSleep => exact absurd (by simp [hj]) hsame
    | @expireWait _ _ _ c v q _ _ _ _ hx =>
      have hpop : ((w.setThr i (w.thr i).sleepPop).thr j).tasks = (w.thr j).tasks := by simp [hj]
      rcases setException_tasks hx j with h | ⟨-, -, -, h⟩
      · exact absurd (h.trans hpop) hsame
      · rw [hpop] at h
        have hs := (List.cons.inj (h.symm.trans ht)).1
        rw [← hs] at hb
        cases hb
        exact absurd (by simp) (hexp c)
    | _ => exact absurd rfl hsame
  · rw [hb] at hb'
    cases hb'
    exact absurd (by simp) (hexp c)

theorem signals_running {o : Outcome V} {b : Bool} {pc : SetPc} {k : List (Frame V)}
    (hcpu : w.cpu i = .set pc p o b :: k)
    (hpc : pc ≠ .store) : signals p ph w (.stack i (w.cur i)) = k.countP (Frame.hasStored p) + 1 := by
  show (w.stack i (w.cur i)).countP _ = _
  rw [stack_cur, hcpu, List.countP_cons, if_pos]
  cases pc <;> first | exact absurd rfl hpc | simp [Frame.hasStored]

/-- There is at most one thing that is going to wake the caller, if the store is made when there is none. -/
theorem Move.signals_sole (hm : Move w₀ i ph w ph' w' es) (hq : NoQuit es) (hv : Valid w)
    (hexp : ∀ c, .expired i c p ∉ es)
    (hstored : ∀ o, .stored p o ∈ es → ∀ x, signals p ph w x = 0) (h : AtMostOne (signals p ph w)) :
    AtMostOne (signals p ph' w') := by
  by_cases hns : ∃ o, .stored p o ∈ es
  · -- the call that stores is the first signal
    obtain ⟨o, ho⟩ := hns
    have h0 := hstored o ho
    obtain ⟨rfl, hthr, b, k, hcpu, hst⟩ := hm.stored_frame ho
    have hk : k.countP (Frame.hasStored p) = 0 := by
      have := h0 (.stack i (w.cur i))
      simpa [signals, heldBy, stack_cur, hcpu, Frame.hasStored] using this
    refine AtMostOne.create (y := .stack i (w.cur i)) h0 (fun z hz => ?_) ?_
    · cases z with
      | queue j => exact Nat.le_of_eq (by simp only [signals, heldBy, hthr])
      | hand => exact Nat.zero_le _
      | stack j c =>
        simp only [signals, heldBy, hst]
        rw [if_neg (fun e => hz (by rw [e.1, e.2]))]
    · simp [signals, heldBy, hst, Frame.hasStored, hk]
  · have hstack : ∀ j c, signals p ph' w' (.stack j c) ≤ signals p ph w (.stack j c) := fun j c => by
      have := hm.stack_countP hv rfl (hm.cpu_hasStored (fun o ho => hns ⟨o, ho⟩)) j c
      rwa [ite_self] at this
    by_cases hpost : ∃ j t, Posts w w' i j es t ∧ (w'.thr j).tasks = t :: (w.thr j).tasks ∧ t.body = .notify p
    · -- the signal goes from the call to the queue
      obtain ⟨j, t, hp, ht, hb⟩ := hpost
      obtain ⟨rfl, rfl, hj, o, b, k, hcpu, hcpu'⟩ := hm.notify_posted hq hexp ht hb
      refine h.carry (x := .stack i (w.cur i)) (y := .queue j) (by simp) (fun z hz => ?_) ?_
      · cases z with
        | queue j' => exact hm.posted_at hq ht (fun e => hz (e ▸ rfl))
        | hand => exact Nat.zero_le _
        | stack j' c => exact hstack j' c
      · have hst : w'.stack i (w.cur i) = k := by
          rcases hm.stackStep hv with hst | ⟨r, rfl⟩
          · rw [hst.stack, if_pos ⟨rfl, rfl⟩, hcpu']
          · rw [switch_tasks] at ht
            simp at ht
        have hcount : signals p .out w' (.queue j) = signals p .start w (.queue j) + 1 := by
          simp only [signals, heldBy, ht, List.countP_cons]
          rw [if_pos (by simp [notifies, hb])]
        have hnew : signals p .out w' (.stack i (w.cur i)) = k.countP (Frame.hasStored p) := by
          simp only [signals, heldBy, hst]
        rw [hcount, signals_running hcpu (by simp), hnew]
        omega
    · refine hm.soleBy hq (fun j c => Nat.le_trans (hstack j c) (Nat.le_add_right _ _)) (fun j t hp ht hb => ?_) h
      exact absurd ⟨j, t, hp, ht, by simpa [notifies] using hb⟩ hpost

/-- Where a signal comes from: it was there, it is taken into the hand, it is posted, or the promise is stored
into. -/
theorem Move.signal_from (hm : Move w₀ i ph w ph' w' es) (hq : NoQuit es) (hv : Valid w)
    (hexp : ∀ c, .expired i c p ∉ es) {x : Place} (hx : signals p ph' w' x ≠ 0) :
    signals p ph w x ≠ 0 ∨ (x = .stack i (w.cur i) ∧ ∃ o, .stored p o ∈ es) ∨
      (x = .hand ∧ signals p ph w (.queue i) ≠ 0) ∨
      ∃ j o b k, x = .queue j ∧ j ≠ i ∧ w.cpu i = .set (.post j) p o b :: k := by
  cases x with
  | queue j =>
    rcases hm.tasks hq j with hp | ⟨-, t, -, hp⟩ | ⟨t, hp, he⟩
    · exact .inl (by simpa only [signals, heldBy, hp.countP_eq] using hx)
    · refine .inl (Nat.ne_of_gt ?_)
      have hpos := Nat.pos_of_ne_zero hx
      simp only [signals, heldBy, hp.countP_eq, List.countP_cons] at hpos ⊢
      omega
    · by_cases hb : t.body = .notify p
      · rcases hp.2.2 with ⟨hb', -⟩ | hb' | ⟨q, hb', hj, ⟨o, b, k, hcpu⟩ | ⟨-, c, rfl⟩⟩
        · rw [hb] at hb'; cases hb'
        · rw [hb] at hb'; cases hb'
        · rw [hb] at hb'
          cases hb'
          exact .inr (.inr (.inr ⟨j, o, b, k, rfl, hj, hcpu⟩))
        · rw [hb] at hb'
          cases hb'
          exact absurd (by simp) (hexp c)
      · refine .inl ?_
        simpa [signals, heldBy, he, notifies, hb] using hx
  | hand =>
    cases ph' with
    | hand t =>
      have hb : notifies p t = true := by
        by_contra hb
        exact hx (if_neg hb)
      rcases hm.hand_from with rfl | ht
      · exact .inl hx
      · exact .inr (.inr (.inl ⟨rfl, Nat.ne_of_gt (List.countP_pos_iff.2 ⟨t, ht, hb⟩)⟩))
    | _ => exact absurd rfl hx
  | stack j c =>
    by_cases hns : ∃ o, .stored p o ∈ es
    · obtain ⟨o, ho⟩ := hns
      obtain ⟨-, -, b, k, -, hst⟩ := hm.stored_frame ho
      by_cases hjc : j = i ∧ c = w.cur i
      · exact .inr (.inl ⟨by rw [hjc.1, hjc.2], o, ho⟩)
      · refine .inl ?_
        simpa only [signals, heldBy, hst, if_neg hjc] using hx
    · refine .inl (Nat.ne_of_gt (Nat.lt_of_lt_of_le (Nat.pos_of_ne_zero hx) ?_))
      have := hm.stack_countP hv rfl (hm.cpu_hasStored (fun o ho => hns ⟨o, ho⟩)) j c
      rwa [ite_self] at this

theorem signals_frame {f : Frame V} {j : ThreadId} {c : CtxId} (hf : f ∈ w.stack j c)
    (hst : f.hasStored p = true) :
    signals p ph w (.stack j c) ≠ 0 :=
  Nat.ne_of_gt (List.countP_pos_iff.2 ⟨f, hf, hst⟩)

theorem signalled_iff : Signalled ph w p ↔ ∃ x, signals p ph w x ≠ 0 := by
  constructor
  · rintro (⟨j, c, pc, o, b, hf, hpc⟩ | ⟨t, ⟨j, ht⟩ | rfl, hb⟩)
    · exact ⟨_, signals_frame hf (Frame.hasStored_iff.2 ⟨pc, o, b, rfl, hpc⟩)⟩
    · exact ⟨.queue j, Nat.ne_of_gt (List.countP_pos_iff.2 ⟨t, ht, by simp [notifies, hb]⟩)⟩
    · exact ⟨.hand, by simp [signals, heldBy, notifies, hb]⟩
  · rintro ⟨x, hx⟩
    cases x with
    | queue j =>
      obtain ⟨t, ht, hb⟩ := List.countP_pos_iff.1 (Nat.pos_of_ne_zero hx)
      exact .inr ⟨t, .inl ⟨j, ht⟩, by simpa [notifies] using hb⟩
    | hand =>
      cases ph with
      | hand t =>
        have hb : notifies p t = true := by
          by_contra hb
          exact hx (if_neg hb)
        exact .inr ⟨t, .inr rfl, by simpa [notifies] using hb⟩
      | _ => exact absurd rfl hx
    | stack j c =>
      obtain ⟨f, hf, hb⟩ := List.countP_pos_iff.1 (Nat.pos_of_ne_zero hx)
      obtain ⟨pc, o, b, rfl, hpc⟩ := Frame.hasStored_iff.1 hb
      exact .inl ⟨j, c, pc, o, b, hf, hpc⟩

/-- Where there is no signal, none comes but by a store. -/
theorem Move.signals_none (hm : Move w₀ i ph w ph' w' es) (hq : NoQuit es) (hv : Valid w)
    (hexp : ∀ c, .expired i c p ∉ es)
    (hns : ∀ o, .stored p o ∉ es) (h : ∀ x, signals p ph w x = 0) (x : Place) : signals p ph' w' x = 0 := by
  by_contra hx
  rcases hm.signal_from hq hv hexp hx with hx | ⟨-, o, ho⟩ | ⟨-, hx⟩ | ⟨j, o, b, k, -, -, hcpu⟩
  · exact hx (h _)
  · exact hns o ho
  · exact hx (h _)
  · exact signals_frame (f := .set (.post j) p o b) (by rw [stack_cur, hcpu]; exact List.mem_cons_self)
      (by simp [Frame.hasStored]) (h (.stack i (w.cur i)))

/-! ## The caller in its wait -/

/-- How a wait on `p` goes on. `k` is the stack below it. -/
inductive Advances (w w' : World V) (i : ThreadId) (p : PromId) (d : Int) (k : List (Frame V)) :
    WaitPc → WaitPc → Prop
  | enqueues : (w.prom p).ready = false → (w'.prom p).blockedThread = some i → Advances w w' i p d k .check .ready
  | notReady : (w'.prom p).ready = false → Advances w w' i p d k .ready .block
  | isReady : (w.prom p).ready = true → Advances w w' i p d k .ready .finish
  | blocks : w' = (w.setThr i ((w.thr i).ensureCurrent.2.waitOn (w.thr i).ensureCurrent.1 p d)).setCpu i
      (.wait .resumed p d :: k) → Advances w w' i p d k .block .resumed
  | resumes : Advances w w' i p d k .resumed .finish

/-- What a move does to the wait that its context is inside of. -/
theorem Move.wait_step (hm : Move w₀ i ph w ph' w' es) (hq : NoQuit es) (hs : Sane w) {pc : WaitPc} {d : Int}
    {k : List (Frame V)} (hcpu : w.cpu i = .wait pc p d :: k) :
    w'.stack i (w.cur i) = w.cpu i ∨ w'.stack i (w.cur i) = .yield :: w.cpu i ∨
      (w'.stack i (w.cur i) = k ∧ ∃ b o, .waitDone i p d b o ∈ es) ∨
      (AtStart w₀ w ∧ ph = .start ∧ ∃ pc', w'.stack i (w.cur i) = .wait pc' p d :: k ∧ Advances w w' i p d k pc pc') := by
  by_cases hph : ph = .start
  · subst hph
    rcases hm.stackStep_or_switch hs.valid with hst | ⟨r, -, -, h | ⟨-, f, k', hcpu', hf⟩⟩
    · rw [hst.stack, if_pos ⟨rfl, rfl⟩]
      cases hm with
      | clock | go | newPromise | async | asyncVoid => exact .inl rfl
      | cancel => exact .inl (by simp only [cancelTask]; split <;> rfl)
      | quit => exact absurd (by simp) (hq i)
      | stackTop hs hl =>
        simp only [setCpu_cpu, if_true]
        rw [hcpu] at hl ⊢
        cases hl with
        | callWait hx | callSet hx | callExec hx => cases hx
        | startYield => exact .inr (.inl rfl)
        | isReady hr => exact .inr (.inr (.inr ⟨hs, trivial, _, rfl, .isReady hr⟩))
        | notReady hr => exact .inr (.inr (.inr ⟨hs, trivial, _, rfl, .notReady hr⟩))
        | raiseWait => exact .inr (.inr (.inl ⟨rfl, _, _, List.mem_append_right _ (List.mem_singleton.2 rfl)⟩))
        | checkError | checkValue | late | finishValue | finishNone =>
          exact .inr (.inr (.inl ⟨rfl, _, _, List.mem_singleton.2 rfl⟩))
      | sync _ _ _ _ _ hx | sleepOn _ _ hx => rw [hcpu] at hx; cases hx
      | waitOn hs hcpu' =>
        rw [hcpu] at hcpu'
        cases hcpu'
        exact .inr (.inr (.inr ⟨hs, rfl, _, if_pos rfl, .blocks rfl⟩))
      | enqueueThread hs hcpu' he hv =>
        rw [hcpu] at hcpu'
        cases hcpu'
        exact .inr (.inr (.inr ⟨hs, rfl, _, if_pos rfl,
          .enqueues (by simp [Promise.ready, he, hv]) (by simp [modProm, setCpu])⟩))
      | resumeWait hs hcpu' =>
        rw [hcpu] at hcpu'
        cases hcpu'
        exact .inr (.inr (.inr ⟨hs, rfl, _, if_pos rfl, .resumes⟩))
      | finishError _ hcpu' =>
        rw [hcpu] at hcpu'
        cases hcpu'
        exact .inr (.inr (.inl ⟨if_pos rfl, _, _, List.mem_singleton.2 rfl⟩))
      | storeValue _ hcpu' | storeError _ hcpu' | post _ hcpu' => rw [hcpu] at hcpu'; cases hcpu'
      | ran hcpu' | release hcpu' | resumeSleep hcpu' | check hcpu' => rw [hcpu] at hcpu'; cases hcpu'
      | expireSleep hph | expireWait hph => exact absurd rfl hph
    · cases h
    · rw [hcpu] at hcpu'
      cases hcpu'
      rcases hf with h | ⟨tm, h⟩ <;> cases h
  · exact .inl ((hm.stack_later hph hs ((stack_cur w i).trans hcpu) (by simp)).trans hcpu.symm)

/-- What a move does to a context that yields. -/
theorem Move.yield_step (hm : Move w₀ i ph w ph' w' es) (hq : NoQuit es) (hs : Sane w) {k : List (Frame V)}
    (hcpu : w.cpu i = .yield :: k) :
    w'.stack i (w.cur i) = w.cpu i ∨ w'.stack i (w.cur i) = k ∨
      (w'.stack i (w.cur i) = (unwind i k).1 ∧ es = w.raise i ++ (unwind i k).2) := by
  by_cases hph : ph = .start
  · subst hph
    rcases hm.stackStep_or_switch hs.valid with hst | ⟨r, rfl, -⟩
    · rw [hst.stack, if_pos ⟨rfl, rfl⟩]
      cases hm with
      | clock | go | newPromise | async | asyncVoid => exact .inl rfl
      | cancel => exact .inl (by simp only [cancelTask]; split <;> rfl)
      | quit => exact absurd (by simp) (hq i)
      | stackTop hs hl =>
        simp only [setCpu_cpu, if_true]
        rw [hcpu] at hl ⊢
        cases hl with
        | callWait hx | callSet hx | callExec hx => cases hx
        | startYield hx => rcases hx with hx | hx <;> cases hx
        | raiseYield => exact .inr (.inr ⟨rfl, rfl⟩)
        | yielded => exact .inr (.inl rfl)
      | sync _ _ _ _ _ hx | sleepOn _ _ hx => rw [hcpu] at hx; cases hx
      | waitOn _ hcpu' | enqueueThread _ hcpu' | resumeWait _ hcpu' | finishError _ hcpu' | storeValue _ hcpu'
      | storeError _ hcpu' | post _ hcpu' => rw [hcpu] at hcpu'; cases hcpu'
      | ran hcpu' | release hcpu' | resumeSleep hcpu' | check hcpu' => rw [hcpu] at hcpu'; cases hcpu'
      | expireSleep hph | expireWait hph => exact absurd rfl hph
    · exact .inl ((hs.stack_switch r (by simp [stack_cur, hcpu])).trans (stack_cur w i))
  · exact .inl ((hm.stack_later hph hs ((stack_cur w i).trans hcpu) (by simp)).trans hcpu.symm)

theorem Nested.wait_unique {k : List (Frame V)} {pc pc' : WaitPc} {q : PromId} {d d' : Int} (h : Nested k)
    (hf : Frame.wait pc p d ∈ k) (hf' : Frame.wait pc' q d' ∈ k) : pc = pc' ∧ p = q ∧ d = d' := by
  obtain ⟨l, hl, hcalls⟩ := h.mem_top hf (by simp [Frame.calls]) (by simp)
  have hmem : (Frame.wait pc' q d' : Frame V) = .wait pc p d ∨ Frame.wait pc' q d' ∈ l := by
    rcases hl with rfl | rfl <;> simpa using hf'
  rcases hmem with e | hm
  · cases e
    exact ⟨rfl, rfl, rfl⟩
  · exact (hcalls _ hm).elim

/-- A wait stays where it is, ends, or goes on. -/
theorem Move.wait_goes (hm : Move w₀ i ph w ph' w' es) (hq : NoQuit es) (hs : Sane w)
    (hn : ∀ j c, Nested (w.stack j c))
    {j : ThreadId} {c : CtxId} {pc : WaitPc} {d : Int} (hf : Frame.wait pc p d ∈ w.stack j c) :
    Frame.wait pc p d ∈ w'.stack j c ∨
      (j = i ∧ c = w.cur i ∧ ((∀ f ∈ w'.stack j c, f.calls) ∧ (∃ b o, .waitDone i p d b o ∈ es) ∨
        (AtStart w₀ w ∧ ph = .start ∧ ∃ k pc', w.cpu i = .wait pc p d :: k ∧ w'.stack j c = .wait pc' p d :: k ∧
          Advances w w' i p d k pc pc'))) := by
  by_cases hjc : j = i ∧ c = w.cur i
  · obtain ⟨rfl, rfl⟩ := hjc
    obtain ⟨k, hk, hcalls⟩ := (hn j (w.cur j)).mem_top hf (by simp [Frame.calls]) (by simp)
    rw [stack_cur] at hk
    rcases hk with hk | hk
    · rcases hm.wait_step hq hs hk with e | e | ⟨e, b, o, hd⟩ | ⟨hs, hph, pc', e, hadv⟩
      · exact .inl (by rw [e, hk]; simp)
      · exact .inl (by rw [e, hk]; simp)
      · exact .inr ⟨rfl, rfl, .inl ⟨by rw [e]; exact hcalls, b, o, hd⟩⟩
      · exact .inr ⟨rfl, rfl, .inr ⟨hs, hph, k, pc', hk, e, hadv⟩⟩
    · rcases hm.yield_step hq hs hk with e | e | ⟨e, hes⟩
      · exact .inl (by rw [e, hk]; simp)
      · exact .inl (by rw [e]; simp)
      · exact .inr ⟨rfl, rfl, .inl ⟨by rw [e]; exact hcalls, pc != .check, .error .taskCanceled,
          by rw [hes]; exact List.mem_append_right _ (List.mem_singleton.2 rfl)⟩⟩
  · refine .inl ((hm.stack_suspended hs.valid (fun e => ⟨fun e' => hjc ⟨e, e'⟩, ?_⟩)).symm ▸ hf)
    subst e
    by_contra hlt
    rw [hs.blank j c (Nat.not_lt.1 hlt) (fun e' => hjc ⟨rfl, e'⟩)] at hf
    cases hf

/-- A wait was there before, goes on, or starts. -/
theorem Move.wait_comes (hm : Move w₀ i ph w ph' w' es) (hq : NoQuit es) (hs : Sane w)
    (hn : ∀ j c, Nested (w.stack j c))
    (hn' : ∀ j c, Nested (w'.stack j c)) {j : ThreadId} {c : CtxId} {pc : WaitPc} {d : Int}
    (hf : Frame.wait pc p d ∈ w'.stack j c) :
    Frame.wait pc p d ∈ w.stack j c ∨
      (j = i ∧ c = w.cur i ∧ AtStart w₀ w ∧ ph = .start ∧ ∃ k pc', w.cpu i = .wait pc' p d :: k ∧
        w'.stack j c = .wait pc p d :: k ∧ Advances w w' i p d k pc' pc) ∨
      (j = i ∧ c = w.cur i ∧ pc = .check ∧ (w.shared p = true ∨ (p = w.promCount ∧ w'.promCount = w.promCount + 1))) := by
  by_cases hold : ∃ pc' d', Frame.wait pc' p d' ∈ w.stack j c
  · obtain ⟨pc', d', hf'⟩ := hold
    rcases hm.wait_goes hq hs hn hf' with hf' | ⟨rfl, rfl, ⟨hcalls, -⟩ | ⟨hs, hph, k, pc'', hcpu, hk, hadv⟩⟩
    · obtain ⟨rfl, -, rfl⟩ := (hn' j c).wait_unique hf hf'
      exact .inl (by assumption)
    · exact (hcalls _ hf).elim
    · have hf'' : Frame.wait pc'' p d' ∈ w'.stack j (w.cur j) := by rw [hk]; exact List.mem_cons_self
      obtain ⟨rfl, -, rfl⟩ := (hn' j (w.cur j)).wait_unique hf hf''
      exact .inr (.inl ⟨rfl, rfl, hs, hph, k, pc', hcpu, hk, hadv⟩)
  · rcases hm.frame_from hs.valid hf with hf' | hf' | ⟨rfl, rfl, hnf⟩
    · exact absurd ⟨pc, d, hf'⟩ hold
    · cases hf'
    · cases hnf with
      | waitStart _ hp => exact .inr (.inr ⟨rfl, rfl, rfl, hp⟩)
      | wait hcpu => exact absurd ⟨_, _, by rw [stack_cur, hcpu]; exact List.mem_cons_self⟩ hold

/-! ## When nothing is left -/

/-- Nothing is going to store into `p` or to wake who waits on it, and no `process_tasks` is between the `dequeue`
and the end of the `release` of its task. -/
structure Finished (p : PromId) (ph : Phase) (w : World V) : Prop where
  ahead : ∀ x, ahead p ph w x = 0
  signals : ∀ x, signals p ph w x = 0
  released : ∀ j c, ∀ f ∈ w.stack j c, (∃ pc tm, f = .processTasks pc tm) → ¬ f.refers p

theorem ahead_frame {f : Frame V} {j : ThreadId} {c : CtxId} (hf : f ∈ w.stack j c) (hst : f.toStore p = true) :
    ahead p ph w (.stack j c) ≠ 0 :=
  Nat.ne_of_gt (List.countP_pos_iff.2 ⟨f, hf, hst⟩)

theorem ahead_hand {t : Task} (hb : t.body = .rtask p) : ahead p (.hand t) w .hand ≠ 0 := by
  simp [ahead, heldBy, settles, hb]

/-- Nothing comes where there is nothing left. -/
theorem Move.finished (hm : Move w₀ i ph w ph' w' es) (hq : NoQuit es) (hs : Sane w) (hn : Nested (w.cpu i))
    (hp : w.shared p = false) (hlt : p < w.promCount) (hexp : ∀ c, .expired i c p ∉ es) (h : Finished p ph w) :
    Finished p ph' w' where
  ahead := hm.ahead_none hq hs.valid hn hp hlt h.ahead
  signals := by
    have hns : ∀ o, .stored p o ∉ es := by
      intro o ho
      obtain ⟨-, ⟨b, k, hcpu⟩, -⟩ := hm.stored ho
      exact ahead_frame (f := .set .store p o b) (by rw [stack_cur, hcpu]; exact List.mem_cons_self)
        (by simp [Frame.toStore]) (h.ahead (.stack i (w.cur i)))
    exact hm.signals_none hq hs.valid hexp hns h.signals
  released := by
    rintro j c f hf ⟨pc, tm, rfl⟩ href
    rcases hm.frame_from hs.valid hf with hf | hf | ⟨rfl, rfl, hnf⟩
    · exact h.released j c _ hf ⟨pc, tm, rfl⟩ href
    · rw [hf] at href; cases href
    · cases hnf with
      | running hph =>
        subst hph
        exact ahead_hand href (h.ahead .hand)
      | @release t _ k hcpu =>
        exact h.released j (w.cur j) (.processTasks (.running t) tm) (by rw [stack_cur, hcpu]; exact List.mem_cons_self)
          ⟨_, _, rfl⟩ href
      | loop hpc =>
        cases pc with
        | running t => exact (hpc t).1 rfl
        | release t => exact (hpc t).2 rfl
        | _ => cases href
      | check hcpu =>
        exact h.released j (w.cur j) _ (by rw [stack_cur, hcpu]; exact List.mem_cons_self) ⟨_, _, rfl⟩ href.processTasks

/-- What runs the task of `p` is on top of its stack, unless the task is still to store or a call that has stored
stands on it. -/
theorem Nested.running {k : List (Frame V)} {t : Task} {tm : Int} (h : Nested k)
    (hf : Frame.processTasks (.running t) tm ∈ k) (hb : t.body = .rtask p) :
    (∃ l, k = .processTasks (.running t) tm :: l) ∨ Frame.task t ∈ k ∨ ∃ pc o b, Frame.set pc p o b ∈ k := by
  induction k with
  | nil => cases hf
  | cons f l ih =>
    rcases List.mem_cons.1 hf with rfl | hf
    · exact .inl ⟨l, rfl⟩
    · rcases ih h.tail hf with ⟨l', rfl⟩ | ht | ⟨pc, o, b, hs⟩
      · have hs := (List.isChain_cons.1 h).1 _ rfl
        cases f with
        | task t' =>
          obtain rfl : t' = t := hs
          exact .inr (.inl List.mem_cons_self)
        | set pc q o b =>
          have hq : t.body = .rtask q := hs
          rw [hb] at hq
          cases hq
          exact .inr (.inr ⟨pc, o, b, List.mem_cons_self⟩)
        | yield => rcases hs with hs | hs <;> cases hs
        | _ => exact hs.elim
      · exact .inr (.inl (List.mem_cons_of_mem _ ht))
      · exact .inr (.inr ⟨pc, o, b, List.mem_cons_of_mem _ hs⟩)

/-- A call that has stored, and a `process_tasks` at its `release`, have nothing above them. -/
theorem Nested.on_top {k : List (Frame V)} {f : Frame V} (h : Nested k) (hf : f ∈ k)
    (hk : (∃ pc q o b, f = .set pc q o b ∧ pc ≠ .store) ∨ ∃ t tm, f = .processTasks (.release t) tm) : ∃ l, k = f :: l := by
  have hcalls : ¬ f.calls := by
    rcases hk with ⟨pc, q, o, b, rfl, -⟩ | ⟨t, tm, rfl⟩ <;> exact id
  have hyield : f ≠ .yield := by
    rcases hk with ⟨pc, q, o, b, rfl, -⟩ | ⟨t, tm, rfl⟩ <;> simp
  obtain ⟨l, rfl | rfl, -⟩ := h.mem_top hf hcalls hyield
  · exact ⟨l, rfl⟩
  · have hs := (List.isChain_cons.1 h).1 _ rfl
    rcases hk with ⟨pc, q, o, b, rfl, hpc⟩ | ⟨t, tm, rfl⟩
    · rcases hs with hs | hs
      · cases hs
      · cases pc <;> first | exact absurd rfl hpc | cases hs
    · rcases hs with hs | hs <;> cases hs

/-- The frame on top of a stack is on top of the running one, unless its context is inside `start_next_task`. -/
theorem Shaped.top_running (h : Shaped ph w i) {j : ThreadId} {c : CtxId} {f : Frame V} {l : List (Frame V)}
    (hk : w.stack j c = f :: l) (hf : atResume (f :: l) = false) : c = w.cur j := by
  by_contra hc
  rcases h.resume j c hc with e | e <;> rw [hk] at e
  · cases e
  · rw [hf] at e
    cases e

/-- The calls of thread `i` that refer to `p`, while a wait goes on in its running context and nothing is going to
store. -/
theorem Shaped.none_own (h : Shaped ph w i) {pc : WaitPc} {q : PromId} {d : Int} {k : List (Frame V)}
    (hcpu : w.cpu i = .wait pc q d :: k) (hahead : ∀ x, ahead p ph w x = 0) (c : CtxId) :
    (∀ pc o b, pc ≠ .store → Frame.set pc p o b ∉ w.stack i c) ∧
      ∀ f ∈ w.stack i c, (∃ pc tm, f = .processTasks pc tm) → ¬ f.refers p := by
  have hwait : ∀ {f : Frame V} {l}, w.stack i c = f :: l → atResume (f :: l) = false → f = .wait pc q d := by
    intro f l hk hr
    obtain rfl := h.top_running hk hr
    rw [stack_cur, hcpu] at hk
    exact (List.cons.inj hk).1.symm
  have hset : ∀ pc o b, pc ≠ .store → Frame.set pc p o b ∉ w.stack i c := by
    intro pc' o b hpc hf
    obtain ⟨l, hk⟩ := (h.nested i c).on_top hf (.inl ⟨pc', p, o, b, rfl, hpc⟩)
    cases hwait hk rfl
  refine ⟨hset, ?_⟩
  rintro f hf ⟨pc', tm, rfl⟩ href
  cases pc' with
  | running t =>
    rcases (h.nested i c).running hf href with ⟨l, hk⟩ | ht | ⟨pc', o, b, hs⟩
    · cases hwait hk rfl
    · have hb : t.body = .rtask p := href
      exact ahead_frame ht (by simp [Frame.toStore, settles, hb]) (hahead _)
    · by_cases hpc : pc' = .store
      · subst hpc
        exact ahead_frame hs (by simp [Frame.toStore]) (hahead _)
      · exact hset pc' o b hpc hs
  | release t =>
    obtain ⟨l, hk⟩ := (h.nested i c).on_top hf (.inr ⟨t, tm, rfl⟩)
    cases hwait hk rfl
  | _ => cases href

end World

end BoostCmt
