import BoostCmt.Expiry
import BoostCmt.Notify
/-!
# What `quit` does to the contexts of its thread

The first loop of `quit` is meant for the blocked list. `set_exception` makes the
context it visits the first ready one, so the link that the loop follows next leads
into the ready list: it visits the first blocked context and then every context that
was ready. A visit sets the promise of the context, and `notify` makes the first
blocked context that waits on that promise ready.
-/

namespace BoostCmt

open StdHeap Linked Runs ThreadPrivate

variable {V : Type}

namespace World

variable {w w' w₁ : World V} {i : ThreadId} {R B F T : List CtxId}

/-- Each blocked context waits on a promise that names this thread, and no other one waits with a deadline on the
promise of a second one. -/
structure AllNamed (w : World V) (i : ThreadId) (B : List CtxId) : Prop where
  named : ∀ c ∈ B, ∃ p, ((w.thr i).ctx c).prom = some p ∧ (w.prom p).blockedThread = some i
  single : ∀ c ∈ B, ∀ c' ∈ B, c' ∈ (w.thr i).sleepPqueue → ((w.thr i).ctx c).prom = ((w.thr i).ctx c').prom → c = c'

/-! ## One visit -/

/-- `set_exception` on `p` in the first loop, when the lists are `R` and `B`. -/
structure Visited (w w₁ : World V) (i : ThreadId) (p : PromId) (R B R₁ B₁ : List CtxId) : Prop where
  lists : Lists (w₁.thr i) R₁ B₁
  notified : Notified (w.thr i) p R B R₁ B₁
  core : SameCore (w.thr i) (w₁.thr i)
  plain : ∀ c ∈ (w.thr i).sleepPqueue, ((w.thr i).ctx c).prom = none → c ∈ (w₁.thr i).sleepPqueue
  sleep : ∀ c ∈ (w₁.thr i).sleepPqueue, c ∈ (w.thr i).sleepPqueue
  prom : ∀ c, c ∉ B ∨ c ∈ B₁ → ((w₁.thr i).ctx c).prom = ((w.thr i).ctx c).prom
  error : (w₁.prom p).error = some .threadQuit
  others : ∀ q, q ≠ p → w₁.prom q = w.prom q
  blocked : ∀ q, (w₁.prom q).blockedThread = (w.prom q).blockedThread

/-- `set_exception` when nobody on this thread waits on `p`. -/
theorem setException_nobody {p : PromId} {e : Error} (h : Lists (w.thr i) R B)
    (hp : ∀ x ∈ B, ((w.thr i).ctx x).prom ≠ some p) :
    ∃ w₁, w.setException i p e = some w₁ ∧ w₁.thr i = w.thr i ∧
      w₁.prom = (w.modProm p (fun q => { q with error := some e })).prom := by
  simp only [setException, notifyBase]
  split
  · exact ⟨_, rfl, rfl, rfl⟩
  · next t _ =>
    by_cases ht : t = i
    · have hn : ((w.modProm p (fun q => { q with error := some e })).thr i).notify p = some (w.thr i) :=
        h.notify_none hp
      simp only [notify, ht, if_true, hn, Option.map_some]
      exact ⟨_, rfl, by rw [setThr_thr, if_pos rfl], rfl⟩
    · simp only [notify, ht, if_false]
      refine ⟨_, rfl, ?_, rfl⟩
      simp only [async, setThr_thr, if_neg (Ne.symm ht)]
      rfl

theorem visit {p : PromId} (h : Lists (w.thr i) R B) (hB : AllNamed w i B) :
    ∃ w₁ R₁ B₁, w.setException i p .threadQuit = some w₁ ∧ Visited w w₁ i p R B R₁ B₁ := by
  rcases first_waiter B (fun c => ((w.thr i).ctx c).prom = some p) with hp | ⟨B₁, c, B₂, rfl, hfirst, hc⟩
  · obtain ⟨w₁, hx, hthr, hprom⟩ := setException_nobody (e := .threadQuit) h hp
    refine ⟨w₁, R, B, hx, by rw [hthr]; exact h, .inl ⟨rfl, rfl, hp⟩, by rw [hthr]; exact .refl _,
      fun c hc _ => by rw [hthr]; exact hc, fun c hc => by rw [hthr] at hc; exact hc, fun c _ => by
        rw [hthr], ?_, ?_, ?_⟩
    · rw [hprom]; simp [modProm]
    · intro q hq; rw [hprom]; simp [modProm, hq]
    · intro q; rw [hprom]; simp only [modProm]; split <;> rfl
  · obtain ⟨q, hq, hblk⟩ := hB.named c (by simp)
    obtain rfl : q = p := Option.some.inj (hq.symm.trans hc)
    have huniq : ∀ x ∈ (w.thr i).sleepPqueue, ((w.thr i).ctx x).prom = some q → x = c := fun x hx hxp =>
      (hB.single c (by simp) x ((h.sleep_prom x hx).1 (by rw [hxp]; simp)) hx (hc.trans hxp.symm)).symm
    obtain ⟨s, hs, core, hl, hperm, hx⟩ := h.notify_some hfirst hc huniq
    have hne : ∀ x, x ∉ B₁ ++ c :: B₂ ∨ x ∈ B₁ ++ B₂ → x ≠ c := by
      have hnd := h.blocked.nodup
      rw [List.nodup_middle, List.nodup_cons] at hnd
      rintro x (hxB | hxB) rfl
      · exact hxB (by simp)
      · exact hnd.1 hxB
    refine ⟨_, c :: R, B₁ ++ B₂, setException_own hblk hs, ?_, .inr ⟨B₁, c, B₂, rfl, hfirst, hc, rfl, rfl⟩, ?_, ?_, ?_, ?_,
      ?_, ?_, ?_⟩
    · rw [setThr_thr, if_pos rfl]; exact hl
    · rw [setThr_thr, if_pos rfl]; exact core
    · intro x hxs hxp
      rw [setThr_thr, if_pos rfl]
      have hxc : x ≠ c := by rintro rfl; rw [hc] at hxp; cases hxp
      exact hperm.symm.subset ((List.mem_erase_of_ne hxc).2 hxs)
    · intro x hxs
      rw [setThr_thr, if_pos rfl] at hxs
      exact List.mem_of_mem_erase (hperm.subset hxs)
    · intro x hxB
      rw [setThr_thr, if_pos rfl]
      exact hx x (hne x hxB)
    · simp [modProm, setThr]
    · intro q' hq'; simp [modProm, setThr, hq']
    · intro q'; simp only [modProm, setThr]; split <;> rfl

theorem Visited.subset {p : PromId} {R₁ B₁ : List CtxId} (h : Visited w w₁ i p R B R₁ B₁) : ∀ c ∈ B₁, c ∈ B :=
  h.notified.subset

theorem Visited.allNamed {p : PromId} {R₁ B₁ : List CtxId} (h : Visited w w₁ i p R B R₁ B₁) (hB : AllNamed w i B) :
    AllNamed w₁ i B₁ where
  named c hc := by
    obtain ⟨q, hq, hblk⟩ := hB.named c (h.subset c hc)
    exact ⟨q, (h.prom c (.inr hc)).trans hq, (h.blocked q).trans hblk⟩
  single c hc c' hc' hs hp := by
    rw [h.prom c (.inr hc), h.prom c' (.inr hc')] at hp
    exact hB.single c (h.subset c hc) c' (h.subset c' hc') (h.sleep c' hs) hp

/-- A visit takes at most one context that waits on `q` from the blocked list. -/
theorem Visited.count {p : PromId} {R₁ B₁ : List CtxId} (h : Visited w w₁ i p R B R₁ B₁) (q : PromId) :
    B₁.countP (tryUnblock (w₁.thr i) q) = B.countP (tryUnblock (w.thr i) q) - (if p = q then 1 else 0) := by
  have hcongr : B₁.countP (tryUnblock (w₁.thr i) q) = B₁.countP (tryUnblock (w.thr i) q) :=
    List.countP_congr (fun c hc => by simp only [tryUnblock, h.prom c (.inr hc)])
  rw [hcongr]
  rcases h.notified with ⟨-, rfl, hno⟩ | ⟨B', x, B'', rfl, -, hx, -, rfl⟩
  · split
    · next hpq =>
      subst hpq
      rw [List.countP_eq_zero.2 (fun c hc => by simpa [tryUnblock] using hno c hc)]
    · rfl
  · rw [List.countP_append, List.countP_append, List.countP_cons]
    by_cases hpq : p = q
    · simp [tryUnblock, hx, hpq]
    · simp [tryUnblock, hx, hpq]

/-! ## The walk -/

/-- The first loop of `quit`, when it goes over the ready contexts `T`. -/
structure Walked (w w' : World V) (i : ThreadId) (R T B R' B' : List CtxId) : Prop where
  lists : Lists (w'.thr i) R' B'
  moved : (R' ++ B').Perm (R ++ B)
  subset : ∀ c ∈ B', c ∈ B
  count : ∀ q, B'.countP (tryUnblock (w.thr i) q) = B.countP (tryUnblock (w.thr i) q) - T.countP (tryUnblock (w.thr i) q)
  core : SameCore (w.thr i) (w'.thr i)
  plain : ∀ c ∈ (w.thr i).sleepPqueue, ((w.thr i).ctx c).prom = none → c ∈ (w'.thr i).sleepPqueue
  sleep : ∀ c ∈ (w'.thr i).sleepPqueue, c ∈ (w.thr i).sleepPqueue
  errors : ∀ c ∈ B, c ∉ B' → ∀ q, ((w.thr i).ctx c).prom = some q → (w'.prom q).error = some .threadQuit
  kept : ∀ q, (w.prom q).error = some .threadQuit → (w'.prom q).error = some .threadQuit

theorem Visited.moved {p : PromId} {R₁ B₁ : List CtxId} (h : Visited w w₁ i p R B R₁ B₁) :
    (R₁ ++ B₁).Perm (R ++ B) := by
  rcases h.notified with ⟨rfl, rfl, -⟩ | ⟨B', x, B'', rfl, -, -, rfl, rfl⟩
  · exact .refl _
  · rw [← List.append_assoc, ← List.append_assoc]
    exact List.perm_middle.symm

/-- A visit of `r` and then the rest of the walk. -/
theorem Visited.walked {p : PromId} {r : CtxId} {R₁ B₁ R' B' : List CtxId} (hv : Visited w w₁ i p R B R₁ B₁)
    (h : Lists (w.thr i) R B) (hr : ((w.thr i).ctx r).prom = some p) (hT : ∀ c ∈ T, c ∈ R)
    (hw : Walked w₁ w' i R₁ T B₁ R' B') : Walked w w' i R (r :: T) B R' B' := by
  have hcongr : ∀ (l : List CtxId) (q : PromId), (∀ c ∈ l, ((w₁.thr i).ctx c).prom = ((w.thr i).ctx c).prom) →
      l.countP (tryUnblock (w₁.thr i) q) = l.countP (tryUnblock (w.thr i) q) := fun l q hl =>
    List.countP_congr (fun c hc => by simp only [tryUnblock, hl c hc])
  refine ⟨hw.lists, hw.moved.trans hv.moved, fun c hc => hv.subset c (hw.subset c hc), fun q => ?_,
    hv.core.trans hw.core, fun c hc hn => ?_, fun c hc => hv.sleep c (hw.sleep c hc), fun c hc hn q hq => ?_,
    fun q hq => ?_⟩
  · have h₁ := hv.count q
    have h₂ := hw.count q
    rw [hcongr B' q (fun c hc => hv.prom c (.inr (hw.subset c hc))),
      hcongr T q (fun c hc => hv.prom c (.inl (h.disjoint c (hT c hc)))), h₁] at h₂
    rw [h₂, List.countP_cons]
    simp only [tryUnblock, hr, Option.some.injEq, decide_eq_true_eq]
    omega
  · refine hw.plain c (hv.plain c hc hn) ((hv.prom c (.inl fun hcB => ?_)).trans hn)
    exact absurd hn ((h.sleep_prom c hc).2 hcB)
  · by_cases hc₁ : c ∈ B₁
    · exact hw.errors c hc₁ hn q ((hv.prom c (.inr hc₁)).trans hq)
    · -- the context that this visit has taken out
      obtain rfl : q = p := by
        rcases hv.notified with ⟨-, rfl, -⟩ | ⟨B₂, x, B₃, rfl, -, hxp, -, rfl⟩
        · exact absurd hc hc₁
        · have hcx : c = x := by simp only [List.mem_append, List.mem_cons] at hc hc₁; tauto
          rw [hcx, hxp] at hq
          exact (Option.some.inj hq).symm
      exact hw.kept q hv.error
  · by_cases hqp : q = p
    · rw [hqp]; exact hw.kept p hv.error
    · exact hw.kept q (by rw [hv.others q hqp]; exact hq)

/-- A visit of a ready context: it stays where it is before the rest `T` of the list. -/
theorem visit_ready {p : PromId} {r : CtxId} (h : Lists (w.thr i) (F ++ r :: T) B) (hB : AllNamed w i B) :
    ∃ w₁ X B₁, w.setException i p .threadQuit = some w₁ ∧
    Visited w w₁ i p (F ++ r :: T) B (X ++ F ++ [r] ++ T) B₁ ∧
      ((w₁.thr i).ctx r).next = T.head? := by
  obtain ⟨w₁, R₁, B₁, hx, hv⟩ := visit (p := p) h hB
  obtain ⟨X, rfl⟩ : ∃ X, R₁ = X ++ F ++ r :: T := by
    rcases hv.notified with ⟨rfl, -, -⟩ | ⟨B', x, B'', -, -, -, rfl, -⟩
    · exact ⟨[], by simp⟩
    · exact ⟨[x], by simp⟩
  have hassoc : X ++ F ++ r :: T = X ++ F ++ [r] ++ T := by simp
  refine ⟨w₁, X, B₁, hx, hassoc ▸ hv, hv.lists.ready.tail.head_eq⟩

/-- The walk over ready contexts that all have a promise. -/
theorem quitBlocked_walk (T : List CtxId) :
    ∀ {w : World V} {F B : List CtxId} (fuel : Nat), Lists (w.thr i) (F ++ T) B →
    AllNamed w i B → (∀ r ∈ T, ((w.thr i).ctx r).prom ≠ none) → T.length < fuel →
    ∃ w' R' B', quitBlocked i fuel w T.head? = some w' ∧ Walked w w' i (F ++ T) T B R' B' := by
  induction T with
  | nil =>
    intro w F B fuel h hB _ hf
    obtain ⟨n, rfl⟩ := Nat.exists_eq_succ_of_ne_zero (Nat.ne_of_gt hf)
    refine ⟨w, F ++ [], B, rfl, h, .refl _, fun _ hc => hc, fun q => by simp, .refl _, fun _ hc _ => hc, fun _ hc => hc,
      fun c hc hn => absurd hc hn, fun _ hq => hq⟩
  | cons r T ih =>
    intro w F B fuel h hB hT hf
    obtain ⟨n, rfl⟩ := Nat.exists_eq_succ_of_ne_zero (Nat.ne_of_gt (Nat.lt_of_le_of_lt (Nat.zero_le _) hf))
    obtain ⟨p, hp⟩ := Option.ne_none_iff_exists'.1 (hT r (by simp))
    obtain ⟨w₁, X, B₁, hx, hv, hnext⟩ := visit_ready (p := p) h hB
    have hready : ∀ c ∈ T, ((w₁.thr i).ctx c).prom = ((w.thr i).ctx c).prom := fun c hc =>
      hv.prom c (.inl (h.disjoint c (by simp [hc])))
    obtain ⟨w', R', B', he, hw⟩ := ih n hv.lists (hv.allNamed hB)
      (fun c hc => by rw [hready c hc]; exact hT c (by simp [hc])) (by simpa using hf)
    refine ⟨w', R', B', ?_, hv.walked h hp (fun c hc => by simp [hc]) hw⟩
    simp only [quitBlocked, List.head?_cons, hp, Option.bind_eq_bind, hx, Option.bind_some, hnext]
    exact he

/-- The walk comes to a context without a promise. -/
theorem quitBlocked_null (T : List CtxId) :
    ∀ {w : World V} {F B : List CtxId} (fuel : Nat), Lists (w.thr i) (F ++ T) B →
    AllNamed w i B → (∃ r ∈ T, ((w.thr i).ctx r).prom = none) → quitBlocked i fuel w T.head? = none := by
  induction T with
  | nil => intro _ _ _ _ _ _ ⟨_, hr, _⟩; cases hr
  | cons r T ih =>
    intro w F B fuel h hB hT
    cases fuel with
    | zero => rfl
    | succ n =>
      cases hp : ((w.thr i).ctx r).prom with
      | none => simp only [quitBlocked, List.head?_cons, hp]
      | some p =>
        obtain ⟨w₁, X, B₁, hx, hv, hnext⟩ := visit_ready (p := p) h hB
        obtain ⟨c, hc, hcn⟩ := hT
        have hcT : c ∈ T := (List.mem_cons.1 hc).resolve_left (by rintro rfl; rw [hp] at hcn; cases hcn)
        simp only [quitBlocked, List.head?_cons, hp, Option.bind_eq_bind, hx, Option.bind_some, hnext]
        refine ih n hv.lists (hv.allNamed hB) ⟨c, hcT, ?_⟩
        rw [hv.prom c (.inl (h.disjoint c (by simp [hcT])))]
        exact hcn

/-! ## The whole first loop -/

/-- The contexts that the first loop of `quit` visits, when `R` are ready and `B` are blocked. -/
def visits (R : List CtxId) : List CtxId → List CtxId
  | [] => []
  | b :: _ => b :: R

/-- The visit of the first blocked context puts it before the ready ones. -/
theorem visit_blocked {p : PromId} {b : CtxId} (h : Lists (w.thr i) R (b :: B)) (hB : AllNamed w i (b :: B))
    (hp : ((w.thr i).ctx b).prom = some p) :
    ∃ w₁, w.setException i p .threadQuit = some w₁ ∧ Visited w w₁ i p R (b :: B) (b :: R) B ∧
      ((w₁.thr i).ctx b).next = R.head? := by
  obtain ⟨w₁, R₁, B₁, hx, hv⟩ := visit (p := p) h hB
  obtain ⟨rfl, rfl⟩ : R₁ = b :: R ∧ B₁ = B := by
    rcases hv.notified with ⟨-, -, hno⟩ | ⟨B', x, B'', he, hfirst, -, rfl, rfl⟩
    · exact absurd hp (hno b (by simp))
    · cases B' with
      | nil => obtain ⟨rfl, rfl⟩ := List.cons.inj he; exact ⟨rfl, rfl⟩
      | cons y B' =>
        obtain ⟨rfl, -⟩ := List.cons.inj he
        exact absurd hp (hfirst b (by simp))
  exact ⟨w₁, hx, hv, hv.lists.ready.2.head_eq⟩

theorem Lists.ready_length {s : ThreadPrivate} (h : Lists s R B) : R.length ≤ s.nctx := by
  have hsub : R ⊆ List.range s.nctx := fun x hx => List.mem_range.2 (h.alloc x (.inl hx))
  simpa using (List.subperm_of_subset h.ready.nodup hsub).length_le

/-- The first loop when all visited contexts have a promise. -/
theorem quitBlocked_all (h : Lists (w.thr i) R B) (hB : AllNamed w i B)
    (hT : ∀ r ∈ visits R B, ((w.thr i).ctx r).prom ≠ none) :
    ∃ w' R' B', quitBlocked i ((w.thr i).nctx + 1) w (w.thr i).blocked = some w' ∧
      Walked w w' i R (visits R B) B R' B' := by
  rw [h.blocked.head_eq]
  cases B with
  | nil => simpa [visits] using quitBlocked_walk [] (F := R) ((w.thr i).nctx + 1) (by simpa using h) hB (by simp) (Nat.succ_pos _)
  | cons b B =>
    obtain ⟨p, hp⟩ := Option.ne_none_iff_exists'.1 (hT b (by simp [visits]))
    obtain ⟨w₁, hx, hv, hnext⟩ := visit_blocked h hB hp
    have hready : ∀ c ∈ R, ((w₁.thr i).ctx c).prom = ((w.thr i).ctx c).prom := fun c hc =>
      hv.prom c (.inl (h.disjoint c hc))
    have hlen := Lists.ready_length hv.lists
    rw [hv.core.nctx, List.length_cons] at hlen
    obtain ⟨w', R', B', he, hw⟩ := quitBlocked_walk R (F := [b]) (w.thr i).nctx hv.lists (hv.allNamed hB)
      (fun c hc => by rw [hready c hc]; exact hT c (by simp [visits, hc])) hlen
    refine ⟨w', R', B', ?_, hv.walked h hp (fun c hc => hc) hw⟩
    simp only [List.head?_cons, quitBlocked, hp, Option.bind_eq_bind, hx, Option.bind_some, hnext]
    exact he

theorem quitBlocked_none (h : Lists (w.thr i) R B) (hB : AllNamed w i B)
    (hT : ∃ r ∈ visits R B, ((w.thr i).ctx r).prom = none) :
    quitBlocked i ((w.thr i).nctx + 1) w (w.thr i).blocked = none := by
  rw [h.blocked.head_eq]
  cases B with
  | nil => obtain ⟨r, hr, -⟩ := hT; cases hr
  | cons b B =>
    obtain ⟨p, hp, -⟩ := hB.named b (by simp)
    obtain ⟨w₁, hx, hv, hnext⟩ := visit_blocked h hB hp
    obtain ⟨c, hc, hcn⟩ := hT
    have hcR : c ∈ R := (List.mem_cons.1 hc).resolve_left (by rintro rfl; rw [hp] at hcn; cases hcn)
    simp only [List.head?_cons, quitBlocked, hp, Option.bind_eq_bind, hx, Option.bind_some, hnext]
    refine quitBlocked_null R (F := [b]) _ hv.lists (hv.allNamed hB) ⟨c, hcR, ?_⟩
    rw [hv.prom c (.inl (h.disjoint c hcR))]
    exact hcn

/-! ## The other two loops -/

section Marking
variable {s s' : ThreadPrivate}

/-- The second loop marks the contexts of the ready list. -/
theorem quitReady_marks (l : List CtxId) : ∀ {s : ThreadPrivate} {c : Option CtxId} (fuel : Nat),
    Chain (fun x => (s.ctx x).next) c l → l.length < fuel →
    quitReady fuel s c =
      some { s with ctx := fun x => if x ∈ l then { s.ctx x with canceled := true } else s.ctx x } := by
  induction l with
  | nil =>
    intro s c fuel hc hf
    obtain ⟨n, rfl⟩ := Nat.exists_eq_succ_of_ne_zero (Nat.ne_of_gt hf)
    obtain rfl : c = none := hc
    simp [quitReady]
  | cons a l ih =>
    intro s c fuel hc hf
    obtain ⟨n, rfl⟩ := Nat.exists_eq_succ_of_ne_zero (Nat.ne_of_gt (Nat.lt_of_le_of_lt (Nat.zero_le _) hf))
    have hnd := List.nodup_cons.1 hc.nodup
    obtain ⟨rfl, hc⟩ := hc
    simp only [quitReady]
    rw [ih n (hc.congr (fun x _ => by simp only [modCtx_ctx]; split <;> rfl)) (by simpa using hf)]
    congr 2
    funext x
    by_cases hx : x = a
    · subst hx
      simp [hnd.1]
    · simp [hx]

/-- `s'` is `s` with the contexts `l` marked and pushed before the ready list `R`. -/
structure Pushed (s s' : ThreadPrivate) (l R : List CtxId) : Prop where
  ready : Chain (fun x => (s'.ctx x).next) s'.readyHead (l.reverse ++ R)
  tail : s'.readyTail = (l.reverse ++ R).getLast?
  blocked : s'.blocked = s.blocked
  nctx : s'.nctx = s.nctx
  current : s'.current = s.current
  nextBlocked : ∀ x, (s'.ctx x).nextBlocked = (s.ctx x).nextBlocked
  canceled : ∀ x, (s'.ctx x).canceled = (decide (x ∈ l) || (s.ctx x).canceled)

/-- The third loop marks the sleepers and makes them ready. -/
theorem foldl_pushed (l : List CtxId) : ∀ {s : ThreadPrivate} {R : List CtxId},
    Chain (fun x => (s.ctx x).next) s.readyHead R → s.readyTail = R.getLast? → l.Nodup → (∀ c ∈ l, c ∉ R) →
    Pushed s (l.foldl (fun s c => (s.modCtx c (fun k => { k with canceled := true })).readyPushFront c) s) l R := by
  induction l with
  | nil =>
    exact fun hR ht _ _ => ⟨by simpa using hR, by simpa using ht, rfl, rfl, rfl, fun _ => rfl, fun _ => by simp⟩
  | cons a l ih =>
    intro s R hR ht hnd hdis
    obtain ⟨ha, hnd⟩ := List.nodup_cons.1 hnd
    have hR' : Chain (fun x => ((s.modCtx a (fun k => { k with canceled := true })).ctx x).next) s.readyHead R :=
      hR.congr (fun x _ => by simp only [modCtx_ctx]; split <;> rfl)
    obtain ⟨hr, htl⟩ := readyPushFront_chain (s := s.modCtx a (fun k => { k with canceled := true })) hR' ht (hdis a (by simp))
    obtain ⟨core, -, hb, hx⟩ := readyPushFront_core (s.modCtx a (fun k => { k with canceled := true })) a
    have h := ih hr htl hnd (fun c hc hm => by
      rcases List.mem_cons.1 hm with rfl | hm
      · exact ha hc
      · exact hdis c (by simp [hc]) hm)
    refine ⟨by simpa using h.ready, by simpa using h.tail, h.blocked.trans hb, h.nctx.trans core.nctx,
      h.current.trans core.current, fun x => ?_, fun x => ?_⟩
    · rw [List.foldl_cons, h.nextBlocked, (hx x).2, modCtx_ctx]
      split <;> rfl
    · rw [List.foldl_cons, h.canceled, core.canceled, modCtx_ctx]
      by_cases hxa : x = a <;> simp [hxa]

end Marking

/-! ## The postcondition -/

/-- What `quit` is there for: nobody is blocked or asleep any more, and everybody learns that the thread quits. `R`
were ready and `B` were blocked before. -/
structure QuitPost (w w' : World V) (i : ThreadId) (R B : List CtxId) : Prop where
  blocked : (w'.thr i).blocked = none
  sleep : (w'.thr i).sleepPqueue = []
  done : (w'.thr i).done = true
  ready : ∃ R', Chain (fun c => ((w'.thr i).ctx c).next) (w'.thr i).readyHead R' ∧
    ∀ c, c ∈ B ∨ c ∈ R ∨ (c ∈ (w.thr i).sleepPqueue ∧ ((w.thr i).ctx c).prom = none) → R'.count c = 1
  errors : ∀ c ∈ B, ∀ p, ((w.thr i).ctx c).prom = some p → (w'.prom p).error = some .threadQuit
  canceled : ∀ c, c ∈ R ∨ (c ∈ (w.thr i).sleepPqueue ∧ ((w.thr i).ctx c).prom = none) →
    ((w'.thr i).ctx c).canceled = true

/-- All contexts that the first loop visits have a promise, and it visits at least as many contexts with a promise
as there are blocked ones that wait on it. -/
structure ReachesAll (w : World V) (i : ThreadId) (R B : List CtxId) : Prop where
  prom : ∀ r ∈ visits R B, ((w.thr i).ctx r).prom ≠ none
  count : ∀ q, B.countP (tryUnblock (w.thr i) q) ≤ (visits R B).countP (tryUnblock (w.thr i) q)

/-- Nobody stays blocked if and only if each promise is visited often enough. -/
theorem Walked.blocked_nil {R' B' : List CtxId} (hB : AllNamed w i B) (h : Walked w w' i R T B R' B') :
    B' = [] ↔ ∀ q, B.countP (tryUnblock (w.thr i) q) ≤ T.countP (tryUnblock (w.thr i) q) := by
  constructor
  · rintro rfl q
    have := h.count q
    rw [List.countP_nil] at this
    omega
  · intro hle
    by_contra hne
    obtain ⟨c, hc⟩ := List.exists_mem_of_ne_nil _ hne
    obtain ⟨q, hq, -⟩ := hB.named c (h.subset c hc)
    have hpos : 0 < B'.countP (tryUnblock (w.thr i) q) := List.countP_pos_iff.2 ⟨c, hc, by simp [tryUnblock, hq]⟩
    have := h.count q
    have := hle q
    omega

/-- The state after the second and the third loop. -/
theorem quit_eq (h : Lists (w.thr i) R B) (hB : AllNamed w i B)
    (hT : ∀ r ∈ visits R B, ((w.thr i).ctx r).prom ≠ none) :
    ∃ w₁ R' B' s, Walked w w₁ i R (visits R B) B R' B' ∧
      w.quit i = some (w₁.setThr i { s with sleepPqueue := [], done := true }) ∧
      Pushed { w₁.thr i with ctx := fun x =>
        if x ∈ R' then { (w₁.thr i).ctx x with canceled := true } else (w₁.thr i).ctx x } s (w₁.thr i).sleepPqueue R' := by
  obtain ⟨w₁, R', B', he, hw⟩ := quitBlocked_all h hB hT
  have hl := hw.lists
  have hmark := quitReady_marks R' ((w₁.thr i).nctx + 1) hl.ready (Nat.lt_succ_of_le (Lists.ready_length hl))
  refine ⟨w₁, R', B', _, hw, ?_, foldl_pushed (w₁.thr i).sleepPqueue (R := R') ?_ hl.tail hl.sleep_nodup hl.sleep_ready⟩
  · simp only [quit, Option.bind_eq_bind, he, Option.bind_some, hmark]
    rfl
  · exact hl.ready.congr (fun x _ => by dsimp only; split <;> rfl)

/-- `quit` in a state in which its first loop reaches everybody. -/
theorem quit_reaches (h : Lists (w.thr i) R B) (hB : AllNamed w i B) (hr : ReachesAll w i R B) :
    ∃ w' R', w.quit i = some w' ∧ QuitPost w w' i R B ∧ Lists (w'.thr i) R' [] ∧
      (w'.thr i).current = (w.thr i).current ∧ ∀ c, c ∈ R' ↔ c ∈ R ∨ c ∈ B ∨ c ∈ (w.thr i).sleepPqueue := by
  obtain ⟨w₁, R', B', s, hw, hq, hp⟩ := quit_eq h hB hr.prom
  obtain rfl := (hw.blocked_nil hB).2 hr.count
  have hl := hw.lists
  have hready : ∀ c, c ∈ R' ↔ c ∈ R ∨ c ∈ B := fun c => by
    have := hw.moved.mem_iff (a := c)
    rwa [List.append_nil, List.mem_append] at this
  have hthr : (w₁.setThr i { s with sleepPqueue := [], done := true }).thr i = { s with sleepPqueue := [], done := true } := by
    rw [setThr_thr, if_pos rfl]
  have hmem : ∀ c, c ∈ R ∨ c ∈ B ∨ c ∈ (w.thr i).sleepPqueue → c ∈ (w₁.thr i).sleepPqueue.reverse ++ R' := by
    intro c hc
    simp only [List.mem_append, List.mem_reverse, hready]
    rcases hc with hc | hc | hc
    · exact .inr (.inl hc)
    · exact .inr (.inr hc)
    · by_cases hn : ((w.thr i).ctx c).prom = none
      · exact .inl (hw.plain c hc hn)
      · exact .inr (.inr ((h.sleep_prom c hc).1 hn))
  refine ⟨_, (w₁.thr i).sleepPqueue.reverse ++ R', hq, ?_, ?_, ?_, fun c => ⟨fun hc => ?_, hmem c⟩⟩
  · constructor
    · rw [hthr]
      exact hp.blocked.trans hl.blocked
    · rw [hthr]
    · rw [hthr]
    · rw [hthr]
      refine ⟨_, hp.ready, fun c hc => List.count_eq_one_of_mem hp.ready.nodup (hmem c ?_)⟩
      rcases hc with hc | hc | hc
      · exact .inr (.inl hc)
      · exact .inl hc
      · exact .inr (.inr hc.1)
    · exact fun c hc p hcp => hw.errors c hc (by simp) p hcp
    · intro c hc
      rw [hthr]
      refine (hp.canceled c).trans ?_
      rcases hc with hc | ⟨hc, hn⟩
      · have hcR : c ∈ R' := (hready c).2 (.inl hc)
        simp [hcR]
      · simp [hw.plain c hc hn]
  · rw [hthr]
    refine ⟨hp.ready, hp.tail, ?_, by simp, List.nodup_nil, by simp, by simp, fun k a b _ ha => by simp at ha, ?_⟩
    · exact hp.blocked.trans hl.blocked
    · rintro c (hc | hc | hc)
      · show c < s.nctx
        rw [hp.nctx]
        rcases List.mem_append.1 hc with hc | hc
        · exact hl.alloc c (.inr (.inr (List.mem_reverse.1 hc)))
        · exact hl.alloc c (.inl hc)
      · cases hc
      · cases hc
  · rw [hthr]
    exact hp.current.trans hw.core.current
  · rcases List.mem_append.1 hc with hc | hc
    · exact .inr (.inr (hw.sleep c (List.mem_reverse.1 hc)))
    · exact ((hready c).1 hc).imp_right .inl

/-- `quit` does its work if and only if its first loop reaches everybody. -/
theorem quit_post_iff (h : Lists (w.thr i) R B) (hB : AllNamed w i B) :
    (∃ w', w.quit i = some w' ∧ QuitPost w w' i R B) ↔ ReachesAll w i R B := by
  constructor
  · rintro ⟨w', hq, hpost⟩
    have hT : ∀ r ∈ visits R B, ((w.thr i).ctx r).prom ≠ none := fun r hr hn => by
      simp only [quit, quitBlocked_none h hB ⟨r, hr, hn⟩, Option.bind_eq_bind, Option.bind_none] at hq
      cases hq
    obtain ⟨w₁, R', B', s, hw, hq', hp⟩ := quit_eq h hB hT
    obtain rfl := Option.some.inj (hq'.symm.trans hq)
    have hb := hpost.blocked
    rw [setThr_thr, if_pos rfl] at hb
    refine ⟨hT, (hw.blocked_nil hB).1 ?_⟩
    have hnil : (w₁.thr i).blocked = none := hp.blocked.symm.trans hb
    exact hw.lists.blocked.unique (chain_nil.2 hnil)
  · intro hr
    obtain ⟨w', -, hq, hpost, -, -, -⟩ := quit_reaches h hB hr
    exact ⟨w', hq, hpost⟩

/-! ## Runs -/

section Runs
variable {w₀ : World V} {ph ph' : Phase} {es : List (Event V)}

/-- The promises of the blocked contexts name this thread. -/
def Named (w : World V) (i : ThreadId) (B : List CtxId) : Prop :=
  ∀ c ∈ B, ∀ p, ((w.thr i).ctx c).prom = some p → (w.prom p).blockedThread = some i

/-- The lists are such that `quit` reaches everybody. -/
def GoodQuit (w : World V) (i : ThreadId) : Prop :=
  ∃ R B, Chain (fun c => ((w.thr i).ctx c).next) (w.thr i).readyHead R ∧
    Chain (fun c => ((w.thr i).ctx c).nextBlocked) (w.thr i).blocked B ∧ Named w i B ∧ ReachesAll w i R B

theorem ThreadOk.allNamed {x : Option CtxId} (h : ThreadOk w i x R B) (hn : Named w i B) : AllNamed w i B where
  named c hc := by
    obtain ⟨p, d, k, -, hp, -⟩ := h.waits c hc
    exact ⟨p, hp, hn c hc p hp⟩
  single := h.single

/-- After such a `quit` the lists are intact: everybody else is ready. -/
theorem PlacedAs.quit (h : PlacedAs R B .out w i) (hg : GoodQuit w i) (hq : w.quit i = some w') :
    Placed .out w' i := by
  obtain ⟨R₀, B₀, hR, hB, hn, hr⟩ := hg
  obtain rfl := h.2.lists.ready.unique hR
  obtain rfl := h.2.lists.blocked.unique hB
  obtain ⟨w₁, R', hq', hpost, hl, hcur, hmem⟩ := quit_reaches h.2.lists (h.2.allNamed hn) hr
  obtain rfl := Option.some.inj (hq'.symm.trans hq)
  obtain ⟨-, -, -, hnctx⟩ := quit_stacks hq
  refine ⟨R', [], by simp, hl, ?_, ?_, by simp, ?_, by simp⟩
  · intro c hc
    rw [runs_of_ne (by simp), hcur] at hc
    obtain ⟨h₁, h₂, h₃⟩ := h.2.out c (by rw [runs_of_ne (by simp)]; exact hc)
    rw [hmem, hpost.sleep]
    exact ⟨by tauto, by simp, by simp⟩
  · intro c hc
    rw [hnctx] at hc
    rw [runs_of_ne (by simp), hcur, hmem]
    have := h.2.cover c hc
    rw [runs_of_ne (by simp)] at this
    tauto
  · rw [hpost.sleep]
    exact fun c hc => nomatch hc

theorem GoodQuit.atStart (h : GoodQuit w₀ i) (hs : AtStart w₀ w) : GoodQuit w i := by
  obtain ⟨t, -, rfl⟩ := hs
  obtain ⟨R, B, hR, hB, hn, hr⟩ := h
  exact ⟨R, B, hR, hB, hn, hr.prom, hr.count⟩

/-- The lists of thread `i` in the middle of a step of it from `w₀`. -/
structure PlacedIn (w₀ : World V) (ph : Phase) (w : World V) (i : ThreadId) : Prop where
  sane : Sane w
  placed : Placed ph w i
  start : ph = .start → AtStart w₀ w

theorem Move.placedIn (hm : Move w₀ i ph w ph' w' es) (hone : OneTimed w₀) (hg : .quitted i ∈ es → GoodQuit w₀ i)
    (h : PlacedIn w₀ ph w i) : PlacedIn w₀ ph' w' i := by
  refine ⟨hm.sane h.sane, ?_, fun e => by subst e; exact hm.atStart h.start⟩
  rcases hm.quitted_cases with hq | ⟨rfl, rfl, rfl, hq⟩
  · exact hm.placed hq hone h.sane.valid h.placed
  · obtain ⟨R, B, hp⟩ := h.placed
    exact (hp.phase (by simp) (by simp)).quit ((hg (by simp)).atStart (h.start rfl)) hq

/-- A step keeps the lists of a thread intact unless it is a `quit` that does not reach everybody. -/
theorem step_placed {a : Action V} (hs : w.step a = some (w', es)) (hone : OneTimed w)
    (hg : .quitted i ∈ es → GoodQuit w i) (hw : Sane w) (h : Placed .out w i) : Sane w' ∧ Placed .out w' i := by
  by_cases hi : a.thread = i
  · have hm := step_moves hs
    rw [hi] at hm
    have hI := hm.inv (fun ph w₁ => PlacedIn w ph w₁ i)
      (fun _ _ _ _ _ hm he hI => hm.placedIn hone (fun hq => hg (he _ hq)) hI)
      ⟨hw, h.imp fun _ => Exists.imp fun _ h => h.phase (by simp) (by simp), fun _ => atStart_refl w⟩
    exact ⟨hI.sane, hI.placed⟩
  · refine (step_moves hs).inv (fun _ w₁ => Sane w₁ ∧ Placed .out w₁ i)
      (fun _ _ _ _ _ hm _ hI => ⟨hm.sane hI.1, ?_⟩) ⟨hw, h⟩
    exact hI.2.imp fun _ => Exists.imp fun _ h => hm.placed_other hI.1.valid (Ne.symm hi) h

/-- Runs in which each `quit` of thread `i` reaches everybody keep the lists of thread `i` intact. -/
theorem placed_run (h : Run step (fun _ w _ e => OneTimed w ∧ (.quitted i ∈ e → GoodQuit w i)) init w es) :
    Placed .out w i :=
  (h.inv (fun _ w => Sane w ∧ Placed .out w i) ⟨sane_init, intact_init.2 i⟩
    (fun _ _ _ _ _ hI hok hs => step_placed hs hok.1 hok.2 hI.1 hI.2)).2

end Runs

end World

end BoostCmt
