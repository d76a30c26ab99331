import Mathlib.Data.List.Perm.Basic
/-!
# The standard heap algorithms

`push_heap`, `pop_heap` and `make_heap` over a vector and a comparator, as C++
specifies them: the range is a heap when no element compares less than one of
its children, so the front is the largest element. The sift operations are the
usual swaps along one path. What the callers use is that each algorithm only
permutes its range, that it leaves a heap, and that the front of a heap is
extremal.
-/

namespace StdHeap

variable {α : Type}

/-- What C++ asks of a comparator, in the two forms the proofs use. -/
structure StrictWeak (lt : α → α → Bool) : Prop where
  asymm : ∀ {a b}, lt a b = true → lt b a = false
  not_trans : ∀ {a b c}, lt a b = false → lt b c = false → lt a c = false

theorem StrictWeak.irrefl {lt : α → α → Bool} (h : StrictWeak lt) (a : α) : lt a a = false := by
  cases e : lt a a with
  | false => rfl
  | true => exact e.symm.trans (h.asymm e)

def parent (i : Nat) : Nat := (i - 1) / 2

/-- `std::is_heap`: no parent compares less than its child. -/
def IsHeap (lt : α → α → Bool) (v : List α) : Prop :=
  ∀ i a b, 0 < i → v[parent i]? = some a → v[i]? = some b → lt a b = false

def swap (v : List α) (i j : Nat) : List α :=
  match v[i]?, v[j]? with
  | some a, some b => (v.set i b).set j a
  | _, _ => v

/-- Moves the element at `i` up until its parent does not compare less. -/
def siftUp (lt : α → α → Bool) : Nat → List α → Nat → List α
  | 0, v, _ => v
  | fuel + 1, v, i =>
    match v[parent i]?, v[i]? with
    | some a, some b => if lt a b then siftUp lt fuel (swap v (parent i) i) (parent i) else v
    | _, _ => v

/-- The larger child of `i`, if `i` has a child. -/
def largerChild (lt : α → α → Bool) (v : List α) (i : Nat) : Option Nat :=
  match v[2 * i + 1]?, v[2 * i + 2]? with
  | some l, some r => some (if lt l r then 2 * i + 2 else 2 * i + 1)
  | some _, none => some (2 * i + 1)
  | _, _ => none

/-- Moves the element at `i` down until it does not compare less than a child. -/
def siftDown (lt : α → α → Bool) : Nat → List α → Nat → List α
  | 0, v, _ => v
  | fuel + 1, v, i =>
    match largerChild lt v i with
    | none => v
    | some c =>
      match v[i]?, v[c]? with
      | some a, some b => if lt a b then siftDown lt fuel (swap v i c) c else v
      | _, _ => v

/-- `std::push_heap`: the range but its last element is a heap, and the last one is moved into place. -/
def pushHeap (lt : α → α → Bool) (v : List α) : List α := siftUp lt v.length v (v.length - 1)

/-- `std::pop_heap`: the front goes to the end, and the rest is a heap again. -/
def popHeap (lt : α → α → Bool) : List α → List α
  | [] => []
  | a :: v =>
    match v.getLast? with
    | none => [a]
    | some z => siftDown lt v.length (z :: v.dropLast) 0 ++ [a]

/-- `std::make_heap`. -/
def makeHeap (lt : α → α → Bool) (v : List α) : List α :=
  v.foldl (fun h x => pushHeap lt (h ++ [x])) []

/-! ## Swaps -/

theorem swap_eq {v : List α} {i j : Nat} (hi : i < v.length) (hj : j < v.length) :
    swap v i j = (v.set i v[j]).set j v[i] := by
  simp [swap, List.getElem?_eq_getElem hi, List.getElem?_eq_getElem hj]

theorem swap_perm (v : List α) (i j : Nat) : (swap v i j).Perm v := by
  by_cases hi : i < v.length
  · by_cases hj : j < v.length
    · rw [swap_eq hi hj]
      exact List.set_set_perm hi hj
    · simp [swap, List.getElem?_eq_none (Nat.le_of_not_lt hj)]
  · simp [swap, List.getElem?_eq_none (Nat.le_of_not_lt hi)]

theorem getElem?_swap {v : List α} {i j : Nat} (hi : i < v.length) (hj : j < v.length) (hne : i ≠ j) (k : Nat) :
    (swap v i j)[k]? = if k = i then v[j]? else if k = j then v[i]? else v[k]? := by
  rw [swap_eq hi hj]
  grind

/-! ## Each algorithm permutes its range -/

theorem siftUp_perm (lt : α → α → Bool) (fuel : Nat) (v : List α) (i : Nat) : (siftUp lt fuel v i).Perm v := by
  induction fuel generalizing v i with
  | zero => exact .refl _
  | succ fuel ih =>
    simp only [siftUp]
    split
    · split
      · exact (ih _ _).trans (swap_perm _ _ _)
      · exact .refl _
    · exact .refl _

theorem siftDown_perm (lt : α → α → Bool) (fuel : Nat) (v : List α) (i : Nat) : (siftDown lt fuel v i).Perm v := by
  induction fuel generalizing v i with
  | zero => exact .refl _
  | succ fuel ih =>
    simp only [siftDown]
    split
    · exact .refl _
    · split
      · split
        · exact (ih _ _).trans (swap_perm _ _ _)
        · exact .refl _
      · exact .refl _

theorem pushHeap_perm (lt : α → α → Bool) (v : List α) : (pushHeap lt v).Perm v := siftUp_perm _ _ _ _

theorem makeHeap_perm (lt : α → α → Bool) (v : List α) : (makeHeap lt v).Perm v := by
  have h : ∀ w : List α, (v.foldl (fun h x => pushHeap lt (h ++ [x])) w).Perm (w ++ v) := by
    induction v with
    | nil => intro w; simp
    | cons x v ih =>
      intro w
      refine (ih _).trans ?_
      refine ((pushHeap_perm lt (w ++ [x])).append_right v).trans ?_
      simp
  simpa [makeHeap] using h []

/-- What is left of a heap after `pop_heap` and `pop_back`. -/
theorem popHeap_cons (lt : α → α → Bool) (a : α) (v : List α) :
    ∃ w, popHeap lt (a :: v) = w ++ [a] ∧ w.Perm v := by
  simp only [popHeap]
  cases h : v.getLast? with
  | none => exact ⟨[], by simp, by simp [List.getLast?_eq_none_iff.1 h]⟩
  | some z =>
    refine ⟨_, rfl, (siftDown_perm _ _ _ _).trans ?_⟩
    obtain ⟨ys, rfl⟩ := List.getLast?_eq_some_iff.1 h
    simp only [List.dropLast_concat]
    exact (List.perm_append_singleton z ys).symm

theorem popHeap_dropLast_perm (lt : α → α → Bool) (a : α) (v : List α) :
    (popHeap lt (a :: v)).dropLast.Perm v := by
  obtain ⟨u, hu, hperm⟩ := popHeap_cons lt a v
  rw [hu, List.dropLast_concat]
  exact hperm

/-! ## Each algorithm leaves a heap -/

section Order
variable {lt : α → α → Bool}

/-- What `siftUp` needs: every pair but the one above `i` is in order, and the
children of `i` are in order with its parent. -/
structure UpOrder (lt : α → α → Bool) (v : List α) (i : Nat) : Prop where
  except : ∀ k a b, 0 < k → k ≠ i → v[parent k]? = some a → v[k]? = some b → lt a b = false
  grand : ∀ k a b, 0 < k → parent k = i → 0 < i → v[parent i]? = some a → v[k]? = some b → lt a b = false

/-- What `siftDown` needs: every pair but those below `i` is in order, and the
children of `i` are in order with its parent. -/
structure DownOrder (lt : α → α → Bool) (v : List α) (i : Nat) : Prop where
  except : ∀ k a b, 0 < k → parent k ≠ i → v[parent k]? = some a → v[k]? = some b → lt a b = false
  grand : ∀ k a b, 0 < k → parent k = i → 0 < i → v[parent i]? = some a → v[k]? = some b → lt a b = false

theorem lt_length_of_some {v : List α} {i : Nat} {a : α} (h : v[i]? = some a) : i < v.length :=
  (List.getElem?_eq_some_iff.1 h).1

theorem UpOrder.move (hlt : StrictWeak lt) {v : List α} {i : Nat} {a b : α} (o : UpOrder lt v i) (hi : 0 < i)
    (ha : v[parent i]? = some a) (hb : v[i]? = some b) (hab : lt a b = true) :
    UpOrder lt (swap v (parent i) i) (parent i) := by
  have hp : parent i < i := by unfold parent; omega
  have hsw := getElem?_swap (lt_length_of_some ha) (lt_length_of_some hb) (Nat.ne_of_lt hp)
  constructor
  · intro k x y hk hkp hx hy
    have hpk : parent k < k := by unfold parent; omega
    rw [hsw] at hx hy
    grind [UpOrder, StrictWeak]
  · intro k x y hk hkp hpos hx hy
    have hpk : parent k < k := by unfold parent; omega
    have hpp : parent (parent i) < parent i := by unfold parent at *; omega
    rw [hsw] at hx hy
    have := o.except (parent i)
    grind [UpOrder, StrictWeak]

/-- `siftUp` repairs the one pair that may be out of order. -/
theorem siftUp_heap (hlt : StrictWeak lt) (fuel : Nat) (v : List α) (i : Nat) (hf : i ≤ fuel)
    (o : UpOrder lt v i) : IsHeap lt (siftUp lt fuel v i) := by
  induction fuel generalizing v i with
  | zero =>
    intro k a b hk
    exact o.except k a b hk (by omega)
  | succ fuel ih =>
    simp only [siftUp]
    split
    · rename_i a b ha hb
      split
      · rename_i hab
        have hi : 0 < i := by
          rcases Nat.eq_zero_or_pos i with rfl | h
          · -- the root is its own `parent`, and no element compares less than itself
            have : a = b := Option.some.inj (ha.symm.trans hb)
            rw [this, hlt.irrefl] at hab
            cases hab
          · exact h
        exact ih _ _ (by unfold parent; omega) (o.move hlt hi ha hb hab)
      · intro k x y hk hx hy
        by_cases h : k = i <;> grind [UpOrder]
    · intro k x y hk hx hy
      by_cases h : k = i <;> grind [UpOrder]

/-- `push_heap` after `push_back` of `x`. -/
theorem pushHeap_heap (hlt : StrictWeak lt) {v : List α} (h : IsHeap lt v) (x : α) :
    IsHeap lt (pushHeap lt (v ++ [x])) := by
  refine siftUp_heap hlt _ _ _ (by simp) ⟨?_, ?_⟩
  · intro k a b hk hne ha hb
    have hkl := lt_length_of_some hb
    simp only [List.length_append, List.length_singleton] at hkl hne
    have hpk : parent k < k := by unfold parent; omega
    rw [List.getElem?_append_left (by omega)] at ha hb
    exact h k a b hk ha hb
  · intro k a b hk hpar _ _ hb
    have hkl := lt_length_of_some hb
    simp only [List.length_append, List.length_singleton] at hkl hpar
    unfold parent at hpar
    omega

theorem makeHeap_heap (hlt : StrictWeak lt) (v : List α) : IsHeap lt (makeHeap lt v) := by
  have h : ∀ w : List α, IsHeap lt w → IsHeap lt (v.foldl (fun h x => pushHeap lt (h ++ [x])) w) := by
    induction v with
    | nil => intro w hw; exact hw
    | cons x v ih => intro w hw; exact ih _ (pushHeap_heap hlt hw x)
  exact h [] (fun i a b _ ha => by simp at ha)

/-- The larger child is a child, and no child of `i` compares greater. -/
theorem largerChild_spec (hlt : StrictWeak lt) {v : List α} {i c : Nat} (h : largerChild lt v i = some c) :
    0 < c ∧ parent c = i ∧ c < v.length ∧
      ∀ k x y, 0 < k → parent k = i → v[c]? = some x → v[k]? = some y → lt x y = false := by
  unfold largerChild at h
  have hpar : ∀ k, 0 < k → parent k = i → k = 2 * i + 1 ∨ k = 2 * i + 2 := by
    intro k hk hp; unfold parent at hp; omega
  split at h
  · rename_i l r hl hr
    split at h <;> rename_i hc <;> obtain rfl := Option.some.inj h
    · refine ⟨by omega, by unfold parent; omega, lt_length_of_some hr, fun k x y hk hp hx hy => ?_⟩
      rcases hpar k hk hp with rfl | rfl
      · have := hlt.asymm hc; simp_all
      · have := hlt.irrefl x; simp_all
    · refine ⟨by omega, by unfold parent; omega, lt_length_of_some hl, fun k x y hk hp hx hy => ?_⟩
      rcases hpar k hk hp with rfl | rfl
      · have := hlt.irrefl x; simp_all
      · simp_all
  · rename_i l hl hr
    obtain rfl := Option.some.inj h
    refine ⟨by omega, by unfold parent; omega, lt_length_of_some hl, fun k x y hk hp hx hy => ?_⟩
    rcases hpar k hk hp with rfl | rfl
    · have := hlt.irrefl x; simp_all
    · simp_all
  · cases h

theorem largerChild_none {v : List α} {i k : Nat} (h : largerChild lt v i = none) (hk : 0 < k)
    (hp : parent k = i) : v[k]? = none := by
  have hk2 : k = 2 * i + 1 ∨ k = 2 * i + 2 := by unfold parent at hp; omega
  unfold largerChild at h
  cases hl : v[2 * i + 1]? with
  | none =>
    rcases hk2 with rfl | rfl
    · exact hl
    · rw [List.getElem?_eq_none_iff] at hl ⊢; omega
  | some l => cases hr : v[2 * i + 2]? <;> simp [hl, hr] at h

theorem DownOrder.move (hlt : StrictWeak lt) {v : List α} {i c : Nat} {a b : α} (o : DownOrder lt v i)
    (hc : largerChild lt v i = some c) (ha : v[i]? = some a) (hb : v[c]? = some b) (hab : lt a b = true) :
    DownOrder lt (swap v i c) c := by
  obtain ⟨hc0, hpc, hcl, hmax⟩ := largerChild_spec hlt hc
  have hic : i < c := by rw [← hpc]; unfold parent; omega
  have hsw := getElem?_swap (lt_length_of_some ha) hcl (Nat.ne_of_lt hic)
  constructor
  · intro k x y hk hkp hx hy
    have hpk : parent k < k := by unfold parent; omega
    rw [hsw] at hx hy
    by_cases hki : k = i
    · -- above `i`: the larger child is in order with the parent of `i`
      subst hki
      rw [if_neg (by omega), if_neg (by omega)] at hx
      rw [if_pos rfl] at hy
      exact o.grand c x y hc0 hpc hk hx hy
    · rw [if_neg hki] at hy
      by_cases hpi : parent k = i
      · rw [if_pos hpi] at hx
        by_cases hkc : k = c
        · -- the swapped pair itself
          rw [if_pos hkc, ha] at hy
          rw [hb] at hx
          obtain rfl := Option.some.inj hx
          obtain rfl := Option.some.inj hy
          exact hlt.asymm hab
        · rw [if_neg hkc] at hy
          exact hmax k x y hk hpi hx hy
      · rw [if_neg hpi, if_neg hkp] at hx
        rw [if_neg (by rintro rfl; exact hpi hpc)] at hy
        exact o.except k x y hk hpi hx hy
  · intro k x y hk hkp _ hx hy
    have hpk : parent k < k := by unfold parent; omega
    rw [hsw, if_pos hpc] at hx
    rw [hsw, if_neg (by omega), if_neg (by omega)] at hy
    exact o.except k x y hk (by omega) (hkp ▸ hx) hy

/-- `siftDown` repairs the pairs below `i`. -/
theorem siftDown_heap (hlt : StrictWeak lt) (fuel : Nat) (v : List α) (i : Nat) (hf : v.length ≤ i + fuel)
    (o : DownOrder lt v i) : IsHeap lt (siftDown lt fuel v i) := by
  induction fuel generalizing v i with
  | zero =>
    intro k a b hk ha hb
    have hkl : k < v.length := lt_length_of_some hb
    have hpk : parent k < k := by unfold parent; omega
    exact o.except k a b hk (by omega) ha hb
  | succ fuel ih =>
    simp only [siftDown]
    cases hc : largerChild lt v i with
    | none =>
      intro k a b hk ha hb
      by_cases hp : parent k = i
      · rw [largerChild_none hc hk hp] at hb; cases hb
      · exact o.except k a b hk hp ha hb
    | some c =>
      obtain ⟨hc0, hpc, hcl, hmax⟩ := largerChild_spec hlt hc
      have hic : i < c := by rw [← hpc]; unfold parent; omega
      simp only [List.getElem?_eq_getElem hcl, List.getElem?_eq_getElem (Nat.lt_trans hic hcl)]
      split
      · rename_i hab
        refine ih _ _ ?_ (o.move hlt hc (List.getElem?_eq_getElem _) (List.getElem?_eq_getElem hcl) hab)
        rw [(swap_perm v i c).length_eq]
        omega
      · rename_i hab
        intro k x y hk hx hy
        by_cases hp : parent k = i
        · -- `v[i]` is not below the larger child, and that is not below the child `k`
          have h1 : lt v[i] v[c] = false := by simpa using hab
          have h2 := hmax k v[c] y hk hp (List.getElem?_eq_getElem hcl) hy
          rw [hp, List.getElem?_eq_getElem (Nat.lt_trans hic hcl)] at hx
          obtain rfl := Option.some.inj hx
          exact hlt.not_trans h1 h2
        · exact o.except k x y hk hp hx hy

/-- `pop_heap` puts the front last; `pop_back` then leaves a heap of the others. -/
theorem popHeap_heap (hlt : StrictWeak lt) {a : α} {v : List α} (h : IsHeap lt (a :: v)) :
    IsHeap lt (popHeap lt (a :: v)).dropLast := by
  simp only [popHeap]
  cases hz : v.getLast? with
  | none => intro i x y _ hx; simp at hx
  | some z =>
    obtain ⟨ys, rfl⟩ := List.getLast?_eq_some_iff.1 hz
    simp only [List.dropLast_concat]
    refine siftDown_heap hlt _ _ _ (by simp) ⟨?_, ?_⟩
    · intro k x y hk hp hx hy
      -- away from the root the vector is unchanged
      have hkl := lt_length_of_some hy
      simp only [List.length_cons] at hkl
      have hpk : parent k < k := by unfold parent; omega
      refine h k x y hk ?_ ?_
      · obtain ⟨m, hm⟩ := Nat.exists_eq_succ_of_ne_zero hp
        rw [hm] at hx ⊢
        simp only [Nat.succ_eq_add_one, List.getElem?_cons_succ] at hx ⊢
        rw [List.getElem?_append_left (by omega)]
        exact hx
      · obtain ⟨m, hm⟩ := Nat.exists_eq_succ_of_ne_zero (Nat.ne_of_gt hk)
        rw [hm] at hy ⊢
        simp only [Nat.succ_eq_add_one, List.getElem?_cons_succ] at hy ⊢
        rw [List.getElem?_append_left (by omega)]
        exact hy
    · intro k x y _ _ h0
      exact absurd h0 (Nat.lt_irrefl _)

/-- The front of a heap is extremal: it does not compare less than any element. -/
theorem IsHeap.front (hlt : StrictWeak lt) {a : α} {v : List α} (h : IsHeap lt (a :: v)) :
    ∀ x ∈ a :: v, lt a x = false := by
  have key : ∀ (i : Nat) (x : α), (a :: v)[i]? = some x → lt a x = false := by
    intro i
    induction i using Nat.strongRecOn with
    | _ i ih =>
      intro x hx
      rcases Nat.eq_zero_or_pos i with rfl | hi
      · obtain rfl : a = x := by simpa using hx
        exact hlt.irrefl a
      · have hp : parent i < i := by unfold parent; omega
        have hpl : parent i < (a :: v).length := Nat.lt_trans hp (lt_length_of_some hx)
        have h1 := ih (parent i) hp _ (List.getElem?_eq_getElem hpl)
        exact hlt.not_trans h1 (h i _ x hi (List.getElem?_eq_getElem hpl) hx)
  intro x hx
  obtain ⟨i, hi⟩ := List.getElem?_of_mem hx
  exact key i x hi

/-- Only the comparisons between elements of the range matter. -/
theorem IsHeap.congr {lt' : α → α → Bool} {v : List α} (h : IsHeap lt v)
    (he : ∀ a ∈ v, ∀ b ∈ v, lt' a b = lt a b) : IsHeap lt' v := by
  intro i a b hi ha hb
  rw [he a (List.mem_of_getElem? ha) b (List.mem_of_getElem? hb)]
  exact h i a b hi ha hb

end Order

end StdHeap
