import Mathlib.Order.Basic
/-!
# A token that is in at most one place

`n x` is how often the place `x` holds the token. A step may drop the token, carry it from one place to another,
or create it where there is none.
-/

namespace Places

variable {α : Type} {n n' : α → Nat}

/-- All places together hold the token at most once. -/
def AtMostOne (n : α → Nat) : Prop := (∀ x, n x ≤ 1) ∧ ∀ x y, n x ≠ 0 → n y ≠ 0 → x = y

theorem AtMostOne.zero (h : ∀ x, n x = 0) : AtMostOne n :=
  ⟨fun x => by rw [h x]; exact Nat.zero_le 1, fun x _ hx => absurd (h x) hx⟩

theorem AtMostOne.eq_zero (h : AtMostOne n) {x y : α} (hx : n x ≠ 0) (hne : y ≠ x) : n y = 0 := by
  by_contra hy
  exact hne (h.2 y x hy hx)

theorem AtMostOne.mono (h : AtMostOne n) (hle : ∀ x, n' x ≤ n x) : AtMostOne n' := by
  refine ⟨fun x => Nat.le_trans (hle x) (h.1 x), fun x y hx hy => h.2 x y ?_ ?_⟩
  · have := hle x
    omega
  · have := hle y
    omega

/-- The token is carried from `x` to `y`. -/
theorem AtMostOne.carry {x y : α} (h : AtMostOne n) (hxy : x ≠ y) (hle : ∀ z, z ≠ y → n' z ≤ n z)
    (hy : n' y ≤ n y + (n x - n' x)) : AtMostOne n' := by
  by_cases hx : n x = 0
  · refine h.mono (fun z => ?_)
    by_cases hz : z = y
    · subst hz
      omega
    · exact hle z hz
  · -- it was at `x` and nowhere else
    have h1 := h.1 x
    have hy0 := h.eq_zero hx (Ne.symm hxy)
    have hx' := hle x hxy
    have hother : ∀ z, z ≠ x → z ≠ y → n' z = 0 := by
      intro z hzx hzy
      have := hle z hzy
      have := h.eq_zero hx hzx
      omega
    refine ⟨fun z => ?_, fun z z' hz hz' => ?_⟩
    · by_cases hzy : z = y
      · subst hzy
        omega
      · exact Nat.le_trans (hle z hzy) (h.1 z)
    · by_cases hzx : z = x <;> by_cases hzy : z = y <;> by_cases hzx' : z' = x <;> by_cases hzy' : z' = y <;> subst_vars
      all_goals first | rfl | (exfalso; first | exact hz (hother _ hzx hzy) | exact hz' (hother _ hzx' hzy') | omega)

/-- The token is created at `y`. -/
theorem AtMostOne.create {y : α} (h : ∀ x, n x = 0) (hle : ∀ z, z ≠ y → n' z ≤ n z) (hy : n' y ≤ 1) :
    AtMostOne n' := by
  have hother : ∀ z, n' z ≠ 0 → z = y := by
    intro z hz
    by_contra hne
    have := hle z hne
    have := h z
    omega
  refine ⟨fun z => ?_, fun z z' hz hz' => (hother z hz).trans (hother z' hz').symm⟩
  by_cases hz : z = y
  · exact hz ▸ hy
  · have := hle z hz
    have := h z
    omega

end Places
