import Mathlib.Data.List.Nodup
/-!
# Singly linked chains

An intrusive list keeps its links in the nodes. `Chain next h l` says that the
nodes reached from the head `h` through `next` are exactly `l`, and that the
last link is null. Such a chain has no node twice. The lemmas say what the usual
pointer assignments do to the list; each one only asks about the links it reads,
so that the caller's other writes do not matter.
-/

namespace Linked

variable {α : Type}

/-- The nodes reached from `h` through `next` are `l`, and the last link is null. -/
def Chain (next : α → Option α) : Option α → List α → Prop
  | h, [] => h = none
  | h, a :: l => h = some a ∧ Chain next (next a) l

variable {next next' : α → Option α} {h : Option α} {l l' : List α} {a c q t : α}

@[simp] theorem chain_nil : Chain next h [] ↔ h = none := Iff.rfl

@[simp] theorem chain_cons : Chain next h (a :: l) ↔ h = some a ∧ Chain next (next a) l := Iff.rfl

theorem Chain.unique (hl : Chain next h l) (hl' : Chain next h l') : l = l' := by
  induction l generalizing h l' with
  | nil =>
    cases l' with
    | nil => rfl
    | cons b m => simp_all
  | cons a l ih =>
    obtain ⟨rfl, hl⟩ := hl
    cases l' with
    | nil => simp at hl'
    | cons b m =>
      obtain ⟨hb, hm⟩ := hl'
      obtain rfl := Option.some.inj hb
      rw [ih hl hm]

theorem Chain.congr (hl : Chain next h l) (he : ∀ a ∈ l, next' a = next a) : Chain next' h l := by
  induction l generalizing h with
  | nil => exact hl
  | cons a l ih =>
    refine ⟨hl.1, ?_⟩
    rw [he a (by simp)]
    exact ih hl.2 (fun b hb => he b (by simp [hb]))

/-- What follows a node of a chain is a chain. -/
theorem Chain.tail {l₁ l₂ : List α} (hl : Chain next h (l₁ ++ c :: l₂)) : Chain next (next c) l₂ := by
  induction l₁ generalizing h with
  | nil => exact hl.2
  | cons a l₁ ih => exact ih hl.2

/-- A chain that ends in a null link has no cycle. -/
theorem Chain.nodup (hl : Chain next h l) : l.Nodup := by
  induction l generalizing h with
  | nil => exact List.nodup_nil
  | cons a l ih =>
    refine List.nodup_cons.2 ⟨fun ha => ?_, ih hl.2⟩
    -- a second `a` would start the same chain again, one node shorter
    obtain ⟨l₁, l₂, rfl⟩ := List.append_of_mem ha
    have h₁ : Chain next (next a) (l₁ ++ a :: l₂) := hl.2
    have := congrArg List.length (h₁.unique h₁.tail)
    simp at this
    omega

theorem Chain.head_eq (hl : Chain next h l) : h = l.head? := by
  cases l with
  | nil => exact hl
  | cons a l => exact hl.1

/-- Linking a new node behind the last one. -/
theorem Chain.push_back (hl : Chain next h (l ++ [t])) (ht : next' t = some c) (hc : next' c = none)
    (hk : ∀ a ∈ l, next' a = next a) : Chain next' h (l ++ [t] ++ [c]) := by
  induction l generalizing h with
  | nil => exact ⟨hl.1, ht, hc⟩
  | cons a l ih =>
    refine ⟨hl.1, ?_⟩
    rw [hk a (by simp)]
    exact ih hl.2 (fun b hb => hk b (by simp [hb]))

/-- Unlinking the node `c` behind `q`. -/
theorem Chain.unlink {l₁ l₂ : List α} (hl : Chain next h (l₁ ++ q :: c :: l₂)) (hq : next' q = next c)
    (h₁ : ∀ a ∈ l₁, next' a = next a) (h₂ : ∀ a ∈ l₂, next' a = next a) : Chain next' h (l₁ ++ q :: l₂) := by
  induction l₁ generalizing h with
  | nil =>
    refine ⟨hl.1, ?_⟩
    rw [hq]
    exact hl.2.2.congr h₂
  | cons a l₁ ih =>
    refine ⟨hl.1, ?_⟩
    rw [h₁ a (by simp)]
    exact ih hl.2 (fun b hb => h₁ b (by simp [hb]))

end Linked
