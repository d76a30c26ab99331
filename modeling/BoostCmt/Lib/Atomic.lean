import BoostCmt.Lib.Simulation
/-!
# Atomic objects

An object that any number of agents use, each operation of which takes effect in one
step between its call and its return. An implementation is linearizable if its runs
are runs of such an object with the same calls and returns; `Run.linearizes` is how to
prove it, with the abstract state as a function of the concrete one.
-/

namespace Atomic

open Runs

/-- Where an agent is in its operation. -/
inductive Phase (Op R : Type) where
  | idle
  /-- The operation is called and has not taken effect. -/
  | called (op : Op)
  /-- The operation has taken effect and will return `r`. -/
  | applied (r : R)

/-- The object, and where its agents are. -/
structure State (S Op R : Type) where
  obj : S
  phase : Nat → Phase Op R := fun _ => .idle

inductive Act (Op : Type) where
  | call (k : Nat) (op : Op)
  | apply (k : Nat)
  | ret (k : Nat)
  /-- The call ends before it has taken effect. -/
  | withdraw (k : Nat)

inductive Event (Op R : Type) where
  | called (k : Nat) (op : Op)
  | returned (k : Nat) (r : R)
  | withdrawn (k : Nat)
  deriving DecidableEq

variable {S Op R : Type}

def State.setPhase (t : State S Op R) (k : Nat) (p : Phase Op R) : State S Op R :=
  { t with phase := fun j => if j = k then p else t.phase j }

/-- One step, where `apply` is what an operation does and returns. -/
def step (apply : Op → S → S × R) (t : State S Op R) : Act Op → Option (State S Op R × List (Event Op R))
  | .call k op =>
    match t.phase k with
    | .idle => some (t.setPhase k (.called op), [.called k op])
    | _ => none
  | .apply k =>
    match t.phase k with
    | .called op => some ({ t with obj := (apply op t.obj).1 }.setPhase k (.applied (apply op t.obj).2), [])
    | _ => none
  | .ret k =>
    match t.phase k with
    | .applied r => some (t.setPhase k .idle, [.returned k r])
    | _ => none
  | .withdraw k =>
    match t.phase k with
    | .called _ => some (t.setPhase k .idle, [.withdrawn k])
    | _ => none

variable {apply : Op → S → S × R} {t : State S Op R} {k : Nat} {op : Op} {r : R}

@[simp] theorem setPhase_obj (t : State S Op R) (k : Nat) (p : Phase Op R) : (t.setPhase k p).obj = t.obj := rfl

@[simp] theorem setPhase_phase (t : State S Op R) (k j : Nat) (p : Phase Op R) :
    (t.setPhase k p).phase j = if j = k then p else t.phase j := rfl

theorem step_call (h : t.phase k = .idle) :
    step apply t (.call k op) = some (t.setPhase k (.called op), [.called k op]) := by
  simp only [step, h]

theorem step_apply (h : t.phase k = .called op) : step apply t (.apply k) =
    some ({ t with obj := (apply op t.obj).1 }.setPhase k (.applied (apply op t.obj).2), []) := by
  simp only [step, h]

theorem step_ret (h : t.phase k = .applied r) :
    step apply t (.ret k) = some (t.setPhase k .idle, [.returned k r]) := by
  simp only [step, h]

end Atomic

namespace Runs

open Atomic

variable {C A S Op R : Type} {apply : Op → S → S × R} {step : C → A → Option (C × List (Event Op R))}
  {ok : List (Event Op R) → C → A → List (Event Op R) → Prop} {c₀ c : C} {es : List (Event Op R)}

/-- A system whose steps keep an invariant and are steps of the atomic object, or none at all, is linearizable. -/
theorem Run.linearizes (f : C → State S Op R) (I : C → Prop) (h0 : I c₀)
    (hs : ∀ es c a c' e, I c → ok es c a e → step c a = some (c', e) →
      I c' ∧ ((f c' = f c ∧ e = []) ∨ ∃ b, Atomic.step apply (f c) b = some (f c', e)))
    (h : Run step ok c₀ c es) : Run (Atomic.step apply) (fun _ _ _ _ => True) (f c₀) (f c) es ∧ I c := by
  obtain ⟨t, hrun, rfl, hI⟩ : ∃ t, Run (Atomic.step apply) (fun _ _ _ _ => True) (f c₀) t (es.filterMap some) ∧
      t = f c ∧ I c := h.simulate (fun _ c t => t = f c ∧ I c) some ⟨rfl, h0⟩
    (fun es c a c' e t hR hok hstep => by
      obtain ⟨rfl, hI⟩ := hR
      rw [List.filterMap_some]
      obtain ⟨hI', hstep'⟩ := hs es c a c' e hI hok hstep
      refine ⟨f c', ?_, rfl, hI'⟩
      rcases hstep' with ⟨hf, he⟩ | ⟨b, hb⟩
      · rw [hf, he]
        exact .nil
      · exact .single hb trivial)
  rw [List.filterMap_some] at hrun
  exact ⟨hrun, hI⟩

end Runs
