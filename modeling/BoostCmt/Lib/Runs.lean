import Mathlib.Logic.Basic
/-!
# Runs of a transition system

A system is a step function: an action either is not enabled in a state, or
leads to one next state and emits events. Whoever picks the actions picks the
interleaving, so a theorem about every `Run` is a theorem about every schedule.

A `Run` also carries a condition `ok` that each of its steps meets. `ok` sees
the events so far, the state before the step, the action, and the events the
step emits.
-/

namespace Runs

variable {S A E : Type}

/-- Runs from `s₀` whose steps all meet `ok`: the state after them and the events. -/
inductive Run (step : S → A → Option (S × List E)) (ok : List E → S → A → List E → Prop) (s₀ : S) :
    S → List E → Prop
  | nil : Run step ok s₀ s₀ []
  | snoc {s es a s' e} : Run step ok s₀ s es → step s a = some (s', e) → ok es s a e →
      Run step ok s₀ s' (es ++ e)

variable {step : S → A → Option (S × List E)} {ok ok' : List E → S → A → List E → Prop} {s₀ s : S} {es : List E}

/-- A property that holds at the start and that every step keeps holds after every run. -/
theorem Run.inv (I : List E → S → Prop) (h0 : I [] s₀)
    (hs : ∀ es s a s' e, I es s → ok es s a e → step s a = some (s', e) → I (es ++ e) s')
    (h : Run step ok s₀ s es) : I es s := by
  induction h with
  | nil => exact h0
  | snoc _ hstep hok ih => exact hs _ _ _ _ _ ih hok hstep

/-- One run after another. -/
theorem Run.append {es' : List E} {s' : S} (h : Run step ok s₀ s es) (h' : Run step (fun e => ok (es ++ e)) s s' es') :
    Run step ok s₀ s' (es ++ es') := by
  induction h' with
  | nil =>
    rw [List.append_nil]
    exact h
  | snoc _ hstep hok ih =>
    rw [← List.append_assoc]
    exact ih.snoc hstep hok

/-- A run under a condition is a run under any weaker one. -/
theorem Run.mono (hok : ∀ es s a e, ok es s a e → ok' es s a e) (h : Run step ok s₀ s es) :
    Run step ok' s₀ s es := by
  induction h with
  | nil => exact .nil
  | snoc _ hstep h ih => exact .snoc ih hstep (hok _ _ _ _ h)

/-- The state and the events after a list of actions, if all of them are enabled and pass the check `okb`, which
sees what `ok` sees. -/
def exec (step : S → A → Option (S × List E)) (okb : List E → S → A → List E → Bool) :
    List E → S → List A → Option (S × List E)
  | es, s, [] => some (s, es)
  | es, s, a :: as =>
    match step s a with
    | some (s', e) => if okb es s a e then exec step okb (es ++ e) s' as else none
    | none => none

variable {okb : List E → S → A → List E → Bool}

theorem exec_append (as bs : List A) (es : List E) (s : S) :
    exec step okb es s (as ++ bs) = (exec step okb es s as).bind (fun r => exec step okb r.2 r.1 bs) := by
  induction as generalizing es s with
  | nil => rfl
  | cons a as ih =>
    simp only [List.cons_append, exec]
    split
    · split
      · exact ih _ _
      · rfl
    · rfl

theorem Run.append_exec (I : S → Prop)
    (hI : ∀ es s a s' e, I s → okb es s a e = true → step s a = some (s', e) → I s')
    (hok : ∀ es s a e, I s → okb es s a e = true → ok es s a e) (as : List A) :
    ∀ {s es s' es'}, Run step ok s₀ s es → I s → exec step okb es s as = some (s', es') →
      Run step ok s₀ s' es' ∧ I s' := by
  induction as with
  | nil =>
    intro s es s' es' h hs he
    obtain ⟨rfl, rfl⟩ := Prod.mk.inj (Option.some.inj he)
    exact ⟨h, hs⟩
  | cons a as ih =>
    intro s es s' es' h hs he
    simp only [exec] at he
    split at he
    · next s₁ e hstep =>
      split at he
      · next hb => exact ih (h.snoc hstep (hok _ _ _ _ hs hb)) (hI _ _ _ _ _ hs hb hstep) he
      · cases he
    · cases he

/-- Executing actions that pass the check is a run. The check may rely on an invariant `I`. -/
theorem run_of_exec (I : S → Prop) (h0 : I s₀)
    (hI : ∀ es s a s' e, I s → okb es s a e = true → step s a = some (s', e) → I s')
    (hok : ∀ es s a e, I s → okb es s a e = true → ok es s a e) {as : List A} {f : S → List E → Bool}
    (h : ((exec step okb [] s₀ as).any fun r => f r.1 r.2) = true) :
    ∃ s es, Run step ok s₀ s es ∧ I s ∧ f s es = true := by
  obtain ⟨⟨s, es⟩, he, hf⟩ := (Option.any_eq_true _ _).1 h
  obtain ⟨hrun, hs⟩ := Run.append_exec I hI hok as .nil h0 he
  exact ⟨s, es, hrun, hs, hf⟩

/-- The same where the check needs no invariant. -/
theorem run_of_check (step : S → A → Option (S × List E)) (ok : List E → S → A → List E → Prop)
    (okb : List E → S → A → List E → Bool) (s₀ : S) (f : S → List E → Bool) (as : List A)
    (hok : ∀ es s a e, okb es s a e = true → ok es s a e)
    (h : ((exec step okb [] s₀ as).any fun r => f r.1 r.2) = true) : ∃ s es, Run step ok s₀ s es ∧
    f s es = true := by
  obtain ⟨s, es, hrun, -, hf⟩ := run_of_exec (fun _ => True) trivial (fun _ _ _ _ _ _ _ _ => trivial)
    (fun es s a e _ hb => hok es s a e hb) h
  exact ⟨s, es, hrun, hf⟩

end Runs
