import BoostCmt.Lib.Runs
/-!
# Simulation

A system simulates another one if each step of the first is a run of the second,
in most cases of one step or of none, with the events that `g` keeps. Then the runs
of the first are runs of the second, and what holds after those carries over.
-/

namespace Runs

variable {S A E T B F : Type} {step : S → A → Option (S × List E)} {step' : T → B → Option (T × List F)}
  {ok : List E → S → A → List E → Prop} {ok' : List F → T → B → List F → Prop} {s₀ s : S} {t₀ t t' : T} {es : List E}
  {b : B} {e : List F}

/-- A run of one step. -/
theorem Run.single (hs : step' t b = some (t', e)) (hok : ok' [] t b e) : Run step' ok' t t' e := by
  have h : Run step' ok' t t' ([] ++ e) := .snoc .nil hs hok
  rwa [List.nil_append] at h

/-- `t` is an abstract state of `s`, and `g` what the abstract system shows of an event. The relation may use the
events so far, and so may the condition of the abstract run. -/
theorem Run.simulate (R : List E → S → T → Prop) (g : E → Option F) (h0 : R [] s₀ t₀)
    (hs : ∀ es s a s' e t, R es s t → ok es s a e → step s a = some (s', e) →
      ∃ t', Run step' (fun f => ok' (es.filterMap g ++ f)) t t' (e.filterMap g) ∧ R (es ++ e) s' t')
    (h : Run step ok s₀ s es) : ∃ t, Run step' ok' t₀ t (es.filterMap g) ∧ R es s t := by
  induction h with
  | nil => exact ⟨t₀, .nil, h0⟩
  | snoc _ hstep hok ih =>
    obtain ⟨t, hrun, hR⟩ := ih
    rw [List.filterMap_append]
    obtain ⟨t', hrun', hR'⟩ := hs _ _ _ _ _ t hR hok hstep
    exact ⟨t', hrun.append hrun', hR'⟩

/-- The abstract state is a function of the concrete one, and a step is one abstract step or none. -/
theorem Run.project (f : S → T) (g : E → Option F)
    (hs : ∀ es s a s' e, ok es s a e → step s a = some (s', e) →
      (f s' = f s ∧ e.filterMap g = []) ∨
        ∃ b, step' (f s) b = some (f s', e.filterMap g) ∧ ok' (es.filterMap g) (f s) b (e.filterMap g))
    (h : Run step ok s₀ s es) : Run step' ok' (f s₀) (f s) (es.filterMap g) := by
  obtain ⟨t, hrun, rfl⟩ : ∃ t, Run step' ok' (f s₀) t (es.filterMap g) ∧ t = f s := h.simulate (fun _ s t => t = f s) g rfl
    (fun es s a s' e t hR hok hstep => by
      subst hR
      refine ⟨f s', ?_, rfl⟩
      rcases hs es s a s' e hok hstep with ⟨hf, he⟩ | ⟨b, hb, hok'⟩
      · rw [hf, he]
        exact .nil
      · exact .single hb (by rwa [List.append_nil]))
  exact hrun

end Runs
