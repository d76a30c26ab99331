import BoostCmt.Promises
/-!
# Who runs before a context that has yielded

`yield` puts the running context at the end of the ready list. What happens then adds
contexts at either end and takes them from the front, so a context that stood before it
stays before it until it is switched to.
-/

namespace BoostCmt

open Linked Runs ThreadPrivate

variable {V : Type}

namespace World

variable {w₀ w w' : World V} {i : ThreadId} {ph ph' : Phase} {es : List (Event V)} {a : Action V}

/-! ## The ready list around one context -/

/-- The context `c` is ready, and each of the contexts `R` stands before it in `R'` unless it has been visited. -/
def Ahead (R l : List CtxId) (c : CtxId) (R' : List CtxId) : Prop :=
  (∀ r ∈ R, r ∈ l) ∨ ∃ P S, R' = P ++ c :: S ∧ ∀ r ∈ R, r ∈ l ∨ r ∈ P

section Ahead
variable {R l l' R₁ R₁' B B' : List CtxId} {c : CtxId}

theorem Ahead.mono (h : Ahead R l c R₁) (hl : ∀ x ∈ l, x ∈ l') : Ahead R l' c R₁ := by
  rcases h with hall | ⟨P, S, he, hP⟩
  · exact .inl (fun r hr => hl r (hall r hr))
  · exact .inr ⟨P, S, he, fun r hr => (hP r hr).imp_left (hl r)⟩

/-- What a move does to the lists lets nobody overtake: whoever leaves the front is visited. -/
theorem Ahead.relisted {s : ThreadPrivate} {cur next : CtxId} (h : Ahead R l c R₁)
    (hr : Relisted s cur next R₁ B R₁' B') (hl : ∀ x ∈ l, x ∈ l') (hnext : next ∈ l') : Ahead R l' c R₁' := by
  rcases h.mono hl with hall | ⟨P, S, rfl, hP⟩
  · exact .inl hall
  -- the front of the list is visited, or it is `c` and then nobody is left before it
  have hfront : ∀ {X Y : List CtxId}, P ++ c :: S = next :: X → Ahead R l' c (X ++ Y) := by
    intro X Y he
    cases P with
    | nil => exact .inl (fun r hr => (hP r hr).resolve_right (by simp))
    | cons x P =>
      obtain ⟨rfl, rfl⟩ := List.cons.inj he
      refine .inr ⟨P, S ++ Y, by simp, fun r hr => ?_⟩
      rcases hP r hr with hr | hr
      · exact .inl hr
      · exact (List.mem_cons.1 hr).imp_left (fun (e : r = x) => e ▸ hnext)
  generalize hR : P ++ c :: S = R₁ at hr
  cases hr with
  | same | blocks => exact .inr ⟨P, S, hR.symm, hP⟩
  | notified hn =>
    rcases hn with ⟨rfl, -, -⟩ | ⟨B₁, x, B₂, -, -, -, rfl, -⟩
    · exact .inr ⟨P, S, hR.symm, hP⟩
    · exact .inr ⟨x :: P, S, by rw [← hR]; rfl, fun r hr => (hP r hr).imp_right (List.mem_cons_of_mem x)⟩
  | @woken _ _ x => exact .inr ⟨P, S ++ [x], by rw [← hR]; simp, hP⟩
  | pops => simpa using hfront (Y := []) hR
  | turns => exact hfront hR
  | turnsNew => simp at hR

end Ahead

/-! ## One step -/

/-- What is known in the middle of a step from `w₀`, where `l` is the log before it. -/
structure Waiting (R l : List CtxId) (c : CtxId) (w₀ : World V) (i : ThreadId) (ph : Phase) (w : World V) :
    Prop where
  intact : IntactIn ph w i
  first : ph = .start ∨ ph = .suspended → w.cur i = w₀.cur i
  ahead : ∃ R' B', PlacedAs R' B' ph w i ∧ Ahead R (l ++ [w.cur i]) c R'

/-- Only a context that has not been switched to in this step is suspended. -/
theorem Move.unswitched (hm : Move w₀ i ph w ph' w' es) (hph : ph' = .start ∨ ph' = .suspended) :
    ph = .start ∨ ph = .suspended := by
  cases hm with
  | clock | expireSleep | expireWait | check => exact hph
  | sleepOn | waitOn => exact .inl rfl
  | _ => simp at hph

theorem Move.waiting {R l : List CtxId} {c : CtxId} (hm : Move w₀ i ph w ph' w' es) (hq : NoQuit es)
    (hone : OneTimed w₀) (hl : w₀.cur i ∈ l) (h : Waiting R l c w₀ i ph w) : Waiting R l c w₀ i ph' w' := by
  obtain ⟨R₁, B₁, hpl, hah⟩ := h.ahead
  have hv := h.intact.sane.valid
  obtain ⟨R', B', hpl', hrel, -⟩ := hm.relisted hq hone hv hpl
  rcases hm.stackStep_or_switch hv with hst | ⟨r, -, hout, hsw⟩
  · have hcur := hst.cur i
    refine ⟨hm.intactIn hq hone h.intact, fun hph => hcur.trans (h.first (hm.unswitched hph)), R', B', hpl', ?_⟩
    exact hah.relisted hrel (fun x hx => by rwa [hcur]) (by simp)
  · -- the context that is switched away from is in the log already
    have hcur : w.cur i = w₀.cur i := hsw.elim (fun hph => h.first (.inr hph)) And.left
    refine ⟨hm.intactIn hq hone h.intact, fun hph => ?_, R', B', hpl', ?_⟩
    · rw [hout] at hph
      simp at hph
    · refine hah.relisted hrel (fun x hx => ?_) (by simp)
      rcases List.mem_append.1 hx with hx | hx
      · exact List.mem_append_left _ hx
      · rw [List.mem_singleton.1 hx, hcur]
        exact List.mem_append_left _ hl

/-! ## Runs with a log -/

/-- A step, with a log of the contexts that run on thread `i`. -/
def stepVisited (i : ThreadId) (s : World V × List CtxId) (a : Action V) :
    Option ((World V × List CtxId) × List (Event V)) :=
  (s.1.step a).map fun r => ((r.1, s.2 ++ [r.1.cur i]), r.2)

theorem stepVisited_step {s s' : World V × List CtxId} {a : Action V} {es : List (Event V)}
    (h : stepVisited i s a = some (s', es)) : s.1.step a = some (s'.1, es) := by
  obtain ⟨⟨w', e⟩, hw, he⟩ := Option.map_eq_some_iff.1 h
  obtain ⟨rfl, rfl⟩ := Prod.mk.inj he
  exact hw

/-- Between two steps: `c` waits for its turn, and whoever of `R` has had none is before it. -/
structure WaitsTurn (R l : List CtxId) (c : CtxId) (i : ThreadId) (w : World V) : Prop where
  intact : Intact w
  logged : w.cur i ∈ l
  ahead : ∃ R' B', PlacedAs R' B' .out w i ∧ Ahead R l c R'

theorem WaitsTurn.step {R l : List CtxId} {c : CtxId} (h : WaitsTurn R l c i w) (hs : w.step a = some (w', es))
    (hq : NoQuit es) (hone : OneTimed w) : WaitsTurn R (l ++ [w'.cur i]) c i w' := by
  obtain ⟨R', B', hpl, hah⟩ := h.ahead
  have hintact := h.intact.step hs hq hone
  by_cases hi : a.thread = i
  · subst hi
    have hstart : Waiting R l c w a.thread .start w :=
      ⟨h.intact.start _, fun _ => rfl, R', B', hpl.phase (by simp) (by simp), hah.mono (fun x hx => List.mem_append_left _ hx)⟩
    have hend := (step_moves hs).inv (fun ph u => Waiting R l c w a.thread ph u)
      (fun _ _ _ _ _ hm he hI => hm.waiting (fun j hj => hq j (he _ hj)) hone h.logged hI) hstart
    exact ⟨hintact, by simp, hend.ahead⟩
  · have hother := (step_moves hs).inv (fun ph u => Sane u ∧ PlacedAs R' B' .out u i)
      (fun _ _ _ _ _ hm _ hI => ⟨hm.sane hI.1, hm.placed_other hI.1.valid (Ne.symm hi) hI.2⟩) ⟨h.intact.1, hpl⟩
    exact ⟨hintact, by simp, R', B', hother.2, hah.mono (fun x hx => List.mem_append_left _ hx)⟩

/-- The call of `yield`, by the code outside the library or by `mutex::lock`: the first ready context runs, and the
one that has called is the last. -/
theorem yield_waits {w₁ v : World V} {t tm : Int} {e e' : List (Event V)} {R : List CtxId} (h : Intact w)
    (hone : OneTimed w) (hy : a = .call i t .yield ∨ a = .contend i t) (hs : w.step a = some (w₁, e))
    (hc : (w.setNow t).checkForTimeouts i = some (tm, v, e'))
    (hR : Chain (fun c => ((v.thr i).ctx c).next) (v.thr i).readyHead R) (hne : R ≠ []) :
    WaitsTurn R [w₁.cur i] (w.cur i) i w₁ := by
  obtain ⟨hnow, hmax, hstart⟩ : w.now ≤ t ∧ t ≤ timePointMax ∧
      (w.setNow t).startNextTask i true (.yield :: w.cpu i) = some (w₁, e) := by
    rcases hy with rfl | rfl <;> simp only [step] at hs <;> split at hs
    · next ht =>
      refine ⟨ht.1, ht.2, ?_⟩
      split at hs
      · exact hs
      · exact hs
      · cases hs
    · cases hs
    · next ht => exact ⟨ht.1, ht.2.1, hs⟩
    · cases hs
  simp only [startNextTask, hc, Option.bind_eq_bind, Option.bind_some] at hstart
  obtain ⟨rfl, rfl⟩ := Prod.mk.inj (Option.some.inj hstart)
  have hq : NoQuit e' := fun j hj => by
    obtain ⟨_, _, hx⟩ := checkForTimeouts_events hc hj
    cases hx
  have hintact := h.step hs hq hone
  -- the lists after the check
  have hv : IntactIn .out v i := by
    have hm : Moves w i .start w .out v ([] ++ ([] ++ e')) :=
      .cons (.clock hnow hmax) (.cons .go (checkForTimeouts_moves w (by simp) hc).1)
    exact hm.inv (fun ph u => IntactIn ph u i)
      (fun _ _ _ _ _ hm he hI => hm.intactIn (fun j hj => hq j (by simpa using he _ hj)) hone hI) (h.start i)
  obtain ⟨R₀, B, hpl⟩ := hv.placed
  obtain rfl : R₀ = R := hpl.2.lists.ready.unique hR
  have hvalid := hv.sane.valid
  have hpl' := hpl.setCpu (hvalid i) (.yield :: w.cpu i)
  have hvalid' : Valid (v.setCpu i (.yield :: w.cpu i)) := hvalid
  have hok := hpl'.2.ensureCurrent (hvalid' i)
  have hsw := ThreadOk.switch (r := true) hvalid' hok
  have hcur : (v.thr i).ensureCurrent.1 = w.cur i :=
    (hvalid i).ensureCurrent.2.2.1.trans (checkForTimeouts_cur hc i)
  rw [setCpu_cpu, if_pos rfl, switch_setCpu, if_pos rfl] at hsw
  cases R₀ with
  | nil => exact absurd rfl hne
  | cons x R =>
    have hl := hok.lists
    rw [setThr_thr, if_pos rfl] at hl
    have hx : (v.switch i true (.yield :: w.cpu i)).cur i = x := switch_cur hl
    refine ⟨hintact, by simp, R ++ [w.cur i], B, ⟨by simp, ?_⟩, .inr ⟨R, [], rfl, fun r hr => ?_⟩⟩
    · rw [← hcur]
      exact hsw
    · rw [hx]
      exact (List.mem_cons.1 hr).imp_left (fun (e : r = x) => e ▸ List.mem_singleton_self _)

/-- The check of a step on the threads below `N`. -/
def visitedCheck (N : Nat) (w : World V) (e : List (Event V)) : Bool :=
  singleWaiterCheck N w && e.all fun x => !(x matches .quitted _)

theorem visitedCheck_sound {N : Nat} {e : List (Event V)} (hs : Small N w) (h : visitedCheck N w e = true) :
    OneTimed w ∧ NoQuit e := by
  simp only [visitedCheck, Bool.and_eq_true, List.all_eq_true] at h
  exact ⟨(singleWaiterCheck_sound hs h.1).oneTimed, fun j hj => by simpa using h.2 _ hj⟩

end World

end BoostCmt
