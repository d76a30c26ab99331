import BoostCmt.Notify
import BoostCmt.Promises
/-!
# Switching to another context

`start_next_task` asserts that the context it takes from the ready list is not
the current one. A context that goes to sleep or blocks is on a list already when
`start_next_task` runs `check_for_timeouts`, which can make that very context
ready. `startsNext` is the state in which an action calls `start_next_task`, and
`nextNeCurrent` the assertion there.
-/

namespace BoostCmt

open ThreadPrivate StdHeap Linked Runs

variable {V : Type}

namespace World

/-- The call of `start_next_task` that an action makes: the state it is made in, its argument and the stack of the
context that makes it. -/
def startsNext (w : World V) : Action V → Option (World V × Bool × List (Frame V))
  | .call i t .yield => some (w.setNow t, true, .yield :: w.cpu i)
  | .call i t (.sleepUntil tp) =>
    if (w.thr i).done then none
    else
      let (cur, s) := (w.thr i).ensureCurrent
      some ((w.setThr i (s.sleepOn cur tp)).setNow t, false, .sleep :: w.cpu i)
  | .run i t₁ t₂ t₃ =>
    match w.cpu i with
    | .wait .block p d :: k =>
      if d < t₁ then none
      else
        let (cur, s) := (w.thr i).ensureCurrent
        some (((w.setNow t₁).setThr i (s.waitOn cur p d)).setNow t₂, false, .wait .resumed p d :: k)
    | .processTasks .tests tm :: k =>
      if (w.thr i).blocked = none ∧ (w.thr i).done = true ∨ tm = timePointMin ∨
      (w.thr i).readyHead = none then none
      else some (w.setNow t₃, true, .processTasks .switched tm :: k)
    | _ => none
  | .contend i t => some (w.setNow t, true, .yield :: w.cpu i)
  | _ => none

/-- The assertion `next != current` of `start_next_task`. It is evaluated after `check_for_timeouts`, if some
context is ready. -/
def nextNeCurrent (w : World V) (i : ThreadId) : Bool :=
  (w.checkForTimeouts i).all fun r => (r.2.1.thr i).readyHead != some (r.2.1.thr i).ensureCurrent.1

/-- A step of an action that calls `start_next_task` is that call. -/
theorem step_startsNext {w w' w₁ : World V} {a : Action V} {es : List (Event V)} {r : Bool} {k : List (Frame V)}
    (hs : w.step a = some (w', es)) (hn : w.startsNext a = some (w₁, r, k)) :
    w₁.startNextTask a.thread r k = some (w', es) := by
  cases a with
  | tick t => cases hn
  | finish i o => cases hn
  | contend i t =>
    obtain ⟨rfl, rfl, rfl⟩ : _ = w₁ ∧ true = r ∧ _ = k := by simpa [startsNext] using hn
    simp only [step] at hs
    split at hs
    · exact hs
    · cases hs
  | call i t c =>
    have hc : w.stepCall i t (w.cpu i) c = some (w', es) := by
      simp only [step] at hs
      split at hs
      · split at hs <;> simp_all
      · cases hs
    cases c with
    | yield =>
      obtain ⟨rfl, rfl, rfl⟩ : _ = w₁ ∧ true = r ∧ _ = k := by simpa [startsNext] using hn
      exact hc
    | sleepUntil tp =>
      simp only [startsNext] at hn
      split at hn
      · cases hn
      · next hd =>
        obtain ⟨rfl, rfl, rfl⟩ : _ = w₁ ∧ false = r ∧ _ = k := by simpa using hn
        simp only [stepCall, if_neg hd] at hc
        exact hc
    | _ => cases hn
  | run i t₁ t₂ t₃ =>
    have hr : w.stepRun i t₁ t₂ t₃ = some (w', es) := by
      simp only [step] at hs
      split at hs
      · exact hs
      · cases hs
    simp only [startsNext] at hn
    split at hn
    · next p d k' hcpu =>
      split at hn
      · cases hn
      · next hd =>
        obtain ⟨rfl, rfl, rfl⟩ : _ = w₁ ∧ false = r ∧ _ = k := by simpa using hn
        simp only [stepRun, hcpu, stepWait, if_neg hd] at hr
        exact hr
    · next tm k' hcpu =>
      split at hn
      · cases hn
      · next hd =>
        obtain ⟨rfl, rfl, rfl⟩ : _ = w₁ ∧ true = r ∧ _ = k := by simpa using hn
        simp only [not_or] at hd
        simp only [stepRun, hcpu, stepProcessTasks, if_neg hd.1, if_neg hd.2.1, if_neg hd.2.2] at hr
        exact hr
    · cases hn

/-- The three kinds of calls of `start_next_task`. -/
theorem startsNext_cases {w w' w₁ : World V} {a : Action V} {es : List (Event V)} {r : Bool} {k : List (Frame V)}
    (hs : w.step a = some (w', es)) (hn : w.startsNext a = some (w₁, r, k)) :
    (∃ t, w.now ≤ t ∧ t ≤ timePointMax ∧ w₁ = w.setNow t) ∨
      (∃ i t tp, a = .call i t (.sleepUntil tp) ∧
        w₁ = (w.setThr i ((w.thr i).ensureCurrent.2.sleepOn (w.thr i).ensureCurrent.1 tp)).setNow t ∧
        k = .sleep :: w.cpu i) ∨
      ∃ i t₁ t₂ t₃ p d k', a = .run i t₁ t₂ t₃ ∧ w.cpu i = .wait .block p d :: k' ∧
        w₁ = ((w.setNow t₁).setThr i ((w.thr i).ensureCurrent.2.waitOn (w.thr i).ensureCurrent.1 p d)).setNow t₂ ∧
        k = .wait .resumed p d :: k' := by
  cases a with
  | tick t => cases hn
  | finish i o => cases hn
  | contend i t =>
    obtain ⟨rfl, -, -⟩ : _ = w₁ ∧ true = r ∧ _ = k := by simpa [startsNext] using hn
    simp only [step] at hs
    split at hs
    · next ht => exact .inl ⟨t, ht.1, ht.2.1, rfl⟩
    · cases hs
  | call i t c =>
    have ht : w.now ≤ t ∧ t ≤ timePointMax := by
      simp only [step] at hs
      split at hs
      · next ht => exact ht
      · cases hs
    cases c with
    | yield =>
      obtain ⟨rfl, -, -⟩ : _ = w₁ ∧ true = r ∧ _ = k := by simpa [startsNext] using hn
      exact .inl ⟨t, ht.1, ht.2, rfl⟩
    | sleepUntil tp =>
      simp only [startsNext] at hn
      split at hn
      · cases hn
      · obtain ⟨rfl, -, rfl⟩ : _ = w₁ ∧ false = r ∧ _ = k := by simpa using hn
        exact .inr (.inl ⟨i, t, tp, rfl, rfl, rfl⟩)
    | _ => cases hn
  | run i t₁ t₂ t₃ =>
    simp only [step] at hs
    split at hs
    · next ht =>
      simp only [startsNext] at hn
      split at hn
      · next p d k' hcpu =>
        split at hn
        · cases hn
        · obtain ⟨rfl, -, rfl⟩ : _ = w₁ ∧ false = r ∧ _ = k := by simpa using hn
          exact .inr (.inr ⟨i, t₁, t₂, t₃, p, d, k', rfl, hcpu, rfl, rfl⟩)
      · split at hn
        · cases hn
        · obtain ⟨rfl, -, -⟩ : _ = w₁ ∧ true = r ∧ _ = k := by simpa using hn
          exact .inl ⟨t₃, by omega, ht.2.2.2, rfl⟩
      · cases hn
    · cases hs

/-! ## Expiring sleepers while a context is suspended -/

section Expire
variable {w w' : World V} {i : ThreadId} {es : List (Event V)} {R B : List CtxId}

/-- The context that is being suspended is not due, or another one is ready before it. -/
def NotFirst (w : World V) (i : ThreadId) (R B : List CtxId) : Prop :=
  (w.cur i ∉ R ∧ (w.cur i ∈ (w.thr i).sleepPqueue → w.now < ((w.thr i).ctx (w.cur i)).resumeTime)) ∨
    (w.cur i ∉ B ∧ ∃ r R', R = r :: R' ∧ r ≠ w.cur i)

theorem setException_sleep {p : PromId} {e : Error} (h : w.setException i p e = some w') :
    List.Subperm (w'.thr i).sleepPqueue (w.thr i).sleepPqueue ∧ SameCore (w.thr i) (w'.thr i) := by
  simp only [World.setException, notifyBase] at h
  split at h
  · obtain rfl := Option.some.inj h
    exact ⟨.refl _, .refl _⟩
  · next t _ =>
    simp only [World.notify] at h
    split at h
    · simp only [Option.map_eq_some_iff] at h
      obtain ⟨s, hs, rfl⟩ := h
      simp only [setThr_thr, if_true]
      exact ⟨notify_sleep_subperm hs, notify_core hs⟩
    · next hti =>
      obtain rfl := Option.some.inj h
      simp only [async, setThr_thr, if_neg (Ne.symm hti)]
      exact ⟨.refl _, .refl _⟩

/-- No deadline that expires makes the suspended context the first ready one. -/
theorem expire_notFirst {fuel : Nat} (h : expire i fuel w = some (w', es)) (hI : PlacedAs R B .suspended w i)
    (hf : NotFirst w i R B) : ∃ R' B', PlacedAs R' B' .suspended w' i ∧ NotFirst w' i R' B' := by
  induction fuel generalizing w es R B with
  | zero => cases h
  | succ fuel ih =>
    simp only [expire] at h
    split at h
    · obtain ⟨rfl, -⟩ := Prod.mk.inj (Option.some.inj h)
      exact ⟨R, B, hI, hf⟩
    next c v hq =>
    have hcS : c ∈ (w.thr i).sleepPqueue := by simp [hq]
    have hpop : ∀ x ∈ (w.thr i).sleepPop.sleepPqueue, x ∈ (w.thr i).sleepPqueue := fun x hx => by
      rw [hq]
      exact List.mem_cons_of_mem _ ((sleepPop_perm hq).subset hx)
    split at h
    · next hdue =>
      split at h
      · -- a waiter expires, and its promise is notified
        next p hp =>
        simp only [Option.bind_eq_bind, Option.bind_eq_some_iff] at h
        obtain ⟨w₂, hx, ⟨w₃, es₃⟩, h₃, he⟩ := h
        obtain ⟨rfl, rfl⟩ := Prod.mk.inj (Option.some.inj he)
        obtain ⟨hsl, hrt⟩ := setException_sleep hx
        simp only [setThr_thr, if_true] at hsl hrt
        replace hsl := hsl.subset
        replace hrt := hrt.resumeTime
        have hcur : w₂.cur i = w.cur i := (setException_cur hx i).trans (cur_setThr (s := (w.thr i).sleepPop) rfl i)
        have hnow : w₂.now = w.now := (setException_frame hx).now
        obtain ⟨R', B', hI', hlists⟩ := hI.expireWait hq hp hx
        refine ih h₃ hI' ?_
        unfold NotFirst
        rw [hcur, hnow]
        have hdue' : w.cur i ∈ (w.thr i).sleepPqueue → w.now < ((w.thr i).ctx (w.cur i)).resumeTime →
            c ≠ w.cur i := by
          intro _ hlt e
          rw [← e] at hlt
          omega
        rcases hlists with ⟨-, ⟨rfl, rfl, -⟩ | ⟨B₁, y, B₂, rfl, -, hy, rfl, rfl⟩⟩ | ⟨rfl, rfl⟩
        · exact hf.imp (fun h => ⟨h.1, fun hm => (hrt _).symm ▸ h.2 (hpop _ (hsl hm))⟩) id
        · rcases hf with ⟨hR, hlt⟩ | ⟨hB, r, R', rfl, hr⟩
          · -- the context that `notify` releases waits with `c` on `p`, so it is `c`
            have hyc : y = c := hI.2.single y (by simp) c (hI.2.sleeper hcS hp).1 hcS (by rw [hy, hp])
            refine .inl ⟨?_, fun hm => (hrt _).symm ▸ hlt (hpop _ (hsl hm))⟩
            rintro (_ | ⟨_, hm⟩)
            · have hm : w.cur i ∈ (w.thr i).sleepPqueue := by rw [hyc]; exact hcS
              exact hdue' hm (hlt hm) hyc.symm
            · exact hR hm
          · refine .inr ⟨fun hm => hB ?_, y, _, rfl, fun e => hB ?_⟩
            · simp only [List.mem_append, List.mem_cons] at hm ⊢
              tauto
            · rw [← e]; simp
        · exact hf.imp (fun h => ⟨h.1, fun hm => (hrt _).symm ▸ h.2 (hpop _ (hsl hm))⟩) id
      · -- a plain sleeper expires
        next hp =>
        rw [setThr_setThr, setThr_thr, if_pos rfl] at h
        obtain ⟨core, hs, -, -⟩ := readyPushBack_core (w.thr i).sleepPop c
        have hcur : (w.setThr i ((w.thr i).sleepPop.readyPushBack c)).cur i = w.cur i :=
          cur_setThr (by rw [core.current]; rfl) i
        refine ih h (hI.expireSleep hq hp) ?_
        unfold NotFirst
        rw [hcur]
        simp only [setThr_thr, if_true, hs, core.resumeTime]
        rcases hf with ⟨hR, hlt⟩ | ⟨hB, r, R', rfl, hr⟩
        · refine .inl ⟨?_, fun hm => hlt (hpop _ hm)⟩
          intro hm
          rcases List.mem_append.1 hm with hm | hm
          · exact hR hm
          · have e := List.mem_singleton.1 hm
            rw [e] at hlt
            have := hlt hcS
            omega
        · exact .inr ⟨hB, r, R' ++ [c], rfl, hr⟩
    · obtain ⟨rfl, -⟩ := Prod.mk.inj (Option.some.inj h)
      exact ⟨R, B, hI, hf⟩

/-- A context that is running, or that is not on any list, is not the first ready one. -/
theorem IntactIn.head_ne_current (h : IntactIn .out w i) :
    (w.thr i).readyHead ≠ some (w.thr i).ensureCurrent.1 := by
  obtain ⟨R, B, hI⟩ := h.placed
  rw [hI.2.lists.ready.head_eq]
  intro hc
  have hmem : (w.thr i).ensureCurrent.1 ∈ R := List.mem_of_head? hc
  exact hI.2.ne_cur (h.sane.valid i) (.inl hmem) ((h.sane.valid i).ensureCurrent).2.2.1

theorem PlacedAs.head_ne_current (h : PlacedAs R B .suspended w i) (hf : NotFirst w i R B) :
    (w.thr i).readyHead ≠ some (w.thr i).ensureCurrent.1 := by
  obtain ⟨c, hc⟩ := Option.ne_none_iff_exists'.1 (h.1 rfl)
  have hcur : (w.thr i).ensureCurrent.1 = w.cur i := by simp [ThreadPrivate.ensureCurrent, cur, hc]
  rw [h.2.lists.ready.head_eq, hcur]
  rcases hf with ⟨hR, -⟩ | ⟨-, r, R', rfl, hr⟩
  · exact fun e => hR (List.mem_of_head? e)
  · simpa using hr

/-- A context that yields is not chosen again. -/
theorem Intact.nextNeCurrent (h : Intact w) (hone : OneTimed w) (i : ThreadId) : w.nextNeCurrent i = true := by
  simp only [World.nextNeCurrent, Option.all_eq_true, bne_iff_ne]
  rintro ⟨tm, w', es⟩ hc
  have hm := (checkForTimeouts_moves w (show Phase.out ≠ .start by simp) hc).1
  refine IntactIn.head_ne_current (hm.inv (fun ph w => IntactIn ph w i) ?_ ⟨h.1, h.2 i, fun j _ => h.2 j⟩)
  refine fun ph w₁ ph' w₂ e hm he hI => hm.intactIn (fun j hj => ?_) hone hI
  obtain ⟨c, p, hx⟩ := checkForTimeouts_events hc (he _ hj)
  cases hx

/-- Nor is a context that has put itself on a list. -/
theorem PlacedAs.nextNeCurrent {k : List (Frame V)} (h : PlacedAs R B .suspended (w.setCpu i k) i)
    (hf : NotFirst (w.setCpu i k) i R B) : w.nextNeCurrent i = true := by
  simp only [World.nextNeCurrent, Option.all_eq_true, bne_iff_ne]
  rintro ⟨tm, w', es⟩ hc
  have hc' : (w.setCpu i k).checkForTimeouts i = some (tm, w'.setCpu i k, es) := by
    rw [checkForTimeouts_setCpu, hc]
    rfl
  show ((w'.setCpu i k).thr i).readyHead ≠ some ((w'.setCpu i k).thr i).ensureCurrent.1
  simp only [checkForTimeouts] at hc'
  split at hc'
  · obtain ⟨-, e, -⟩ : _ ∧ w.setCpu i k = w'.setCpu i k ∧ _ := by simpa using hc'
    exact PlacedAs.head_ne_current (e ▸ h) (e ▸ hf)
  · split at hc'
    · obtain ⟨-, e, -⟩ : _ ∧ w.setCpu i k = w'.setCpu i k ∧ _ := by simpa using hc'
      exact PlacedAs.head_ne_current (e ▸ h) (e ▸ hf)
    · simp only [Option.bind_eq_bind, Option.bind_eq_some_iff] at hc'
      obtain ⟨⟨w₁, e₁⟩, h₁, he⟩ := hc'
      obtain ⟨-, rfl, -⟩ : _ ∧ w₁ = w'.setCpu i k ∧ _ := by simpa using he
      obtain ⟨R', B', hI', hf'⟩ := expire_notFirst h₁ h hf
      exact hI'.head_ne_current hf'

end Expire

/-! ## Runs -/

/-- A context that suspends itself has no deadline that `check_for_timeouts` then finds passed, or it only sleeps
and another context is ready. -/
def unexpired (w : World V) : Action V → Bool
  | .call i t (.sleepUntil tp) => t < tp || (w.thr i).readyHead.isSome
  | .run i _ t₂ _ =>
    match w.cpu i with
    | .wait .block _ d :: _ => t₂ < d || d = timePointMax
    | _ => true
  | _ => true

/-- The context that thread `i` runs is still the current one when it is on a list. -/
theorem suspended_cur {w : World V} {i : ThreadId} {s : ThreadPrivate} (hv : ValidThr (w.thr i))
    {k : List (Frame V)} (hs : s.current = (w.thr i).ensureCurrent.2.current) (t : Int) :
    (((w.setThr i s).setNow t).setCpu i k).cur i = (w.thr i).ensureCurrent.1 := by
  obtain ⟨-, hcur, -, -⟩ := hv.ensureCurrent
  simp [cur, World.setCpu, World.setNow, hs, hcur]

/-- `sleep_until` with a deadline that has not passed, or while another context is ready. -/
theorem IntactIn.sleepOn_nextNeCurrent {w : World V} {i : ThreadId} {t tp : Int} (h : IntactIn .start w i)
    (hu : t < tp ∨ (w.thr i).readyHead ≠ none) :
    ((w.setThr i ((w.thr i).ensureCurrent.2.sleepOn (w.thr i).ensureCurrent.1 tp)).setNow t).nextNeCurrent i = true := by
  obtain ⟨R, B, hI⟩ := h.placed
  have hv := h.sane.valid i
  obtain ⟨-, -, hcur', -⟩ := hv.ensureCurrent
  obtain ⟨hc, -, -, hrt, -⟩ := sleepOn_core (w.thr i).ensureCurrent.2 (w.thr i).ensureCurrent.1 tp
  have hout : ∀ c, c ∈ R ∨ c ∈ B → c ≠ (w.thr i).ensureCurrent.1 := fun c hm => by
    rw [hcur']
    exact hI.2.ne_cur hv (hm.imp_right .inl)
  refine PlacedAs.nextNeCurrent ((hI.sleepOn h.sane.valid tp (w.cpu i)).setNow t) ?_
  unfold NotFirst
  rw [suspended_cur hv hc]
  rcases hu with hu | hu
  · refine .inl ⟨fun hm => hout _ (.inl hm) rfl, fun _ => ?_⟩
    simpa [World.setCpu, World.setNow, hrt] using hu
  · rw [hI.2.lists.ready.head_eq] at hu
    obtain ⟨r, R', rfl⟩ := List.exists_cons_of_ne_nil (show R ≠ [] from fun e => hu (by rw [e]; rfl))
    exact .inr ⟨fun hm => hout _ (.inr hm) rfl, r, R', rfl, hout r (.inl (by simp))⟩

/-- `wait` with a deadline that has not passed, or without one. -/
theorem IntactIn.waitOn_nextNeCurrent {w : World V} {i : ThreadId} {t d : Int} {p : PromId} {k : List (Frame V)}
    (h : IntactIn .start w i) (hone : OneTimed w) (hcpu : w.cpu i = .wait .block p d :: k)
    (hu : t < d ∨ d = timePointMax) :
    ((w.setThr i ((w.thr i).ensureCurrent.2.waitOn (w.thr i).ensureCurrent.1 p d)).setNow t).nextNeCurrent i = true := by
  obtain ⟨R, B, hI⟩ := h.placed
  have hv := h.sane.valid i
  obtain ⟨-, -, hcur', -⟩ := hv.ensureCurrent
  obtain ⟨hc, -, -, -, -, -, -, hrt, -, -⟩ := waitOn_core (w.thr i).ensureCurrent.2 (w.thr i).ensureCurrent.1 p d
  have hens := hI.2.ensureCurrent hv
  have hout := hens.out _ rfl
  refine PlacedAs.nextNeCurrent ((hI.waitOn h.sane.valid hone hcpu).setNow t) ?_
  unfold NotFirst
  rw [suspended_cur hv hc]
  refine .inl ⟨hout.1, fun hm => ?_⟩
  simp only [World.setCpu, World.setNow, setThr_thr, if_true] at hm ⊢
  have hmem := (waitOn_sleep _ _ p d).subset hm
  split at hmem
  · next hd =>
    rw [hrt hd]
    exact hu.resolve_right hd
  · exact absurd hmem (by simpa using hout.2.2)

end World

end BoostCmt
