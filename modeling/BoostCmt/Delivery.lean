import BoostCmt.Invocation
import BoostCmt.Wakeups
/-!
# What a wait on a future yields

The outcome of a task goes through the promise, and through the lists that wake
the waiting context, to whoever waits on the future. `Delivers` says where it is
on the way: nothing settles the promise but its task, and a context goes on in its
wait only when the promise holds the outcome.
-/

namespace BoostCmt

open ThreadPrivate Places Runs

variable {V : Type}

/-- The task settles `p`. -/
def settles (p : PromId) (t : Task) : Bool := t.body == .rtask p

namespace World

variable {w₀ w w' : World V} {i : ThreadId} {ph ph' : Phase} {es : List (Event V)} {a : Action V} {p : PromId}

/-! ## Who settles the promise -/

/-- The move is no call of `set_value` or `set_exception` on `p` by the code outside the library. -/
def NotByUser (p : PromId) (w₀ : World V) (i : ThreadId) (w' : World V) (es : List (Event V)) : Prop :=
  ∀ o, .setStart p o ∈ es → external (w₀.cpu i) → w'.cpu i ≠ .set .store p o false :: w₀.cpu i

theorem stepCall_setStart {t : Int} {k : List (Frame V)} {c : Call V} {o : Outcome V}
    (h : w.stepCall i t k c = some (w', es)) (he : .setStart p o ∈ es) : c = .set p o := by
  have hexp : ∀ {u : World V} {r : Bool} {k' : List (Frame V)}, u.startNextTask i r k' = some (w', es) →
      c = .set p o := by
    intro u r k' hn
    obtain ⟨c', q, hx⟩ := startNextTask_events hn he
    cases hx
  cases c with
  | newPromise | async | asyncVoid | scheduleVoid | exec =>
    obtain ⟨-, rfl⟩ := Prod.mk.inj (Option.some.inj h)
    cases he
  | wait q d =>
    simp only [stepCall] at h
    split at h
    · obtain ⟨-, rfl⟩ := Prod.mk.inj (Option.some.inj h)
      simp at he
    · cases h
  | set q o' =>
    simp only [stepCall] at h
    split at h
    · obtain ⟨-, rfl⟩ := Prod.mk.inj (Option.some.inj h)
      obtain ⟨rfl, rfl⟩ : p = q ∧ o = o' := by simpa using he
      rfl
    · cases h
  | cancel q =>
    simp only [stepCall] at h
    split at h
    · split at h <;> (obtain ⟨-, rfl⟩ := Prod.mk.inj (Option.some.inj h); cases he)
    · cases h
  | sleepUntil tp =>
    simp only [stepCall] at h
    split at h
    · obtain ⟨-, rfl⟩ := Prod.mk.inj (Option.some.inj h)
      cases he
    · exact hexp h
  | yield => exact hexp h
  | quit =>
    obtain ⟨u, -, hu⟩ := Option.map_eq_some_iff.1 h
    obtain ⟨-, rfl⟩ := Prod.mk.inj hu
    simp at he
  | sync ov j prio d =>
    obtain ⟨-, rfl⟩ := Prod.mk.inj (Option.some.inj h)
    simp at he

/-- What every move keeps, every step keeps. The moves are not by the user if the step is not. -/
theorem step_inv_task {e : List (Event V)} (I : List (Event V) → Phase → World V → Prop)
    (hs : w.step a = some (w', e)) (hset : ∀ i t o, a ≠ .call i t (.set p o))
    (hI : ∀ es ph w₁ ph' w₂ e', Move w a.thread ph w₁ ph' w₂ e' → (∀ x ∈ e', x ∈ e) →
      NotByUser p w a.thread w₂ e' → I es ph w₁ → I (es ++ e') ph' w₂)
    (h₀ : I es .start w) : I (es ++ e) .out w' := by
  have hmoves : (∀ o, .setStart p o ∈ e → ¬ external (w.cpu a.thread)) → I (es ++ e) .out w' := fun h =>
    (step_moves hs).inv_events es I (fun es ph w₁ ph' w₂ e' hm he =>
      hI es ph w₁ ph' w₂ e' hm he (fun o ho hx => absurd hx (h o (he _ ho)))) h₀
  cases a with
  | tick t =>
    refine hmoves (fun o ho => ?_)
    simp only [step] at hs
    split at hs
    · obtain ⟨-, rfl⟩ := Prod.mk.inj (Option.some.inj hs)
      cases ho
    · cases hs
  | run j t₁ t₂ t₃ => exact hmoves (fun _ _ => step_external hs (.inl ⟨_, _, _, _, rfl⟩))
  | contend j t => exact hmoves (fun _ _ => step_external hs (.inr ⟨_, _, rfl⟩))
  | call j t c =>
    refine hmoves (fun o ho => ?_)
    exact absurd (congrArg (Action.call j t) (stepCall_setStart (step_call hs).2 ho)) (hset j t o)
  | finish j o =>
    -- the one move of the step replaces the functor
    simp only [step] at hs
    split at hs
    · next t k hk =>
      simp only [finish] at hs
      split at hs
      · next q hb =>
        obtain ⟨rfl, rfl⟩ := Prod.mk.inj (Option.some.inj hs)
        refine hI es _ _ _ _ _ (.stackTop (atStart_refl w) (hk ▸ .finishSet hb)) (fun _ => id)
          (fun o' _ _ e => ?_) h₀
        have := congrArg List.length e
        simp [hk, Action.thread] at this
      · next hb =>
        obtain ⟨rfl, rfl⟩ := Prod.mk.inj (Option.some.inj hs)
        exact hI es _ _ _ _ _ (.stackTop (atStart_refl w) (hk ▸ .finishTask (fun p hp => hb p hp))) (fun _ => id)
          (fun o' ho' => by cases ho') h₀
    · cases hs

/-! ## What a move does to the promise -/

/-- A promise stays ready, unless a wait that was woken takes the error out of it. -/
theorem Move.ready_kept (hm : Move w₀ i ph w ph' w' es) (hq : NoQuit es) (hp : p < w.promCount)
    (hr : (w.prom p).ready = true) :
    (w'.prom p).ready = true ∨
      ∃ d k e, AtStart w₀ w ∧ w.cpu i = .wait .finish p d :: k ∧ w'.stack i (w.cur i) = k ∧
        es = [.waitDone i p d true (.error e)] := by
  simp only [Promise.ready] at hr ⊢
  rcases hm.prom_cases hq p with ⟨he, hv⟩ | ⟨rfl, -⟩ |
    ⟨hv, ⟨d, k, e, hcpu, rfl, hs, hes, -⟩ | ⟨e, b, k, -, -, -, he⟩ | ⟨c, v, -, -, -, -, he⟩⟩ | ⟨v, b, k, -, -, -, -, -, hv⟩
  · rw [he, hv]
    exact .inl hr
  · exact absurd hp (Nat.lt_irrefl _)
  · refine .inr ⟨d, k, e, hs, hcpu, ?_, hes⟩
    rw [(stackStep_setCpu (w := w) (u := w.modProm p _) (fun _ => rfl) rfl rfl _).stack]
    simp
  · rw [he]
    exact .inl rfl
  · rw [he]
    exact .inl rfl
  · rw [hv]
    exact .inl (by simp)

/-- Somebody has stored into `p` and is going to wake who waits on it. -/
def Signalled (ph : Phase) (w : World V) (p : PromId) : Prop :=
  (∃ j c pc o b, Frame.set pc p o b ∈ w.stack j c ∧ pc ≠ .store) ∨ ∃ t, Waits ph w t ∧ t.body = .notify p

theorem Move.signalled_from (hm : Move w₀ i ph w ph' w' es) (hq : NoQuit es) (hv : Valid w)
    (hexp : ∀ c, .expired i c p ∉ es) (h : Signalled ph' w' p) :
    Signalled ph w p ∨ ((w'.prom p).ready = true ∧ ∃ f ∈ w.cpu i, f.refers p) := by
  rcases h with ⟨j, c, pc, o, b, hf, hpc⟩ | ⟨t, ht, hb⟩
  · rcases hm.set_frames hv hf with ⟨pc', b', hf', himp⟩ | ⟨rfl, -⟩
    · by_cases hst : pc' = .store
      · have hstored := (himp hst).resolve_left hpc
        obtain ⟨-, ⟨b₀, k, hcpu⟩, -, -, hval, herr⟩ := hm.stored hstored
        refine .inr ⟨?_, .set .store p o b₀, by rw [hcpu]; simp, rfl⟩
        simp only [Promise.ready]
        cases o with
        | value v => rw [(hval v rfl).2]; simp
        | error e => rw [(herr e rfl).1]; rfl
      · exact .inl (.inl ⟨j, c, pc', o, b', hf', hst⟩)
    · exact absurd rfl hpc
  · rcases hm.waits_from hq ht with ht | ⟨j, -, -, ⟨hb', -⟩ | hb' | ⟨q, hb', -, ⟨o, b, k, hcpu⟩ | ⟨-, c, rfl⟩⟩⟩
    · exact .inl (.inr ⟨t, ht, hb⟩)
    · rw [hb] at hb'
      cases hb'
    · rw [hb] at hb'
      cases hb'
    · rw [hb] at hb'
      cases hb'
      exact .inl (.inl ⟨i, w.cur i, .post j, o, b, by rw [stack_cur, hcpu]; simp, by simp⟩)
    · rw [hb] at hb'
      cases hb'
      exact absurd (by simp) (hexp c)

/-- A wait that ends is the innermost call. -/
theorem Move.waitDone_pops (hm : Move w₀ i ph w ph' w' es) (hmark : w.currentCanceled i = false) {j : ThreadId}
    {d : Int} {b : Bool} {o : Outcome V} (h : .waitDone j p d b o ∈ es) :
    ∃ pc k, w.cpu i = .wait pc p d :: k ∧ w'.stack i (w.cur i) = k := by
  have hset : ∀ (u : World V) (k : List (Frame V)), u.thr = w.thr → (u.setCpu i k).stack i (w.cur i) = k := by
    intro u k hu
    have hcur : (u.setCpu i k).cur i = w.cur i := by simp [cur, setCpu, hu]
    rw [← hcur, stack_cur]
    simp
  cases hm with
  | stackTop _ hl =>
    generalize hk : w.cpu i = k at hl
    cases hl with
    | checkError | checkValue | late | finishValue | finishNone =>
      simp only [List.mem_singleton, Event.waitDone.injEq] at h
      obtain ⟨-, rfl, rfl, -⟩ := h
      exact ⟨_, _, rfl, hset w _ rfl⟩
    | raiseWait hc | raiseYield hc | raiseSwitched hc | raiseSleep hc => rw [hmark] at hc; cases hc
    | _ => simp at h
  | finishError _ hcpu =>
    simp only [List.mem_singleton, Event.waitDone.injEq] at h
    obtain ⟨-, rfl, rfl, -⟩ := h
    exact ⟨_, _, hcpu, hset (w.modProm _ _) _ rfl⟩
  | drain _ hpc =>
    obtain ⟨dl, hx⟩ := drain_event hpc h
    cases hx
  | runTask _ hr =>
    obtain ⟨q, hx⟩ := runTask_event hr h
    cases hx
  | _ => simp at h

/-- The call that settles `p` uses up the one task that can make it. -/
theorem Move.settles_once (hm : Move w₀ i ph w ph' w' es) (hmark : w₀.currentCanceled i = false)
    (huser : NotByUser p w₀ i w' es) (hsole : AtMostOne (held (settles p) ph w)) {o : Outcome V}
    (h : .setStart p o ∈ es) :
    es = [.setStart p o] ∧ (∃ x, held (settles p) ph w x ≠ 0) ∧ ∀ x, held (settles p) ph' w' x = 0 := by
  cases hm with
  | stackTop hs hl =>
    obtain ⟨t₀, -, rfl⟩ := hs
    generalize hk : (w₀.setNow t₀).cpu i = k₀ at hl
    cases hl with
    | callSet hx =>
      simp only [List.mem_singleton, Event.setStart.injEq] at h
      obtain ⟨rfl, rfl⟩ := h
      have hk : w₀.cpu i = k₀ := hk
      exact absurd (by rw [hk]; simp) (huser o (by simp) (by rwa [hk]))
    | @finishSet t _ _ _ k hb =>
      simp only [List.mem_singleton, Event.setStart.injEq] at h
      obtain ⟨rfl, rfl⟩ := h
      have hcpu : ((w₀.setNow t₀).stack i ((w₀.setNow t₀).cur i)).countP (Frame.functor (settles p)) =
          k.countP (Frame.functor (settles p)) + 1 := by
        rw [stack_cur, hk]
        simp [Frame.functor, settles, hb]
      have hne : held (settles p) .start (w₀.setNow t₀) (.stack i ((w₀.setNow t₀).cur i)) ≠ 0 := by
        simp only [held, hcpu]
        omega
      have hk0 : k.countP (Frame.functor (settles p)) = 0 := by
        have := hsole.1 (.stack i ((w₀.setNow t₀).cur i))
        simp only [held, hcpu] at this
        omega
      refine ⟨rfl, ⟨_, hne⟩, fun x => ?_⟩
      cases x with
      | queue j => exact hsole.eq_zero hne (y := .queue j) (by simp)
      | hand => rfl
      | stack j c =>
        simp only [held]
        rw [(stackStep_setCpu (w := w₀.setNow t₀) (fun _ => rfl) rfl rfl _).stack]
        split
        · simpa [Frame.functor] using hk0
        · next hjc => exact hsole.eq_zero hne (y := .stack j c) (by simpa using hjc)
    | raiseYield hc | raiseSwitched hc | raiseWait hc | raiseSleep hc =>
      have hc : w₀.currentCanceled i = true := hc
      rw [hmark] at hc
      cases hc
    | _ => simp at h
  | @runTask _ _ t _ _ k _ hcpu hr =>
    rcases runTask_cpu hr with ⟨q, hb, rfl, hcpu'⟩ | ⟨rfl, -⟩ | ⟨q, -, rfl, -⟩
    · simp only [List.mem_singleton, Event.setStart.injEq] at h
      obtain ⟨rfl, rfl⟩ := h
      have hne : held (settles p) (.hand t) w .hand ≠ 0 := by simp [held, settles, hb]
      refine ⟨rfl, ⟨_, hne⟩, fun x => ?_⟩
      cases x with
      | queue j =>
        simp only [held, runTask_tasks hr]
        exact hsole.eq_zero hne (y := .queue j) (by simp)
      | hand => rfl
      | stack j c =>
        have hzero := hsole.eq_zero hne (y := .stack j c) (by simp)
        simp only [held] at hzero ⊢
        rw [(runTask_stackStep hr).stack]
        split
        · next hjc =>
          obtain ⟨rfl, rfl⟩ := hjc
          rw [stack_cur, hcpu] at hzero
          rw [hcpu']
          simpa [Frame.functor] using hzero
        · exact hzero
    · simp at h
    · simp at h
  | drain _ hpc =>
    obtain ⟨dl, hx⟩ := drain_event hpc h
    cases hx
  | _ => simp at h

/-- What wakes a context that is blocked on `p`, if no deadline of a wait on `p` passes: a call that settles `p` on
the same thread, or a `notify` that was posted to it. -/
theorem Move.woken (hm : Move w₀ i ph w ph' w' es) (hq : NoQuit es) (hone : OneTimed w₀)
    (hexp : ∀ c, .expired i c p ∉ es)
    (h : Orderly ph w i) {j : ThreadId} {c : CtxId} {d : Int} {k : List (Frame V)}
    (hk : w'.stack j c = .wait .resumed p d :: k) (hb : (w.thr j).BlockedOn p c) (hnb : ¬ (w'.thr j).BlockedOn p c) :
    j = i ∧ ((∃ t o b l, w.cpu i = .set (.post t) p o b :: l) ∨ ∃ t, ph = .hand t ∧ t.body = .notify p) := by
  by_cases hj : j = i
  · subst hj
    obtain ⟨R, B, hpl⟩ := h.placed
    obtain ⟨R', B', hpl', -, hre⟩ := hm.relisted hq hone h.sane.valid hpl
    obtain ⟨hB, hprom⟩ := hpl.2.lists.blockedOn.1 hb
    have hout : c ∉ B' := fun hB' => hnb (hpl'.2.stack_blockedOn hB' hk)
    cases hre with
    | same e => exact absurd (e ▸ hB) hout
    | blocks _ e => exact absurd (e ▸ List.mem_cons_of_mem _ hB) hout
    | notified hwhy hnot =>
      rcases hnot with ⟨-, rfl, -⟩ | ⟨B₁, c', B₂, rfl, -, hc', -, rfl⟩
      · exact absurd hB hout
      · obtain rfl : c = c' := by
          have hmem : c ∈ B₁ ∨ c = c' ∨ c ∈ B₂ := by simpa using hB
          have : c ∉ B₁ ∧ c ∉ B₂ := by simpa using hout
          rcases hmem with h | h | h
          · exact absurd h this.1
          · exact h
          · exact absurd h this.2
        rw [hprom] at hc'
        cases hc'
        rcases hwhy with hset | hhand | ⟨c₀, he⟩
        · exact ⟨rfl, .inl hset⟩
        · exact ⟨rfl, .inr hhand⟩
        · exact absurd he (hexp c₀)
  · exact absurd ((hm.foreign hj).blockedOn.2 hb) hnb

/-- A context that goes on in its wait on `p` did so before, finds `p` ready, or has been woken. -/
theorem Move.awake_from (hm : Move w₀ i ph w ph' w' es) (hq : NoQuit es) (hone : OneTimed w₀)
    (hexp : ∀ c, .expired i c p ∉ es) (h : Orderly ph w i) {j : ThreadId} {c : CtxId} {pc : WaitPc} {d : Int}
    {k : List (Frame V)} (hk : w'.stack j c = .wait pc p d :: k)
    (hpc : pc = .finish ∨ (pc = .resumed ∧ ¬ (w'.thr j).BlockedOn p c)) :
    (w'.prom p).ready = true ∨
      (∃ pc', w.stack j c = .wait pc' p d :: k ∧ (pc' = .finish ∨ (pc' = .resumed ∧ ¬ (w.thr j).BlockedOn p c))) ∨
      (w.stack j c = .wait pc p d :: k ∧ Signalled ph w p) := by
  have hc : pc ≠ .check := by rcases hpc with rfl | ⟨rfl, -⟩ <;> simp
  have hr : pc ≠ .ready := by rcases hpc with rfl | ⟨rfl, -⟩ <;> simp
  rcases hm.past_from h hc hr hk with hold | ⟨rfl, hs, rfl, rfl, hgo⟩
  · rcases hpc with rfl | ⟨rfl, hnb⟩
    · exact .inr (.inl ⟨_, hold, .inl rfl⟩)
    · by_cases hb : (w.thr j).BlockedOn p c
      · -- it has been woken in this move
        refine .inr (.inr ⟨hold, ?_⟩)
        obtain ⟨rfl, ⟨t, o, b, l, hcpu⟩ | ⟨t, rfl, ht⟩⟩ := hm.woken hq hone hexp h hk hb hnb
        · exact .inl ⟨j, w.cur j, .post t, o, b, by rw [stack_cur, hcpu]; simp, by simp⟩
        · exact .inr ⟨t, .inr rfl, ht⟩
      · exact .inr (.inl ⟨_, hold, .inr ⟨rfl, hb⟩⟩)
  · obtain ⟨R, B, hpl⟩ := h.placed
    cases hgo with
    | notReady => simp at hpc
    | isReady _ hready => exact .inl hready
    | blocks hcpu he =>
      have hnb := (hpc.resolve_left (by simp)).2
      have hpl' := hpl.waitOn (d := d) (k := k) h.sane.valid (hone.atStart hs) hcpu
      rw [he] at hnb hk
      exact absurd (hpl'.2.stack_blockedOn (by simp) hk) hnb
    | resumes hcpu =>
      refine .inr (.inl ⟨.resumed, (stack_cur _ j).trans hcpu, .inr ⟨rfl, fun hb => ?_⟩⟩)
      exact hpl.2.ne_cur (h.sane.valid j) (.inr (.inl (hpl.2.blockedOn_stack hb).1)) rfl

/-- No task settles a promise that does not exist, and no frame that refers to it. -/
theorem Alloc.lt_of_heldBy {F : Frame V → Bool} (hF : ∀ f, F f = true → f.refers p) (h : Alloc ph w) {x : Place}
    (hx : heldBy (settles p) F ph w x ≠ 0) : p < w.promCount := by
  cases x with
  | queue j =>
    obtain ⟨t, ht, hb⟩ := List.countP_pos_iff.1 (Nat.pos_of_ne_zero hx)
    exact h.queues j p t ht (by simpa [settles] using hb)
  | hand =>
    cases ph with
    | hand t =>
      have hb : settles p t = true := by
        by_contra hb
        exact hx (if_neg hb)
      exact h.hand t p rfl (by simpa [settles] using hb)
    | _ => exact absurd rfl hx
  | stack j c =>
    obtain ⟨f, hf, hb⟩ := List.countP_pos_iff.1 (Nat.pos_of_ne_zero hx)
    exact h.frames j c p f hf (hF f hb)

theorem Alloc.lt_of_held (h : Alloc ph w) {x : Place} (hx : held (settles p) ph w x ≠ 0) : p < w.promCount := by
  rw [held_eq] at hx
  refine h.lt_of_heldBy (fun f hf => ?_) hx
  cases f with
  | task t => exact (show t.body = .rtask p by simpa [Frame.functor, settles] using hf)
  | _ => cases hf

theorem Alloc.none_held (h : Alloc ph w) (x : Place) : held (settles w.promCount) ph w x = 0 := by
  by_contra hx
  exact Nat.lt_irrefl _ (h.lt_of_held hx)

/-! ## On the way to the waiter -/

/-- A wait on `p` that was woken has taken an error out of the promise. -/
def Cleared (p : PromId) (es : List (Event V)) : Prop := ∃ j d e, .waitDone j p d true (.error e) ∈ es

/-- Where the outcome of `p` is: nothing has settled `p` while its task is somewhere, what `p` holds is what it was
settled with, and a context that goes on in its wait finds it there. -/
structure Delivers (p : PromId) (es : List (Event V)) (ph : Phase) (w : World V) (i : ThreadId) : Prop
    extends Orderly ph w i where
  alloc : Alloc ph w
  sole : AtMostOne (held (settles p) ph w)
  settled : ∀ o, .setStart p o ∈ es → p < w.promCount ∧ ∀ x, held (settles p) ph w x = 0
  once : ∀ o o', .setStart p o ∈ es → .setStart p o' ∈ es → o = o'
  started : ∀ j c pc o b, Frame.set pc p o b ∈ w.stack j c → .setStart p o ∈ es
  error : ∀ e, (w.prom p).error = some e → .setStart p (.error e) ∈ es
  value : ∀ v, (w.prom p).value = some v → .setStart p (.value v) ∈ es
  signalled : Signalled ph w p → p < w.promCount ∧ ((w.prom p).ready = true ∨ Cleared p es)
  cleared : Cleared p es → ∀ j c pc d, Frame.wait pc p d ∉ w.stack j c
  awake : ∀ j c pc d k, w.stack j c = .wait pc p d :: k →
    pc = .finish ∨ (pc = .resumed ∧ ¬ (w.thr j).BlockedOn p c) → (w.prom p).ready = true
  outcomes : ∀ j d b o, .waitDone j p d b o ∈ es → .setStart p o ∈ es

/-- What `Delivers` asks of a move: at most one context waits on `p`, no deadline passes, nothing is marked, `p` is
settled by its task only, and no wait on `p` starts once an error was taken out of it. -/
structure Undisturbed (p : PromId) (w₀ : World V) (i : ThreadId) (es₀ es : List (Event V)) (w' : World V) :
    Prop where
  noQuit : NoQuit es
  oneTimed : OneTimed w₀
  alone : AloneWait p w₀
  inTime : ∀ c, .expired i c p ∉ es
  unmarked : w₀.currentCanceled i = false
  prompt : ∀ j d b o k, .waitDone j p d b o ∈ es → w₀.cpu i ≠ .wait .block p d :: k
  byTask : NotByUser p w₀ i w' es
  fresh : ∀ j d, .waitStart j p d ∈ es → ¬ Cleared p (es₀ ++ es)

section Delivers
variable {es₀ : List (Event V)}

theorem Cleared.append (h : Cleared p es₀) (es : List (Event V)) : Cleared p (es₀ ++ es) :=
  h.imp fun _ => Exists.imp fun _ => Exists.imp fun _ => List.mem_append_left es

theorem Delivers.started_cpu (h : Delivers p es₀ ph w i) {pc : SetPc} {o : Outcome V} {b : Bool}
    {k : List (Frame V)} (hcpu : w.cpu i = .set pc p o b :: k) : .setStart p o ∈ es₀ :=
  h.started i (w.cur i) pc o b (by rw [stack_cur, hcpu]; simp)

/-- A wait yields what `p` was settled with. -/
theorem Move.outcome (hm : Move w₀ i ph w ph' w' es) (hu : Undisturbed p w₀ i es₀ es w')
    (h : Delivers p es₀ ph w i)
    {j : ThreadId} {d : Int} {b : Bool} {o : Outcome V} (hd : .waitDone j p d b o ∈ es) : .setStart p o ∈ es₀ := by
  obtain ⟨hs, rfl, hends⟩ := hm.waitEnds hd
  have hmark : w.currentCanceled j = false := by
    obtain ⟨t, -, rfl⟩ := hs
    exact hu.unmarked
  generalize hk : w.cpu j = k at hends
  cases hends with
  | error _ he => exact h.error _ he
  | value _ _ hv => exact h.value _ hv
  | none he hv =>
    have hr := h.awake j (w.cur j) .finish d _ ((stack_cur w j).trans hk) (.inl rfl)
    simp [Promise.ready, he, hv] at hr
  | late =>
    obtain ⟨t, -, rfl⟩ := hs
    exact absurd hk (hu.prompt _ _ _ _ _ hd)
  | cancel hc | cancelYield hc =>
    rw [hmark] at hc
    cases hc

/-- Nobody waits on `p` once an error was taken out of it. -/
theorem Move.cleared (hm : Move w₀ i ph w ph' w' es) (hu : Undisturbed p w₀ i es₀ es w')
    (h : Delivers p es₀ ph w i)
    (hc : Cleared p (es₀ ++ es)) (j : ThreadId) (c : CtxId) (pc : WaitPc) (d : Int) : Frame.wait pc p d ∉ w'.stack j c := by
  intro hf
  rcases hm.wait_frames h.sane.valid hf with ⟨pc', hf'⟩ | hstart
  · obtain ⟨j', d', e, he⟩ := hc
    rcases List.mem_append.1 he with he | he
    · exact h.cleared ⟨j', d', e, he⟩ j c pc' d hf'
    · -- the wait that ends is the only one
      obtain ⟨⟨t, -, rfl⟩, -, hends⟩ := hm.waitEnds he
      obtain ⟨pc₀, k, hcpu, hst⟩ := hm.waitDone_pops hu.unmarked he
      have hcur : waitOf (w₀.stack i (w₀.cur i)) = some (p, d') := by
        rw [stack_cur]
        exact hends.waitOf
      have hwait : waitOf (w₀.stack j c) = some (p, d) := (h.nested j c).waitOf_mem hf'
      obtain ⟨rfl, rfl⟩ := Prod.mk.inj (hu.alone j c i (w₀.cur i) d d' hwait hcur)
      have hnest := h.nested j (w₀.cur j)
      rw [show (w₀.setNow t).stack j (w₀.cur j) = .wait pc₀ p d' :: k from (stack_cur _ j).trans hcpu] at hnest
      have hst : w'.stack j (w₀.cur j) = k := hst
      rw [hst] at hf
      exact hnest.calls (by simp) _ hf
  · exact hu.fresh _ _ hstart hc

/-- As long as the wait on `p` goes on, `p` stays ready. -/
theorem Move.ready_waiting (hm : Move w₀ i ph w ph' w' es) (hu : Undisturbed p w₀ i es₀ es w')
    (h : Delivers p es₀ ph w i)
    {j : ThreadId} {c : CtxId} {pc : WaitPc} {d : Int} {k : List (Frame V)} (hp : p < w.promCount)
    (hk : w'.stack j c = .wait pc p d :: k) (hr : (w.prom p).ready = true) : (w'.prom p).ready = true := by
  rcases hm.ready_kept hu.noQuit hp hr with hr | ⟨d', k', e, hs, hcpu, -, rfl⟩
  · exact hr
  · have hc : Cleared p (es₀ ++ [.waitDone i p d' true (.error e)]) := ⟨i, d', e, by simp⟩
    exact absurd (by rw [hk]; simp) (hm.cleared hu h hc j c pc d)

/-- A context that goes on in its wait on `p` finds `p` ready. -/
theorem Move.awake (hm : Move w₀ i ph w ph' w' es) (hu : Undisturbed p w₀ i es₀ es w') (h : Delivers p es₀ ph w i)
    {j : ThreadId} {c : CtxId} {pc : WaitPc} {d : Int} {k : List (Frame V)} (hk : w'.stack j c = .wait pc p d :: k)
    (hpc : pc = .finish ∨ (pc = .resumed ∧ ¬ (w'.thr j).BlockedOn p c)) : (w'.prom p).ready = true := by
  have hlt : ∀ {pc'}, w.stack j c = .wait pc' p d :: k → p < w.promCount := fun hold =>
    h.alloc.frames j c p (.wait _ p d) (by rw [hold]; exact List.mem_cons_self) rfl
  rcases hm.awake_from hu.noQuit hu.oneTimed hu.inTime h.toOrderly hk hpc with hr | ⟨pc', hold, hpc'⟩ | ⟨hold, hsig⟩
  · exact hr
  · exact hm.ready_waiting hu h (hlt hold) hk (h.awake j c pc' d k hold hpc')
  · rcases (h.signalled hsig).2 with hr | hcl
    · exact hm.ready_waiting hu h (hlt hold) hk hr
    · exact absurd (by rw [hold]; exact List.mem_cons_self) (h.cleared hcl j c pc d)

theorem Move.delivers (hm : Move w₀ i ph w ph' w' es) (hu : Undisturbed p w₀ i es₀ es w')
    (h : Delivers p es₀ ph w i) :
    Delivers p (es₀ ++ es) ph' w' i where
  toOrderly := hm.orderly hu.noQuit hu.oneTimed h.toOrderly
  alloc := hm.alloc hu.noQuit h.sane.valid h.alloc
  sole := by
    refine hm.sole hu.noQuit h.sane.valid (fun j t hp ht => ?_) h.sole
    -- the promise of a task that is posted is new
    rcases hp.2.2 with ⟨hb, -⟩ | hb | ⟨q, hb, -⟩
    · have hp : w.promCount = p := by simpa [settles, hb] using ht
      rw [← hp]
      exact h.alloc.none_held
    · simp [settles, hb] at ht
    · simp [settles, hb] at ht
  settled := by
    intro o ho
    rcases List.mem_append.1 ho with ho | ho
    · obtain ⟨hlt, hz⟩ := h.settled o ho
      refine ⟨Nat.lt_of_lt_of_le hlt hm.globals.2, ?_⟩
      refine hm.none_held hu.noQuit h.sane.valid (fun j t hp => ?_) hz
      rcases hp.2.2 with ⟨hb, -⟩ | hb | ⟨q, hb, -⟩
      · simp only [settles, hb, beq_eq_false_iff_ne, ne_eq, TaskBody.rtask.injEq]
        exact Nat.ne_of_gt hlt
      · simp [settles, hb]
      · simp [settles, hb]
    · obtain ⟨-, ⟨x, hx⟩, hz⟩ := hm.settles_once hu.unmarked hu.byTask h.sole ho
      exact ⟨Nat.lt_of_lt_of_le (h.alloc.lt_of_held hx) hm.globals.2, hz⟩
  once := by
    have hnew : ∀ {o o'}, .setStart p o ∈ es₀ → .setStart p o' ∈ es → False := by
      intro o o' ho ho'
      obtain ⟨-, ⟨x, hx⟩, -⟩ := hm.settles_once hu.unmarked hu.byTask h.sole ho'
      exact hx ((h.settled o ho).2 x)
    intro o o' ho ho'
    rcases List.mem_append.1 ho with ho | ho <;> rcases List.mem_append.1 ho' with ho' | ho'
    · exact h.once o o' ho ho'
    · exact (hnew ho ho').elim
    · exact (hnew ho' ho).elim
    · rw [(hm.settles_once hu.unmarked hu.byTask h.sole ho).1] at ho'
      obtain ⟨-, rfl⟩ : p = p ∧ o' = o := by simpa using ho'
      rfl
  started := by
    intro j c pc o b hf
    rcases hm.set_frames h.sane.valid hf with ⟨pc', b', hf', -⟩ | ⟨-, ho⟩
    · exact List.mem_append_left _ (h.started j c pc' o b' hf')
    · exact List.mem_append_right _ ho
  error := by
    intro e he
    refine List.mem_append_left _ ?_
    rcases hm.prom_cases hu.noQuit p with ⟨he', -⟩ | ⟨-, he', -⟩ |
      ⟨-, ⟨d, k, e', -, -, -, -, he'⟩ | ⟨e', b, k, hcpu, -, -, he'⟩ | ⟨c, v, -, -, -, hes, -⟩⟩ |
      ⟨v, b, k, -, -, -, -, he', -⟩
    · exact h.error e (he' ▸ he)
    · rw [he'] at he; cases he
    · rw [he'] at he; cases he
    · rw [he'] at he
      cases he
      exact h.started_cpu hcpu
    · exact absurd (by rw [hes]; simp) (hu.inTime c)
    · rw [he'] at he; cases he
  value := by
    intro v hv
    refine List.mem_append_left _ ?_
    rcases hm.prom_cases hu.noQuit p with ⟨-, hv'⟩ | ⟨-, -, hv'⟩ | ⟨hv', -⟩ | ⟨v', b, k, hcpu, -, -, -, -, hv'⟩
    · exact h.value v (hv' ▸ hv)
    · rw [hv'] at hv; cases hv
    · exact h.value v (hv' ▸ hv)
    · rw [hv'] at hv
      cases hv
      exact h.started_cpu hcpu
  signalled := by
    intro ha
    have hle := hm.globals.2
    rcases hm.signalled_from hu.noQuit h.sane.valid hu.inTime ha with ha | ⟨hr, f, hf, href⟩
    · obtain ⟨hlt, hr | hc⟩ := h.signalled ha
      · refine ⟨Nat.lt_of_lt_of_le hlt hle, ?_⟩
        rcases hm.ready_kept hu.noQuit hlt hr with hr | ⟨d, k, e, -, -, -, rfl⟩
        · exact .inl hr
        · exact .inr ⟨i, d, e, by simp⟩
      · exact ⟨Nat.lt_of_lt_of_le hlt hle, .inr (hc.append es)⟩
    · exact ⟨Nat.lt_of_lt_of_le (h.alloc.frames i (w.cur i) p f (by rw [stack_cur]; exact hf) href) hle, .inl hr⟩
  cleared := hm.cleared hu h
  awake := fun _ _ _ _ _ hk hpc => hm.awake hu h hk hpc
  outcomes := by
    intro j d b o hd
    refine List.mem_append_left _ ?_
    rcases List.mem_append.1 hd with hd | hd
    · exact h.outcomes j d b o hd
    · exact hm.outcome hu h hd

end Delivers

/-! ## Runs -/

/-- Waits are started by the code outside the library. -/
theorem step_waitStart (hs : w.step a = some (w', es)) {j : ThreadId} {d : Int} (h : .waitStart j p d ∈ es) :
    external (w.cpu a.thread) := by
  obtain ⟨ph₁, w₁, ph₂, w₂, e, hm, he⟩ := (step_moves hs).mem h
  obtain ⟨t, -, rfl⟩ := hm.waitStart he
  cases hm with
  | stackTop _ hl =>
    have hx : external ((w.setNow t).cpu a.thread) := by
      generalize (w.setNow t).cpu a.thread = k at hl
      cases hl with
      | callWait hx => exact hx
      | raiseSwitched | raiseSleep =>
        obtain ⟨c, hc, -⟩ := raise_events he
        cases hc
      | raiseWait =>
        rcases List.mem_append.1 he with he | he
        · obtain ⟨c, hc, -⟩ := raise_events he
          cases hc
        · simp at he
      | raiseYield =>
        rcases List.mem_append.1 he with he | he
        · obtain ⟨c, hc, -⟩ := raise_events he
          cases hc
        · rcases unwind_events he with ⟨q, d', b, hx, -⟩ | ⟨q, hx⟩ <;> cases hx
      | _ => simp at he
    exact hx
  | sync _ _ _ _ _ hx => exact hx
  | drain _ hpc =>
    obtain ⟨dl, hx⟩ := drain_event hpc he
    cases hx
  | runTask _ hr =>
    obtain ⟨q, hx⟩ := runTask_event hr he
    cases hx
  | _ => simp at he

theorem runTask_setStart {t : Task} {tm : Int} {k : List (Frame V)} {o : Outcome V}
    (h : w.runTask i t tm k = some (w', es)) (ho : .setStart p o ∈ es) :
    o = .error .taskCanceled ∧ t.body = .rtask p ∧ (w'.cell t.postedNum).canceled = true := by
  simp only [runTask] at h
  split at h
  · next q hb =>
    split at h
    · next hc =>
      obtain ⟨rfl, rfl⟩ := Prod.mk.inj (Option.some.inj h)
      obtain ⟨rfl, rfl⟩ : p = q ∧ o = .error .taskCanceled := by simpa using ho
      exact ⟨rfl, hb, hc⟩
    · obtain ⟨rfl, rfl⟩ := Prod.mk.inj (Option.some.inj h)
      cases ho
  · obtain ⟨u, -, hu⟩ := Option.map_eq_some_iff.1 h
    obtain ⟨-, rfl⟩ := Prod.mk.inj hu
    cases ho
  · obtain ⟨rfl, rfl⟩ := Prod.mk.inj (Option.some.inj h)
    cases ho

/-- The library itself settles a promise only with `task_canceled`, for a task that was cancelled. -/
theorem Move.setStart_library (hm : Move w₀ i ph w ph' w' es) (hmark : w₀.currentCanceled i = false)
    (hx : ¬ external (w₀.cpu i)) {o : Outcome V} (ho : .setStart p o ∈ es) :
    o = .error .taskCanceled ∧ ∃ t, ph = .hand t ∧ t.body = .rtask p ∧ (w'.cell t.postedNum).canceled = true := by
  cases hm with
  | stackTop hs hl =>
    obtain ⟨t, -, rfl⟩ := hs
    have hx : ¬ external ((w₀.setNow t).cpu i) := hx
    have hmark : (w₀.setNow t).currentCanceled i = false := hmark
    generalize (w₀.setNow t).cpu i = k at hl hx
    cases hl with
    | callSet h => exact absurd h hx
    | finishSet => exact absurd trivial hx
    | raiseYield hc | raiseSwitched hc | raiseWait hc | raiseSleep hc =>
      rw [hmark] at hc
      cases hc
    | _ => simp at ho
  | runTask _ hr =>
    obtain ⟨h₁, h₂, h₃⟩ := runTask_setStart hr ho
    exact ⟨h₁, _, rfl, h₂, h₃⟩
  | drain _ hpc =>
    obtain ⟨dl, hx⟩ := drain_event hpc ho
    cases hx
  | _ => simp at ho

/-- No deadline passes, neither while a context is blocked nor before it blocks. -/
def InTime (w : World V) (a : Action V) (e : List (Event V)) : Prop :=
  (∀ i c p, .expired i c p ∉ e) ∧
    ∀ i t₁ t₂ t₃ p d k, a = .run i t₁ t₂ t₃ → w.cpu i = .wait .block p d :: k → t₁ ≤ d

/-- Steps of a run in which every promise is waited on by one context at a time, no deadline passes, `quit` is not
called, futures are cancelled only before their task is dequeued, and `p` is settled by its task only. -/
structure Futures (p : PromId) (w : World V) (a : Action V) (e : List (Event V)) : Prop where
  noQuit : NoQuit e
  alone : ∀ q, AloneWait q w
  inTime : InTime w a e
  cancels : CancelsQueued w a
  byTask : ∀ i t o, a ≠ .call i t (.set p o)

/-- No wait on `p` starts after one that was woken has thrown the error of `p`. -/
def ErrorTakenLast (p : PromId) (es e : List (Event V)) : Prop :=
  ∀ i d, .waitStart i p d ∈ e → ¬ Cleared p es

theorem AloneWait.oneTimed (h : ∀ q, AloneWait q w) : OneTimed w :=
  SingleWaiter.oneTimed (fun i c c' p d d' hc hc' => (Prod.mk.inj (h p i c i c' d d' hc hc')).2)

/-- How the task of `p` has ended: its functor has returned or thrown, or it was cancelled first. -/
def OutcomeOf (p : PromId) (l : List (TaskEvent V)) (o : Outcome V) : Prop :=
  (∃ t, t.body = .rtask p ∧ .returned t o ∈ l) ∨
    (o = .error .taskCanceled ∧ (∃ t : Task, t.body = .rtask p ∧ .canceled t.postedNum ∈ l) ∧
      ∀ t o', t.body = .rtask p → .returned t o' ∉ l)

theorem held_out (P : Task → Bool) (w : World V) (x : Place) : held P .start w x = held P .out w x := by
  cases x <;> rfl

theorem Delivers.start (h : Delivers p es .out w i) (j : ThreadId) : Delivers p es .start w j where
  toOrderly := h.toOrderly.start j
  alloc := h.alloc.phase
  sole := h.sole.mono (fun x => Nat.le_of_eq (held_out _ w x))
  settled := fun o ho => ⟨(h.settled o ho).1, fun x => (held_out _ w x).trans ((h.settled o ho).2 x)⟩
  once := h.once
  started := h.started
  error := h.error
  value := h.value
  signalled := fun ha => h.signalled (ha.imp_right fun ⟨t, ht, hb⟩ => ⟨t, ht.imp_right (by simp), hb⟩)
  cleared := h.cleared
  awake := h.awake
  outcomes := h.outcomes

variable {l : List (TaskEvent V)} {e : List (Event V)}

theorem Futures.undisturbed (hf : Futures p w a e) (hlast : ErrorTakenLast p es e) (hs : w.step a = some (w', e))
    (hmark : ∀ j c, ((w.thr j).ctx c).canceled = false) {es₀ e' : List (Event V)} {w₂ : World V}
    (he : ∀ x ∈ e', x ∈ e) (hes : ∀ x ∈ es₀, x ∈ es ++ e) (hset : NotByUser p w a.thread w₂ e') :
    Undisturbed p w a.thread es₀ e' w₂ where
  noQuit := fun j hj => hf.noQuit j (he _ hj)
  oneTimed := AloneWait.oneTimed hf.alone
  alone := hf.alone p
  inTime := fun c hc => hf.inTime.1 a.thread c p (he _ hc)
  unmarked := by
    unfold currentCanceled
    split
    · exact hmark _ _
    · rfl
  prompt := by
    intro j d b o k hd hcpu
    obtain ⟨t₁, t₂, t₃, t, rfl, -⟩ := step_waitEnds hs (he _ hd)
    obtain ⟨c, q, hx⟩ := step_late hs hcpu (hf.inTime.2 _ _ _ _ _ _ _ rfl hcpu) _ (he _ hd)
    cases hx
  byTask := hset
  fresh := by
    rintro j d hd ⟨j', d', er, hc⟩
    have hc : .waitDone j' p d' true (.error er) ∈ es ++ e := by
      rcases List.mem_append.1 hc with hc | hc
      · exact hes _ hc
      · exact List.mem_append_right _ (he _ hc)
    rcases List.mem_append.1 hc with hc | hc
    · exact hlast j d (he _ hd) ⟨j', d', er, hc⟩
    · obtain ⟨t₁, t₂, t₃, t, rfl, -⟩ := step_waitEnds hs hc
      exact step_external hs (.inl ⟨_, _, _, _, rfl⟩) (step_waitStart hs (he _ hd))

/-- What holds of `p` and of the log between steps. -/
structure Results (p : PromId) (l : List (TaskEvent V)) (es : List (Event V)) (w : World V) : Prop where
  functors : Functors l w
  delivers : ∀ i, Delivers p es .start w i
  returned : ∀ t o, t.body = .rtask p → .returned t o ∈ l → .setStart p o ∈ es
  source : ∀ o, .setStart p o ∈ es → OutcomeOf p l o

/-- What a step adds: `p` is settled once, and by the library only for a task that was cancelled. -/
theorem Results.delivers_step (h : Results p l es w) (hs : w.step a = some (w', e)) (hf : Futures p w a e)
    (hlast : ErrorTakenLast p es e) :
    Delivers p (es ++ e) .out w' a.thread ∧ (∀ o o', .setStart p o ∈ es → .setStart p o' ∉ e) ∧
      (¬ external (w.cpu a.thread) → ∀ o, .setStart p o ∈ e → o = .error .taskCanceled ∧
        ∃ t : Task, t.body = .rtask p ∧ (w'.cell t.postedNum).canceled = true) := by
  let I (es' : List (Event V)) (ph : Phase) (w₁ : World V) : Prop :=
    Delivers p es' ph w₁ a.thread ∧ (∃ e', es' = es ++ e' ∧ (∀ x ∈ e', x ∈ e) ∧
      (∀ o o', .setStart p o ∈ es → .setStart p o' ∉ e') ∧
      (¬ external (w.cpu a.thread) → ∀ o, .setStart p o ∈ e' → o = .error .taskCanceled ∧
        ∃ t : Task, t.body = .rtask p ∧ t.postedNum ≤ w₁.taskCount ∧ (w₁.cell t.postedNum).canceled = true))
  have hI : I (es ++ e) .out w' := by
    refine step_inv_task (p := p) I hs hf.byTask (fun es₁ ph w₁ ph' w₂ e₁ hm he hset hI => ?_)
      ⟨h.delivers _, [], by simp, by simp, by simp, by simp⟩
    obtain ⟨hd, e', rfl, he', honce, hlib⟩ := hI
    have hu : Undisturbed p w a.thread (es ++ e') e₁ w₂ :=
      hf.undisturbed hlast hs h.functors.unmarked he (fun x hx => by
      rcases List.mem_append.1 hx with hx | hx
      · exact List.mem_append_left _ hx
      · exact List.mem_append_right _ (he' x hx)) hset
    refine ⟨hm.delivers hu hd, e' ++ e₁, by simp, ?_, fun o o' ho ho' => ?_, fun hx o ho => ?_⟩
    · intro x hx
      rcases List.mem_append.1 hx with hx | hx
      · exact he' x hx
      · exact he x hx
    · rcases List.mem_append.1 ho' with ho' | ho'
      · exact honce o o' ho ho'
      · obtain ⟨-, ⟨x, hx⟩, -⟩ := hm.settles_once hu.unmarked hu.byTask hd.sole ho'
        exact hx ((hd.settled o (List.mem_append_left _ ho)).2 x)
    · have hle := hm.taskCount_le hu.noQuit
      rcases List.mem_append.1 ho with ho | ho
      · obtain ⟨heq, t, hb, hn, hc⟩ := hlib hx o ho
        exact ⟨heq, t, hb, Nat.le_trans hn hle, (hm.cell_cases hu.noQuit _).1 hn hc⟩
      · obtain ⟨heq, t, rfl, hb, hc⟩ := hm.setStart_library hu.unmarked hx ho
        exact ⟨heq, t, hb, Nat.le_trans (hd.tasks.numbered.hand t rfl) hle, hc⟩
  obtain ⟨hd, e', he, -, honce, hlib⟩ := hI
  obtain rfl := List.append_cancel_left he
  exact ⟨hd, honce, fun hx o ho => (hlib hx o ho).imp_right fun ⟨t, hb, _, hc⟩ => ⟨t, hb, hc⟩⟩

theorem step_finish {o : Outcome V} {t : Task} {k : List (Frame V)} (hs : w.step (.finish i o) = some (w', e))
    (hcpu : w.cpu i = .task t :: k) :
    (∀ q, t.body = .rtask q → e = [.setStart q o]) ∧ ∀ q o', .setStart q o' ∈ e → o' = o ∧ t.body = .rtask q := by
  simp only [step, hcpu, finish] at hs
  split at hs
  · next q hb =>
    obtain ⟨-, rfl⟩ := Prod.mk.inj (Option.some.inj hs)
    refine ⟨fun q' hq' => ?_, fun q' o' h => ?_⟩
    · rw [hb] at hq'
      cases hq'
      rfl
    · obtain ⟨rfl, rfl⟩ : q' = q ∧ o' = o := by simpa using h
      exact ⟨rfl, hb⟩
  · next hb =>
    obtain ⟨-, rfl⟩ := Prod.mk.inj (Option.some.inj hs)
    exact ⟨fun q hq => absurd hq (hb q), by simp⟩

/-- A functor that returns settles the promise of its task in the same step. -/
theorem returned_settles (hs : w.step a = some (w', e)) {t : Task} {o : Outcome V} (hb : t.body = .rtask p)
    (ho : .returned t o ∈ taskEvents w a w') : .setStart p o ∈ e ∧ external (w.cpu a.thread) := by
  rcases taskEvents_cases hs with he | ⟨i, t₁, t₂, t₃, s, pc, tm, k, q, tm', k', rfl, -, -, -, he⟩ |
    ⟨i, o', s, k, rfl, hk, he⟩ | ⟨i, t', q, m, rfl, -, -, -, he⟩ <;> rw [he] at ho
  · cases ho
  · simp at ho
  · obtain ⟨rfl, rfl⟩ : t = s ∧ o = o' := by simpa using ho
    rw [(step_finish hs hk).1 p hb]
    exact ⟨by simp, by simp only [Action.thread, hk]; trivial⟩
  · simp at ho

/-- The code outside the library settles `p` only when the functor of its task returns. -/
theorem Futures.finishes (hf : Futures p w a e) (hs : w.step a = some (w', e)) (hx : external (w.cpu a.thread))
    {o : Outcome V} (ho : .setStart p o ∈ e) : ∃ t, t.body = .rtask p ∧ .returned t o ∈ taskEvents w a w' := by
  cases a with
  | tick t =>
    simp only [step] at hs
    split at hs
    · obtain ⟨-, rfl⟩ := Prod.mk.inj (Option.some.inj hs)
      cases ho
    · cases hs
  | run j t₁ t₂ t₃ => exact absurd hx (step_external hs (.inl ⟨_, _, _, _, rfl⟩))
  | contend j t => exact absurd hx (step_external hs (.inr ⟨_, _, rfl⟩))
  | call j t c =>
    exact absurd (congrArg (Action.call j t) (stepCall_setStart (step_call hs).2 ho)) (hf.byTask j t o)
  | finish j o' =>
    cases hk : w.cpu j with
    | nil => simp [step, hk] at hs
    | cons f k =>
      cases f with
      | task t =>
        obtain ⟨rfl, hb⟩ := (step_finish hs hk).2 p o ho
        exact ⟨t, hb, by simp [taskEvents, hk]⟩
      | _ => simp [step, hk] at hs

theorem Results.step (h : Results p l es w) (hs : w.step a = some (w', e)) (hf : Futures p w a e)
    (hlast : ErrorTakenLast p es e) : Results p (l ++ taskEvents w a w') (es ++ e) w' := by
  obtain ⟨hd, honce, hlib⟩ := h.delivers_step hs hf hlast
  refine ⟨h.functors.step hs hf.noQuit (AloneWait.oneTimed hf.alone) hf.cancels, hd.start, fun t o hb ho => ?_,
    fun o ho => ?_⟩
  · rcases List.mem_append.1 ho with ho | ho
    · exact List.mem_append_left _ (h.returned t o hb ho)
    · exact List.mem_append_right _ (returned_settles hs hb ho).1
  · rcases List.mem_append.1 ho with ho | ho
    · rcases h.source o ho with ⟨t, hb, hr⟩ | ⟨rfl, ⟨t, hb, hc⟩, hno⟩
      · exact .inl ⟨t, hb, List.mem_append_left _ hr⟩
      · refine .inr ⟨rfl, ⟨t, hb, List.mem_append_left _ hc⟩, fun t' o' hb' hr => ?_⟩
        rcases List.mem_append.1 hr with hr | hr
        · exact hno t' o' hb' hr
        · exact honce _ o' ho (returned_settles hs hb' hr).1
    · by_cases hx : external (w.cpu a.thread)
      · obtain ⟨t, hb, hr⟩ := hf.finishes hs hx ho
        exact .inl ⟨t, hb, List.mem_append_right _ hr⟩
      · obtain ⟨rfl, t, hb, hc⟩ := hlib hx o ho
        refine .inr ⟨rfl, ⟨t, hb, h.functors.marks_step hs hf.noQuit hc⟩, fun t' o' hb' hr => ?_⟩
        rcases List.mem_append.1 hr with hr | hr
        · exact honce o' _ (h.returned t' o' hb' hr) ho
        · exact hx (returned_settles hs hb' hr).2

theorem delivers_init (p : PromId) (i : ThreadId) : Delivers p [] .start (init : World V) i where
  toOrderly := orderly_init i
  alloc := alloc_init.phase
  sole := AtMostOne.zero (held_init _)
  settled := by simp
  once := by simp
  started := fun j c pc o b hf => by cases frames_init hf
  error := fun e he => by cases he
  value := fun v hv => by cases hv
  signalled := by
    rintro (⟨j, c, pc, o, b, hf, -⟩ | ⟨t, ht, -⟩)
    · cases frames_init hf
    · exact absurd ht waits_init
  cleared := by rintro ⟨j, d, e, h⟩; cases h
  awake := fun j c pc d k hk => by
    have hf : Frame.wait pc p d ∈ (init : World V).stack j c := by rw [hk]; simp
    cases frames_init hf
  outcomes := by simp

theorem results_run {s : World V × List (TaskEvent V)}
    (h : Run stepLogged (fun es s a e => Futures p s.1 a e ∧ ErrorTakenLast p es e) (init, []) s es) :
    Results p s.2 es s.1 := by
  refine h.inv (fun es s => Results p s.2 es s.1) ⟨functors_init, delivers_init p, by simp, by simp⟩ ?_
  rintro es s a s' e hI ⟨hf, hlast⟩ hs
  obtain ⟨⟨w', e'⟩, hw, he⟩ := Option.map_eq_some_iff.1 hs
  obtain ⟨rfl, rfl⟩ := Prod.mk.inj he
  exact hI.step hw hf hlast

/-- In every run of futures in which no wait on `p` starts after one that was woken has thrown its error: every
functor is called once at most, and not at all if its future was cancelled; every wait on `p` that ends yields the
one outcome of the task of `p`; and a context that has been woken in its wait on `p` finds `p` ready. -/
theorem results_delivered (h : Run stepLogged (fun es s a e => Futures p s.1 a e ∧ ErrorTakenLast p es e) (init, [])
    (w, l) es) :
    (∀ n, l.countP (TaskEvent.invokes n) ≤ 1) ∧
    (∀ t q, t.body = .rtask q → .invoked t ∈ l → .canceled t.postedNum ∉ l) ∧
    (∀ i d b o, .waitDone i p d b o ∈ es → OutcomeOf p l o ∧ ∀ o', OutcomeOf p l o' → o' = o) ∧
    ∀ i d k, w.cpu i = .wait .finish p d :: k → (w.prom p).ready = true := by
  have hr : Results p l es w := results_run h
  refine ⟨hr.functors.count, hr.functors.apart, fun i d b o ho => ?_, fun i d k hk => ?_⟩
  · have hset := (hr.delivers i).outcomes i d b o ho
    refine ⟨hr.source o hset, fun o' ho' => ?_⟩
    rcases ho' with ⟨t, hb, hret⟩ | ⟨rfl, -, hno⟩
    · exact (hr.delivers i).once o' o (hr.returned t o' hb hret) hset
    · rcases hr.source o hset with ⟨t, hb, hret⟩ | ⟨rfl, -⟩
      · exact absurd hret (hno t o hb)
      · rfl
  · exact (hr.delivers i).awake i (w.cur i) .finish d k ((stack_cur w i).trans hk) (.inl rfl)

/-- The check of `Futures` on the threads below `N`. -/
def futuresCheck (N : Nat) (p : PromId) (w : World V) (a : Action V) (e : List (Event V)) : Bool :=
  allAloneCheck N w && e.all (fun x => !(x matches .quitted _) && !(x matches .expired _ _ _)) &&
    match a with
    | .run i t₁ _ _ =>
      match w.cpu i with
      | .wait .block _ d :: _ => decide (t₁ ≤ d)
      | _ => true
    | .call _ _ (.set q _) => q != p
    | .call _ _ (.cancel q) =>
      match (w.prom q).ready, (w.prom q).task with
      | false, some n => (List.range N).any fun j => (w.thr j).tasks.any fun s => s.postedNum == n
      | _, _ => true
    | _ => true

theorem futuresCheck_sound {N : Nat} (hs : Small N w) (h : futuresCheck N p w a e = true) : Futures p w a e := by
  simp only [futuresCheck, Bool.and_eq_true, List.all_eq_true] at h
  obtain ⟨⟨halone, hev⟩, ha⟩ := h
  refine ⟨fun j hj => ?_, allAloneCheck_sound hs halone, ⟨fun i c q hx => ?_, ?_⟩, ?_, ?_⟩
  · simpa using hev _ hj
  · simpa using hev _ hx
  · rintro i t₁ t₂ t₃ q d k rfl hcpu
    simpa [hcpu] using ha
  · rintro i t q n rfl hr ht
    simp only [hr, ht, List.any_eq_true, List.mem_range] at ha
    obtain ⟨j, -, s, hs', hn⟩ := ha
    exact ⟨j, s, hs', by simpa using hn⟩
  · rintro i t o rfl
    simp at ha

/-- No wait has ended with an error. -/
def noWaitFailed (es : List (Event V)) : Bool := es.all fun x => !(x matches .waitDone _ _ _ _ (.error _))

theorem noWaitFailed_sound (h : noWaitFailed es = true) (i : ThreadId) (p : PromId) (d : Int) (b : Bool)
    (e : Error) :
    .waitDone i p d b (.error e) ∉ es := fun hx => by
  simpa using List.all_eq_true.1 h _ hx

/-- Thread 0 posts a task to thread 1 and waits for it. -/
theorem results_delivered_async : ∃ (w : World Nat) (l : List (TaskEvent Nat)) (es : List (Event Nat)),
    (Run stepLogged (fun es s a e => Futures 0 s.1 a e ∧ ErrorTakenLast 0 es e) (init, []) (w, l) es ∧
      .waitDone 0 0 timePointMax true (.value 7) ∈ es) ∧
    (∀ n, l.countP (TaskEvent.invokes n) ≤ 1) ∧
    (∀ t q, t.body = .rtask q → .invoked t ∈ l → .canceled t.postedNum ∉ l) ∧
    (∀ i d b o, .waitDone i 0 d b o ∈ es → OutcomeOf 0 l o ∧ ∀ o', OutcomeOf 0 l o' → o' = o) ∧
    ∀ i d k, w.cpu i = .wait .finish 0 d :: k → (w.prom 0).ready = true := by
  obtain ⟨⟨w, l⟩, es, h, -, he⟩ := log_of_small_exec (V := Nat) 2 (fun _ _ _ _ => stepLogged_step)
    (fun es s a e => Futures 0 s.1 a e ∧ ErrorTakenLast 0 es e)
    (fun es s a e => futuresCheck 2 0 s.1 a e && noWaitFailed es)
    (fun _ es => decide (.waitDone 0 0 timePointMax true (.value 7) ∈ es)) (init, []) (small_init 2)
    [.call 0 0 (.async 1 0 0), .call 0 0 (.wait 0 timePointMax), .run 0 0 0 0, .run 0 0 0 0, .run 0 0 0 0,
      .call 1 0 .exec, .run 1 0 0 0, .finish 1 (.value 7), .run 1 0 0 0, .run 1 0 0 0, .run 1 0 0 0,
      -- thread 0 runs the `notify` and switches back
      .run 0 0 0 0, .run 0 0 0 0, .run 0 0 0 0, .run 0 0 0 0, .run 0 0 0 0, .run 0 0 0 0, .run 0 0 0 0]
    (fun es s a e hs hb => by
      simp only [Bool.and_eq_true] at hb
      refine ⟨futuresCheck_sound hs hb.1, fun i d _ => ?_⟩
      rintro ⟨j, d', er, hx⟩
      exact noWaitFailed_sound hb.2 _ _ _ _ _ hx) (by decide)
  exact ⟨w, l, es, ⟨h, by simpa using he⟩, results_delivered h⟩

/-- The functor throws while thread 0 is past its locked check, so thread 0 takes the exception out of the promise.
It waits again, and is woken when thread 1 gets to its `notify`. -/
theorem value_not_ready : ∃ (w : World Nat) (l : List (TaskEvent Nat)) (es : List (Event Nat)),
    Run stepLogged (fun _ s a e => Futures 0 s.1 a e) (init, []) (w, l) es ∧
      .waitDone 0 0 timePointMax true (.error .futureValueNotReady) ∈ es ∧
      ¬ OutcomeOf 0 l (.error .futureValueNotReady) := by
  obtain ⟨⟨w, l⟩, es, h, -, he⟩ := log_of_small_exec (V := Nat) 2 (fun _ _ _ _ => stepLogged_step)
    (fun _ s a e => Futures 0 s.1 a e) (fun _ s a e => futuresCheck 2 0 s.1 a e)
    (fun s es => decide (.waitDone 0 0 timePointMax true (.error .futureValueNotReady) ∈ es ∧
      s.2 = [.invoked ⟨1, 0, 0, .rtask 0⟩, .returned ⟨1, 0, 0, .rtask 0⟩ (.error (.other 5))])) (init, []) (small_init 2)
    [.call 0 0 (.async 1 0 0), .call 1 0 .exec, .run 1 0 0 0, .call 0 0 (.wait 0 timePointMax), .run 0 0 0 0,
      .finish 1 (.error (.other 5)), .run 1 0 0 0,
      -- thread 0 throws the exception, and waits again
      .run 0 0 0 0, .run 0 0 0 0, .call 0 0 (.wait 0 timePointMax), .run 0 0 0 0, .run 0 0 0 0, .run 0 0 0 0,
      -- thread 1 reads `m_blocked_thread` and posts the `notify`
      .run 1 0 0 0, .run 1 0 0 0,
      .run 0 0 0 0, .run 0 0 0 0, .run 0 0 0 0, .run 0 0 0 0, .run 0 0 0 0, .run 0 0 0 0, .run 0 0 0 0]
    (fun _ _ _ _ hs hb => futuresCheck_sound hs hb) (by decide)
  simp only [decide_eq_true_eq] at he
  obtain ⟨he, rfl⟩ := he
  refine ⟨w, _, es, h, he, ?_⟩
  rintro (⟨t, -, ht⟩ | ⟨hx, -⟩)
  · simp at ht
  · cases hx

end World

end BoostCmt
