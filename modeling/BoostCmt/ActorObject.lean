import BoostCmt.ActorCall
/-!
# An actor as an atomic object

If the methods of an actor call no other code, then clients cannot tell the actor from
an object on which each method is one step between its call and its return, although
the calls come from any thread, as tasks or directly. What a future of a call gives is
what the method has returned.
-/

namespace BoostCmt

open Runs Places

namespace World

section Finishing
variable {V : Type} {w w' : World V} {i : ThreadId} {o : Outcome V} {u : Task} {l : List (Frame V)} {e : List (Event V)}

theorem step_finish_cpu (hs : w.step (.finish i o) = some (w', e)) (hcpu : w.cpu i = .task u :: l) :
    ∃ k, w' = w.setCpu i k ∧ (k = l ∨ ∃ p b, u.body = .rtask p ∧ k = .set .store p o b :: l) := by
  simp only [step, hcpu, finish] at hs
  split at hs <;> obtain ⟨rfl, -⟩ := Prod.mk.inj (Option.some.inj hs)
  · next p hb => exact ⟨_, rfl, .inr ⟨p, _, hb, rfl⟩⟩
  · exact ⟨_, rfl, .inl rfl⟩

/-- When the functor of a task has ended, the task is nowhere any more. -/
theorem finished_gone (hs : w.step (.finish i o) = some (w', e)) (hcpu : w.cpu i = .task u :: l)
    (h : AtMostOne (held (fun t => t.postedNum == u.postedNum) .start w)) (y : Place) :
    held (fun t => t.postedNum == u.postedNum) .start w' y = 0 := by
  obtain ⟨k, rfl, hk⟩ := step_finish_cpu hs hcpu
  have hon : held (fun t => t.postedNum == u.postedNum) .start w (.stack i (w.cur i)) =
      l.countP (Frame.functor fun t => t.postedNum == u.postedNum) + 1 := by
    show (w.stack i (w.cur i)).countP _ = _
    rw [stack_cur, hcpu, List.countP_cons]
    simp [Frame.functor]
  have hzero : ∀ y, y ≠ .stack i (w.cur i) → held (fun t => t.postedNum == u.postedNum) .start w y = 0 :=
    fun y hy => h.eq_zero (by rw [hon]; exact Nat.succ_ne_zero _) hy
  have hl : l.countP (Frame.functor fun t => t.postedNum == u.postedNum) = 0 := by
    have hone := h.1 (.stack i (w.cur i))
    omega
  cases y with
  | queue j => exact hzero (.queue j) (by simp)
  | hand => rfl
  | stack j c =>
    by_cases hj : j = i ∧ c = w.cur i
    · obtain ⟨rfl, rfl⟩ := hj
      show ((w.setCpu j k).stack j ((w.setCpu j k).cur j)).countP _ = 0
      rw [stack_cur, setCpu_cpu, if_pos rfl]
      rcases hk with rfl | ⟨p, b, -, rfl⟩
      · exact hl
      · rw [List.countP_cons, hl]
        rfl
    · have hst : (w.setCpu i k).stack j c = w.stack j c := by
        have hstep : StackStep i w (w.setCpu i k) := stackStep_setCpu (fun _ => rfl) rfl rfl k
        rw [hstep.stack, if_neg hj]
      have hold := hzero (.stack j c) (by simpa using hj)
      simp only [held] at hold ⊢
      rw [hst]
      exact hold

end Finishing

end World

namespace ActorWorld

section Linearization
variable {A Op S V : Type} {home : A → ThreadId} {body : A → Op → Method S V}
  {x x' : ActorWorld A Op S V} {i j : ThreadId} {c : CtxId} {b b' : Activation A S V} {w : World V}
  {e : List (ActorEvent A Op V)} {k : A} {t : Atomic.State S Op (Outcome V)} {apply : Op → S → S × Outcome V} {op : Op}

/-- What clients see of the calls of `k`. -/
def ofActor [DecidableEq A] (k : A) : ActorEvent A Op V → Option (Atomic.Event Op (Outcome V))
  | .called n a op => if a = k then some (.called n op) else none
  | .returned n a o => if a = k then some (.returned n o) else none
  | _ => none

theorem ofActor_world [DecidableEq A] (k : A) (ew : List (Event V)) :
    (ew.map .world : List (ActorEvent A Op V)).filterMap (ofActor k) = [] := by
  induction ew with
  | nil => rfl
  | cons y ew ih => exact ih

theorem ofActor_called [DecidableEq A] (k a : A) (n : Nat) (op : Op) (ew : List (Event V)) :
    (.called n a op :: ew.map .world : List (ActorEvent A Op V)).filterMap (ofActor k) =
      if a = k then [.called n op] else [] := by
  rw [List.filterMap_cons, ofActor_world]
  by_cases ha : a = k <;> simp [ofActor, ha]

theorem ofActor_returned [DecidableEq A] (k a : A) (n : Nat) (o : Outcome V) (ew : List (Event V)) :
    (.returned n a o :: ew.map .world : List (ActorEvent A Op V)).filterMap (ofActor k) =
      if a = k then [.returned n o] else [] := by
  rw [List.filterMap_cons, ofActor_world]
  by_cases ha : a = k <;> simp [ofActor, ha]

/-- The atomic object once `a` is called. -/
def afterCall [DecidableEq A] (k a : A) (n : Nat) (op : Op) (t : Atomic.State S Op (Outcome V)) :
    Atomic.State S Op (Outcome V) :=
  if a = k then t.setPhase n (.called op) else t

section AfterCall
variable [DecidableEq A] {a : A} {n m : Nat}

theorem afterCall_obj : (afterCall k a n op t).obj = t.obj := by
  unfold afterCall
  split <;> rfl

theorem afterCall_other (hm : m ≠ n) : (afterCall k a n op t).phase m = t.phase m := by
  unfold afterCall
  split
  · rw [Atomic.setPhase_phase, if_neg hm]
  · rfl

theorem afterCall_called : (afterCall k k n op t).phase n = .called op := by
  unfold afterCall
  rw [if_pos rfl]
  exact if_pos rfl

theorem afterCall_applied (hn : t.phase n = .idle) (o : Outcome V) : (afterCall k a n op t).phase n ≠ .applied o := by
  intro ho
  unfold afterCall at ho
  split at ho
  · rw [Atomic.setPhase_phase, if_pos rfl] at ho
    cases ho
  · rw [hn] at ho
    cases ho

theorem afterCall_run (hn : t.phase n = .idle) : Run (Atomic.step apply) (fun _ _ _ _ => True) t
    (afterCall k a n op t) (if a = k then [.called n op] else []) := by
  unfold afterCall
  split
  · exact .single (Atomic.step_call hn) trivial
  · exact .nil

end AfterCall

/-- How far the call is that the task with number `n` carries out. -/
def Stage (t : Atomic.State S Op (Outcome V)) (w : World V) (n : Nat) (f : BoundCall A Op) : Prop :=
  t.phase f.call = .called f.op ∨ (∃ o, t.phase f.call = .applied o) ∨
    (t.phase f.call = .idle ∧ ∀ y, World.held (fun u => u.postedNum == n) .start w y = 0)

/-- `t` is the atomic object that actor `k` looks like. A method takes effect when it begins. -/
structure Linear (home : A → ThreadId) (k : A) (x : ActorWorld A Op S V) (t : Atomic.State S Op (Outcome V)) : Prop
    extends Tracked home x where
  idle : ∀ n, x.calls ≤ n → t.phase n = .idle
  runs : ∀ i c, ∀ b ∈ x.running i c, b.actor = k →
    ∃ o, b.rest.run (x.object k) = some (t.obj, o) ∧ t.phase b.call = .applied o
  still : (∀ i c, ∀ b ∈ x.running i c, b.actor ≠ k) → t.obj = x.object k
  applied : ∀ n o, t.phase n = .applied o → ∃ i c, ∃ b ∈ x.running i c, b.actor = k ∧ b.call = n
  pending : ∀ n f, x.functor n = some f → f.actor = k → Stage t x.world n f

theorem Stage.mono {n : Nat} {f : BoundCall A Op} {w' : World V} (h : Stage t w n f)
    (hw : (∀ y, World.held (fun u => u.postedNum == n) .start w y = 0) →
      ∀ y, World.held (fun u => u.postedNum == n) .start w' y = 0) : Stage t w' n f :=
  h.imp id (Or.imp id fun hgone => ⟨hgone.1, hw hgone.2⟩)

/-- The phases of other calls do not matter. -/
theorem Stage.congr {n : Nat} {f : BoundCall A Op} {t' : Atomic.State S Op (Outcome V)} (h : Stage t w n f)
    (ht : t'.phase f.call = t.phase f.call) : Stage t' w n f := by
  unfold Stage
  rw [ht]
  exact h

theorem Linear.gone (h : Linear home k x t) {a : Action V} {ew : List (Event V)} (hs : x.world.step a = some (w, ew))
    (hq : World.NoQuit ew) {n : Nat} {f : BoundCall A Op} (hf : x.functor n = some f)
    (hgone : ∀ y, World.held (fun u => u.postedNum == n) .start x.world y = 0) :
    ∀ y, World.held (fun u => u.postedNum == n) .start w y = 0 := by
  refine World.step_none_held hs hq h.sane (fun u hu _ => ?_) hgone
  exact beq_false_of_ne (Nat.ne_of_gt (Nat.lt_of_le_of_lt (h.given n f hf) hu))

/-- The world goes on, and futures are made. -/
theorem Linear.stepWorld (h : Linear home k x t) {g : PromId → Option Nat}
    (ht : Tracked home { x with world := w, future := g })
    (hgone : ∀ n f, x.functor n = some f → (∀ y, World.held (fun u => u.postedNum == n) .start x.world y = 0) →
      ∀ y, World.held (fun u => u.postedNum == n) .start w y = 0) :
    Linear home k { x with world := w, future := g } t where
  toTracked := ht
  idle := h.idle
  runs := h.runs
  still := h.still
  applied := h.applied
  pending n f hf hk := (h.pending n f hf hk).mono (hgone n f hf)

/-- A method of another actor begins. -/
theorem Linear.push_other (h : Linear home k x t) (ht : Tracked home (x.push i b)) (hne : b.actor ≠ k) :
    Linear home k (x.push i b) t where
  toTracked := ht
  idle := h.idle
  runs j c b' hb' hk := by
    rcases mem_push hb' with ⟨rfl, -⟩ | hb'
    · exact absurd hk hne
    · exact h.runs j c b' hb' hk
  still hnone := h.still fun j c b' hb' => hnone j c b' (push_mem b hb')
  applied n o hn := by
    obtain ⟨j, c, b', hb', hk, hcall⟩ := h.applied n o hn
    exact ⟨j, c, b', push_mem b hb', hk, hcall⟩
  pending := h.pending

/-- An actor is called. -/
theorem Linear.called [DecidableEq A] (h : Linear home k x t) (a : A) (op : Op) :
    Linear home k { x with calls := x.calls + 1 } (afterCall k a x.calls op t) where
  toTracked := h.toTracked.called
  idle n hn := by
    rw [afterCall_other (Nat.ne_of_gt hn)]
    exact h.idle n (Nat.le_of_succ_le hn)
  runs j c b hb hk := by
    obtain ⟨o, hrun, hphase⟩ := h.runs j c b hb hk
    rw [afterCall_obj, afterCall_other (Nat.ne_of_lt (h.known j c b hb).lt)]
    exact ⟨o, hrun, hphase⟩
  still hnone := afterCall_obj.trans (h.still hnone)
  applied n o hn := by
    by_cases he : n = x.calls
    · rw [he] at hn
      exact absurd hn (afterCall_applied (h.idle _ (Nat.le_refl _)) o)
    · rw [afterCall_other he] at hn
      exact h.applied n o hn
  pending n f hf hk := (h.pending n f hf hk).congr (afterCall_other (Nat.ne_of_lt (h.bound n f hf)))

/-- A delegate of `a` is posted. -/
theorem Linear.post [DecidableEq A] {a : A} {act : Action V} {ew : List (Event V)} {g : PromId → Option Nat}
    (h : Linear home k x t) (hs : x.world.step act = some (w, ew)) (hq : World.NoQuit ew)
    (ht : Tracked home { x with
      world := w
      calls := x.calls + 1
      functor := fun n => if n = x.world.taskCount + 1 then some ⟨x.calls, a, op⟩ else x.functor n
      future := g }) :
    Linear home k { x with
      world := w
      calls := x.calls + 1
      functor := fun n => if n = x.world.taskCount + 1 then some ⟨x.calls, a, op⟩ else x.functor n
      future := g } (afterCall k a x.calls op t) where
  toTracked := ht
  idle := (h.called a op).idle
  runs := (h.called a op).runs
  still := (h.called a op).still
  applied := (h.called a op).applied
  pending n f hf hk := by
    simp only at hf
    split at hf
    · obtain rfl := Option.some.inj hf
      obtain rfl : a = k := hk
      exact .inl afterCall_called
    · exact ((h.called a op).pending n f hf hk).mono (h.gone hs hq hf)

/-- The object of another actor is written. -/
theorem Linear.wrote_other (h : Linear home k x t) {s : A → S} (hs : s k = x.object k) :
    Linear home k { x with object := s } t where
  toTracked := h.toTracked.wrote s
  idle := h.idle
  runs j c b hb hk := by
    show ∃ o, b.rest.run (s k) = _ ∧ _
    rw [hs]
    exact h.runs j c b hb hk
  still hnone := (h.still hnone).trans hs.symm
  applied := h.applied
  pending := h.pending

/-- A method of `k` begins, and takes effect. -/
theorem Linear.begins (h : Linear home k x t) (hrun : ∀ op s, (body k op).run s = some (apply op s))
    (hnone : ∀ i c, ∀ b ∈ x.running i c, b.actor ≠ k) (ht : Tracked home (x.push i b)) (hk : b.actor = k)
    (hbody : b.rest = body k op) :
    Linear home k (x.push i b)
      ({ t with obj := (apply op t.obj).1 }.setPhase b.call (.applied (apply op t.obj).2)) where
  toTracked := ht
  idle n hn := by
    rw [Atomic.setPhase_phase, if_neg]
    · exact h.idle n hn
    · exact Nat.ne_of_gt (Nat.lt_of_lt_of_le (ht.known i _ b (push_self x i b)).lt hn)
  runs j c b' hb' hk' := by
    rcases mem_push hb' with ⟨rfl, -⟩ | hb'
    · refine ⟨_, ?_, if_pos rfl⟩
      rw [hbody, hrun, h.still hnone]
      rfl
    · exact absurd hk' (hnone j c b' hb')
  still hnone' := absurd hk (hnone' i _ b (push_self x i b))
  applied n o hn := by
    rw [Atomic.setPhase_phase] at hn
    split at hn
    · next he => exact ⟨i, _, b, push_self x i b, hk, he.symm⟩
    · obtain ⟨j, c, b', hb', hk', -⟩ := h.applied n o hn
      exact absurd hk' (hnone j c b' hb')
  pending n f hf hk' := by
    by_cases he : f.call = b.call
    · exact .inr (.inl ⟨_, if_pos he⟩)
    · exact (h.pending n f hf hk').congr (if_neg he)

theorem linear_init (s : A → S) : Linear home k ({ object := s } : ActorWorld A Op S V) { obj := s k } where
  toTracked := tracked_init s
  idle n _ := rfl
  runs i c b hb := by cases hb
  still _ := rfl
  applied n o hn := by cases hn
  pending n f hf := by cases hf

variable [DecidableEq V]

/-- A method of `k` is on top of the thread of `k`. -/
theorem Linear.on_top (h : Linear home k x t) (hb : b ∈ x.running i c) (hk : b.actor = k) :
    b.rest.inCall = false ∧ i = home k ∧ c = x.world.cur i ∧ x.active i = some b := by
  obtain ⟨o, hrun, -⟩ := h.runs i c b hb hk
  have hout : b.rest.inCall = false := by
    cases hrest : b.rest with
    | call next =>
      rw [hrest] at hrun
      cases hrun
    | _ => rfl
  obtain ⟨hc, hact⟩ := h.toConfined.outside hb hout
  exact ⟨hout, (hk ▸ h.onHome i c b hb).symm, hc, hact⟩

/-- So no other is, nor one while the thread of `k` does anything else. -/
theorem Linear.none_of (h : Linear home k x t) (hact : ∀ b, x.active (home k) = some b → b.actor ≠ k) (i : ThreadId)
    (c : CtxId) : ∀ b ∈ x.running i c, b.actor ≠ k := by
  intro b hb hk
  obtain ⟨-, rfl, -, htop⟩ := h.on_top hb hk
  exact hact b htop hk

theorem Linear.only (h : Linear home k x t) (hb : x.active i = some b) (hk : b.actor = k) (hb' : b' ∈ x.running j c)
    (hk' : b'.actor = k) : b' = b := by
  obtain ⟨-, rfl, -, -⟩ := h.on_top (active_mem hb) hk
  obtain ⟨-, rfl, -, htop⟩ := h.on_top hb' hk'
  exact Option.some.inj (htop.symm.trans hb)

theorem Linear.pop_none (h : Linear home k x t) (hb : x.active i = some b) (hk : b.actor = k) (j : ThreadId) (c : CtxId) :
    ∀ b' ∈ (x.pop i).running j c, b'.actor ≠ k := by
  intro b' hb' hk'
  obtain ⟨hout, -, rfl, -⟩ := h.on_top (mem_pop hb') hk'
  obtain ⟨-, hj, -, -⟩ := h.on_top (mem_pop hb') hk'
  obtain ⟨-, hi, -, -⟩ := h.on_top (active_mem hb) hk
  obtain rfl : j = i := hj.trans hi.symm
  have hin := pop_calling h.toConfined j b' hb'
  rw [hout] at hin
  cases hin

/-- A method of another actor ends. -/
theorem Linear.pop_other (h : Linear home k x t) (hb : x.active i = some b) (hne : b.actor ≠ k) :
    Linear home k (x.pop i) t where
  toTracked := h.toTracked.popped (h.toConfined.pop i)
  idle := h.idle
  runs j c b' hb' := h.runs j c b' (mem_pop hb')
  still hnone := by
    apply h.still
    intro j c b' hb' hk
    obtain ⟨l, hl, -⟩ := active_eq.1 hb
    refine hnone j c b' (mem_pop_of_ne hb' hl ?_) hk
    rintro rfl
    exact hne hk
  applied n o hn := by
    obtain ⟨j, c, b', hb', hk, hcall⟩ := h.applied n o hn
    obtain ⟨l, hl, -⟩ := active_eq.1 hb
    refine ⟨j, c, b', mem_pop_of_ne hb' hl ?_, hk, hcall⟩
    rintro rfl
    exact hne hk
  pending := h.pending

theorem Linear.goTo_other (h : Linear home k x t) (hb : x.active i = some b) (hne : b.actor ≠ k) (m : Method S V) :
    Linear home k (x.goTo i b m) t :=
  (h.pop_other hb hne).push_other (h.toTracked.goTo (active_mem hb) (h.toConfined.goTo hb m)) hne

/-- What is left of a method does to the object that it has written what it would have done before. -/
theorem Linear.accesses {write : S → S} {next : S → Method S V} {s : A → S} (h : Linear home k x t)
    (hb : x.active i = some b) (hk : b.actor = k) (hrest : b.rest = .access write next)
    (ht : Tracked home ({ x with object := s }.goTo i b (next (x.object b.actor)))) (hs : s k = write (x.object k)) :
    Linear home k ({ x with object := s }.goTo i b (next (x.object b.actor))) t := by
  obtain ⟨o, hrun, hphase⟩ := h.runs i _ b (active_mem hb) hk
  rw [hrest] at hrun
  have hnone : ∀ j c, ∀ b' ∈ (x.pop i).running j c, b'.actor ≠ k := h.pop_none hb hk
  have hself : ∃ c, { b with rest := next (x.object b.actor) } ∈
      ({ x with object := s }.goTo i b (next (x.object b.actor))).running i c := ⟨_, push_self _ i _⟩
  refine
    { toTracked := ht
      idle := h.idle
      runs := fun j c b' hb' hk' => ?_
      still := fun hn => ?_
      applied := fun n o hn => ?_
      pending := h.pending }
  · rcases mem_push hb' with ⟨rfl, -⟩ | hb'
    · refine ⟨o, ?_, hphase⟩
      show (next (x.object b.actor)).run (s k) = _
      rw [hs, hk]
      exact hrun
    · exact absurd hk' (hnone j c b' hb')
  · obtain ⟨c, hc⟩ := hself
    exact absurd (show Activation.actor { b with rest := next (x.object b.actor) } = k from hk) (hn i c _ hc)
  · obtain ⟨j, c, b', hb', hk', rfl⟩ := h.applied n o hn
    obtain rfl := h.only hb hk hb' hk'
    obtain ⟨c, hc⟩ := hself
    exact ⟨i, c, _, hc, hk, rfl⟩

/-- A method of `k` ends, and leaves `y`. -/
theorem Linear.ends {y : ActorWorld A Op S V} {o : Outcome V} (h : Linear home k x t) (hb : x.active i = some b)
    (hk : b.actor = k) (hrest : b.rest = .ret o) (ht : Tracked home y) (hrunning : y.running = (x.pop i).running)
    (hobject : y.object = x.object) (hcalls : y.calls = x.calls) (hfunctor : y.functor = x.functor)
    (hgone : ∀ n f, x.functor n = some f → (∀ z, World.held (fun u => u.postedNum == n) .start x.world z = 0) →
      ∀ z, World.held (fun u => u.postedNum == n) .start y.world z = 0)
    (hown : ∀ n f, x.functor n = some f → f.call = b.call →
      ∀ z, World.held (fun u => u.postedNum == n) .start y.world z = 0) :
    t.phase b.call = .applied o ∧ Linear home k y (t.setPhase b.call .idle) := by
  obtain ⟨o', hrun, hphase⟩ := h.runs i _ b (active_mem hb) hk
  rw [hrest] at hrun
  obtain ⟨hobj, rfl⟩ := Prod.mk.inj (Option.some.inj hrun)
  have hnone : ∀ j c, ∀ b' ∈ y.running j c, b'.actor ≠ k := by
    rw [hrunning]
    exact h.pop_none hb hk
  refine ⟨hphase, ?_⟩
  refine
    { toTracked := ht
      idle := fun n hn => ?_
      runs := fun j c b' hb' hk' => absurd hk' (hnone j c b' hb')
      still := fun _ => ?_
      applied := fun n o' hn => ?_
      pending := fun n f hf hk' => ?_ }
  · rw [Atomic.setPhase_phase]
    split
    · rfl
    · exact h.idle n (hcalls ▸ hn)
  · rw [Atomic.setPhase_obj, hobject, ← hobj]
  · rw [Atomic.setPhase_phase] at hn
    split at hn
    · cases hn
    · next hne =>
      obtain ⟨j, c, b', hb', hk', rfl⟩ := h.applied n o' hn
      exact absurd (congrArg Activation.call (h.only hb hk hb' hk')) hne
  · rw [hfunctor] at hf
    by_cases he : f.call = b.call
    · exact .inr (.inr ⟨if_pos he, hown n f hf he⟩)
    · exact ((h.pending n f hf hk').mono (hgone n f hf)).congr (if_neg he)

variable [DecidableEq A]

/-- A method ends, of this actor or of another one. -/
theorem Linear.leaves {y : ActorWorld A Op S V} {o : Outcome V} (h : Linear home k x t) (hb : x.active i = some b)
    (hrest : b.rest = .ret o) (ht : Tracked home y) (hrunning : y.running = (x.pop i).running)
    (hobject : y.object = x.object) (hcalls : y.calls = x.calls) (hfunctor : y.functor = x.functor)
    (hgone : ∀ n f, x.functor n = some f → (∀ z, World.held (fun u => u.postedNum == n) .start x.world z = 0) →
      ∀ z, World.held (fun u => u.postedNum == n) .start y.world z = 0)
    (hown : ∀ n f, x.functor n = some f → f.call = b.call →
      ∀ z, World.held (fun u => u.postedNum == n) .start y.world z = 0) :
    ∃ t', Run (Atomic.step apply) (fun _ _ _ _ => True) t t' (if b.actor = k then [.returned b.call o] else []) ∧
      Linear home k y t' := by
  by_cases hk : b.actor = k
  · obtain ⟨hphase, hl⟩ := h.ends hb hk hrest ht hrunning hobject hcalls hfunctor hgone hown
    rw [if_pos hk]
    exact ⟨_, .single (Atomic.step_ret hphase) trivial, hl⟩
  · rw [if_neg hk]
    have hpop := h.pop_other hb hk
    refine ⟨t, .nil, ?_⟩
    exact
      { toTracked := ht
        idle := fun n hn => hpop.idle n (hcalls ▸ hn)
        runs := fun j c b' hb' => by
          rw [hrunning] at hb'
          rw [hobject]
          exact hpop.runs j c b' hb'
        still := fun hnone => by
          rw [hobject]
          exact hpop.still (hrunning ▸ hnone)
        applied := fun n o hn => by
          rw [hrunning]
          exact hpop.applied n o hn
        pending := fun n f hf hfk => by
          rw [hfunctor] at hf
          exact (hpop.pending n f hf hfk).mono (hgone n f hf) }

/-- A step of the actors is a run of the atomic object: a call, the point at which it takes effect, a return, or
nothing. -/
theorem Linear.step (h : Linear home k x t) (hrun : ∀ op s, (body k op).run s = some (apply op s))
    (hs : Shape home body x x' e) (hq : World.NoQuit (worldEvents e)) :
    ∃ t', Run (Atomic.step apply) (fun _ _ _ _ => True) t t' (e.filterMap (ofActor k)) ∧ Linear home k x' t' := by
  have ht := h.toTracked.step hs hq
  cases hs with
  | base ha hw =>
    rw [worldEvents_map] at hq
    rw [ofActor_world]
    exact ⟨t, .nil, h.stepWorld ht fun n f hf => h.gone hw hq hf⟩
  | @post i tm a op w ew hfree hw =>
    have hev : worldEvents (.called x.calls a op :: ew.map .world : List (ActorEvent A Op V)) = ew := worldEvents_map ew
    rw [hev] at hq
    rw [ofActor_called]
    exact ⟨_, afterCall_run (h.idle _ (Nat.le_refl _)), h.post hw hq ht⟩
  | @here i a op hfree hhome =>
    have hcall : Run (Atomic.step apply) (fun _ _ _ _ => True) t (afterCall k a x.calls op t)
        ([.called x.calls a op].filterMap (ofActor k)) := by
      have hevents : ([.called x.calls a op] : List (ActorEvent A Op V)).filterMap (ofActor k) =
          if a = k then [.called x.calls op] else [] := ofActor_called k a x.calls op []
      rw [hevents]
      exact afterCall_run (h.idle _ (Nat.le_refl _))
    by_cases ha : a = k
    · subst ha
      obtain ⟨-, hact⟩ := free_eq hfree
      have hnone : ∀ j c, ∀ b ∈ x.running j c, b.actor ≠ a := h.none_of fun b hb hba => by
        rw [hhome] at hb
        have hin := hact b hb
        rw [(h.on_top (active_mem hb) hba).1] at hin
        cases hin
      have happly := hcall.snoc (Atomic.step_apply afterCall_called) trivial
      rw [List.append_nil] at happly
      exact ⟨_, happly, (h.called a op).begins hrun hnone ht rfl rfl⟩
    · exact ⟨_, hcall, (h.called a op).push_other ht ha⟩
  | @enter i f hf =>
    obtain ⟨hidle, u, l, hcpu, hfun⟩ := entering_eq hf
    by_cases hk : f.actor = k
    · have hnone : ∀ j c, ∀ b ∈ x.running j c, b.actor ≠ k := h.none_of fun b hb => by
        rw [← hk, h.entering_home hf, hidle] at hb
        cases hb
      -- the task is on the stack, so its call has not ended
      have hcalled : t.phase f.call = .called f.op := by
        rcases h.pending _ f hfun hk with hcalled | ⟨o, ho⟩ | ⟨-, hgone⟩
        · exact hcalled
        · obtain ⟨j, c, b, hb, hbk, -⟩ := h.applied _ o ho
          exact absurd hbk (hnone j c b hb)
        · refine absurd (hgone (.stack i (x.world.cur i))) fun hzero => ?_
          refine List.countP_eq_zero.1 hzero (.task u) ?_ (by simp [Frame.functor])
          rw [World.stack_cur, hcpu]
          exact List.mem_cons_self
      refine ⟨_, .single (Atomic.step_apply hcalled) trivial, h.begins hrun hnone ht hk ?_⟩
      rw [hk]
    · exact ⟨t, .nil, h.push_other ht hk⟩
  | @access i b write next hb hrest =>
    refine ⟨t, .nil, ?_⟩
    by_cases hk : b.actor = k
    · exact h.accesses hb hk hrest ht (if_pos hk.symm)
    · have hwrote : Linear home k { x with object := fun a => if a = b.actor then write (x.object a) else x.object a } t :=
        h.wrote_other (if_neg (Ne.symm hk))
      exact hwrote.goTo_other hb hk _
  | @goOn i b next o hb hrest =>
    refine ⟨t, .nil, h.goTo_other hb (fun hk => ?_) _⟩
    have hout := (h.on_top (active_mem hb) hk).1
    rw [hrest] at hout
    cases hout
  | @finish i b o w ew hb hrest hposted hw =>
    have hev : worldEvents (.returned b.call b.actor o :: ew.map .world : List (ActorEvent A Op V)) = ew :=
      worldEvents_map ew
    rw [hev] at hq
    rw [ofActor_returned]
    refine h.leaves hb hrest ht rfl rfl rfl rfl (fun n f hf => h.gone hw hq hf) fun n f hf hcall => ?_
    obtain ⟨u, l, f', hbelow, hf', hcall'⟩ := (h.known i _ b (active_mem hb)).posted hposted
    obtain ⟨-, -, hcpu⟩ := active_eq.1 hb
    obtain rfl := h.apart n u.postedNum f f' hf hf' (hcall.trans hcall'.symm)
    exact World.finished_gone hw (hcpu ▸ hbelow) (h.tasks _ f hf).sole
  | @value i b v hb hrest hposted =>
    have hevents : ([.returned b.call b.actor (.value v)] : List (ActorEvent A Op V)).filterMap (ofActor k) =
        if b.actor = k then [.returned b.call (.value v)] else [] := ofActor_returned k b.actor b.call (.value v) []
    rw [hevents]
    refine h.leaves hb hrest ht rfl rfl rfl rfl (fun n f _ hzero y => ?_) fun n f hf hcall =>
      absurd hcall ((h.known i _ b (active_mem hb)).unposted hposted n f hf)
    have hy := hzero y
    cases y <;> exact hy
  | @throw i b er hb hrest hposted =>
    have hevents : ([.returned b.call b.actor (.error er)] : List (ActorEvent A Op V)).filterMap (ofActor k) =
        if b.actor = k then [.returned b.call (.error er)] else [] := ofActor_returned k b.actor b.call (.error er) []
    rw [hevents]
    exact h.leaves hb hrest ht rfl rfl rfl rfl (fun _ _ _ => id) fun n f hf hcall =>
      absurd hcall ((h.known i _ b (active_mem hb)).unposted hposted n f hf)

/-- An actor whose methods call no other code, run alone, do `apply`. Then in every run without `quit`, whatever other
actors do and whoever calls from wherever, the calls of the actor and their returns are those of an object on which
each of them takes effect in one step in between; and that object is the actor's whenever none of its methods runs. -/
theorem actor_linearizable {s : A → S} {es : List (ActorEvent A Op V)}
    (hrun : ∀ op s, (body k op).run s = some (apply op s))
    (h : Run (step home body) (fun _ _ _ e => Unquit e) ({ object := s } : ActorWorld A Op S V) x es) :
    ∃ t : Atomic.State S Op (Outcome V), Run (Atomic.step apply) (fun _ _ _ _ => True) { obj := s k } t
      (es.filterMap (ofActor k)) ∧ ((∀ i c, ∀ b ∈ x.running i c, b.actor ≠ k) → t.obj = x.object k) := by
  have hsim : ∃ t, Run (Atomic.step apply) (fun _ _ _ _ => True) { obj := s k } t (es.filterMap (ofActor k)) ∧
      Linear home k x t :=
    h.simulate (fun _ x t => Linear home k x t) (ofActor k) (linear_init s)
      fun es x act x' e t hR hq hs => hR.step hrun (step_shape hs) hq
  obtain ⟨t, hrun, hl⟩ := hsim
  exact ⟨t, hrun, hl.still⟩

/-- Two calls of `add` from another thread, and one on the thread of the actor that overtakes them. -/
theorem actor_linearizable_add : ∃ (x : ActorWorld Nat Nat Nat Nat) (es : List (ActorEvent Nat Nat Nat)),
    ((∀ v s : Nat, (add v).run s = some (s + v, .value (s + v))) ∧
      Run (step (fun _ => 1) (fun _ v => add v)) (fun _ _ _ e => Unquit e) { object := fun _ => 0 } x es ∧
      es.filterMap (ofActor 0) = [.called 0 5, .called 1 6, .called 2 7, .returned 2 (.value 7),
        .returned 0 (.value 12), .returned 1 (.value 18)]) ∧
    ∃ t : Atomic.State Nat Nat (Outcome Nat),
      Run (Atomic.step fun v s => (s + v, .value (s + v))) (fun _ _ _ _ => True) { obj := 0 } t
        (es.filterMap (ofActor 0)) ∧ ((∀ i c, ∀ b ∈ x.running i c, b.actor ≠ 0) → t.obj = x.object 0) := by
  obtain ⟨x, es, h, he⟩ := run_of_unquit (fun _ => 1) (fun _ v => add v) (fun _ : Nat => 0)
    (fun _ es => decide (es.filterMap (ofActor 0) = [.called 0 5, .called 1 6, .called 2 7, .returned 2 (.value 7),
        .returned 0 (.value 12), .returned 1 (.value 18)]))
    [.invoke 0 0 0 5, .invoke 0 0 0 6, .invoke 1 0 0 7, .access 1, .ret 1, .base (.call 1 0 .exec),
      .base (.run 1 0 0 0), .enter 1, .access 1, .ret 1, .base (.run 1 0 0 0), .base (.run 1 0 0 0),
      .base (.run 1 0 0 0), .base (.run 1 0 0 0), .base (.run 1 0 0 0), .enter 1, .access 1, .ret 1] (by decide)
  exact ⟨x, es, ⟨fun _ _ => rfl, h, of_decide_eq_true he⟩, actor_linearizable (fun _ _ => rfl) h⟩

end Linearization

end ActorWorld

end BoostCmt
