import BoostCmt.ActorCall
/-!
# What the future of a call gives

Nothing settles the promise of a call but the task that carries the call out, and that
with what the method has returned. A wait on the future gives this, unless the task was
canceled, or the wait itself ends without a result.
-/

namespace BoostCmt

open Runs Places

namespace World

section Settling
variable {V : Type} {w₀ w w' : World V} {i j : ThreadId} {ph ph' : Phase} {es e : List (Event V)} {a : Action V}
  {p : PromId} {o : Outcome V} {R R' : Outcome V → Prop}

/-- Whatever is stored into the promise `p`, by a call that is under way or before, is `R`. -/
structure SettledBy (p : PromId) (R : Outcome V → Prop) (w : World V) : Prop where
  lt : p < w.promCount
  sets : ∀ j c pc o b, Frame.set pc p o b ∈ w.stack j c → R o
  value : ∀ v, (w.prom p).value = some v → R (.value v)
  error : ∀ er, (w.prom p).error = some er → R (.error er) ∨ er = .futureWaitTimeout

theorem SettledBy.mono (h : SettledBy p R w) (hR : ∀ o, R o → R' o) : SettledBy p R' w where
  lt := h.lt
  sets j c pc o b hf := hR o (h.sets j c pc o b hf)
  value v hv := hR _ (h.value v hv)
  error er he := (h.error er he).imp_left (hR _)

/-- A move keeps it if what it starts to store is `R`. -/
theorem Move.settledBy (hm : Move w₀ i ph w ph' w' es) (hq : NoQuit es) (hv : Valid w)
    (hset : ∀ o, .setStart p o ∈ es → R o) (h : SettledBy p R w) : SettledBy p R w' := by
  have htop : ∀ {pc o b k}, w.cpu i = .set pc p o b :: k → R o := fun hcpu =>
    h.sets i (w.cur i) _ _ _ (by rw [stack_cur, hcpu]; exact List.mem_cons_self)
  refine ⟨Nat.lt_of_lt_of_le h.lt hm.globals.2, fun j c pc o b hf => ?_, fun v hval => ?_, fun er herr => ?_⟩
  · rcases hm.set_frames hv hf with ⟨pc', b', hf', -⟩ | ⟨-, hstart⟩
    · exact h.sets j c pc' o b' hf'
    · exact hset o hstart
  · rcases hm.prom_cases hq p with ⟨-, heq⟩ | ⟨rfl, -⟩ | ⟨heq, -⟩ | ⟨u, b, k, hcpu, -, -, -, -, heq⟩
    · exact h.value v (heq ▸ hval)
    · exact absurd h.lt (Nat.lt_irrefl _)
    · exact h.value v (heq ▸ hval)
    · rw [heq] at hval
      exact Option.some.inj hval ▸ htop hcpu
  · rcases hm.prom_cases hq p with ⟨heq, -⟩ | ⟨rfl, -⟩ |
      ⟨-, ⟨d, k, e, -, -, -, -, heq⟩ | ⟨e, b, k, hcpu, -, -, heq⟩ | ⟨c, v, -, -, -, -, heq⟩⟩ |
      ⟨u, b, k, -, -, -, -, heq, -⟩
    · exact h.error er (heq ▸ herr)
    · exact absurd h.lt (Nat.lt_irrefl _)
    · rw [heq] at herr
      cases herr
    · rw [heq] at herr
      exact .inl (Option.some.inj herr ▸ htop hcpu)
    · rw [heq] at herr
      exact .inr (Option.some.inj herr).symm
    · rw [heq] at herr
      cases herr

theorem step_settledBy (hs : w.step a = some (w', e)) (hq : NoQuit e) (hv : Valid w)
    (hset : ∀ o, .setStart p o ∈ e → R o) (h : SettledBy p R w) : SettledBy p R w' :=
  ((step_moves hs).inv (fun _ u => Valid u ∧ SettledBy p R u)
    (fun _ _ _ _ _ hm he hI => ⟨hm.valid hI.1, hm.settledBy (fun j hj => hq j (he _ hj)) hI.1
      (fun o ho => hset o (he _ ho)) hI.2⟩) ⟨hv, h⟩).2

/-- What a wait on the promise gives. -/
theorem SettledBy.waitDone (h : SettledBy p R w) (hs : w.step a = some (w', e)) {d : Int} {b : Bool}
    (hw : .waitDone i p d b o ∈ e) :
    R o ∨ o = .error .taskCanceled ∨ o = .error .futureWaitTimeout ∨ o = .error .futureValueNotReady := by
  obtain ⟨t₁, t₂, t₃, t, -, hends⟩ := step_waitEnds hs hw
  generalize w.cpu i = k at hends
  cases hends with
  | error _ he => exact (h.error _ he).imp_right fun hto => .inr (.inl (congrArg Outcome.error hto))
  | value _ _ hv => exact .inl (h.value _ hv)
  | none => exact .inr (.inr (.inr rfl))
  | late => exact .inr (.inr (.inl rfl))
  | cancel | cancelYield => exact .inr (.inl rfl)

/-- The library itself settles promises with `task_canceled` only. -/
theorem Move.setStart_canceled (hm : Move w₀ i ph w ph' w' es) (hx : ¬ external (w₀.cpu i))
    (ho : .setStart p o ∈ es) : o = .error .taskCanceled := by
  have hraise : .setStart p o ∉ w.raise i := fun h => by
    obtain ⟨c, hc, -⟩ := raise_events h
    cases hc
  cases hm with
  | stackTop hs hl =>
    obtain ⟨t, -, rfl⟩ := hs
    have hx : ¬ external ((w₀.setNow t).cpu i) := hx
    generalize (w₀.setNow t).cpu i = k at hl hx
    cases hl with
    | callSet h => exact absurd h hx
    | finishSet => exact absurd trivial hx
    | raiseSwitched | raiseSleep => exact absurd ho hraise
    | raiseWait =>
      rcases List.mem_append.1 ho with ho | ho
      · exact absurd ho hraise
      · cases List.mem_singleton.1 ho
    | raiseYield =>
      rcases List.mem_append.1 ho with ho | ho
      · exact absurd ho hraise
      · rcases unwind_events ho with ⟨q, d, b, hd, -⟩ | ⟨q, hq⟩
        · cases hd
        · exact (Event.setStart.inj hq).2
    | _ => simp at ho
  | runTask _ hr =>
    obtain ⟨q, hq⟩ := runTask_event hr ho
    exact (Event.setStart.inj hq).2
  | drain _ hpc =>
    obtain ⟨dl, hx⟩ := drain_event hpc ho
    cases hx
  | _ => simp at ho

/-- Who starts to settle a promise: a call, a task whose functor ends, or the library. -/
theorem step_setStart (hs : w.step a = some (w', e)) (ho : .setStart p o ∈ e) :
    (∃ i t, a = .call i t (.set p o)) ∨ (∃ i u k, a = .finish i o ∧ w.cpu i = .task u :: k ∧ u.body = .rtask p) ∨
      o = .error .taskCanceled := by
  have hlibrary : ¬ external (w.cpu a.thread) → o = .error .taskCanceled := fun hx => by
    obtain ⟨ph₁, w₁, ph₂, w₂, es, hm, he⟩ := (step_moves hs).mem ho
    exact hm.setStart_canceled hx he
  cases a with
  | tick t =>
    simp only [step] at hs
    split at hs
    · obtain ⟨-, rfl⟩ := Prod.mk.inj (Option.some.inj hs)
      cases ho
    · cases hs
  | call j t c => exact .inl ⟨j, t, congrArg (Action.call j t) (stepCall_setStart (step_call hs).2 ho)⟩
  | run j t₁ t₂ t₃ => exact .inr (.inr (hlibrary (step_external hs (.inl ⟨_, _, _, _, rfl⟩))))
  | contend j t => exact .inr (.inr (hlibrary (step_external hs (.inr ⟨_, _, rfl⟩))))
  | finish j o' =>
    have hcpu : ∃ u k, w.cpu j = .task u :: k := by
      simp only [step] at hs
      split at hs
      · next u k hk => exact ⟨u, k, hk⟩
      · cases hs
    obtain ⟨u, k, hk⟩ := hcpu
    obtain ⟨rfl, hb⟩ := (step_finish hs hk).2 p o ho
    exact .inr (.inl ⟨j, u, k, rfl, hk, hb⟩)

theorem held_mono {P Q : Task → Bool} (hPQ : ∀ u, P u = true → Q u = true) (y : Place) :
    held P .start w y ≤ held Q .start w y := by
  cases y with
  | queue j => exact List.countP_mono_left fun u _ => hPQ u
  | hand => exact Nat.le_refl _
  | stack j c =>
    refine List.countP_mono_left fun f _ hf => ?_
    cases f with
    | task u => exact hPQ u hf
    | _ => cases hf

/-- What holds of a promise that is made: nothing stores into it yet. -/
theorem Alloc.settledBy_new (h : Alloc .start w) (hstack : ∀ j c, w'.stack j c = w.stack j c)
    (hcount : w'.promCount = w.promCount + 1) (hvalue : ∀ v, (w'.prom w.promCount).value = some v → R (.value v))
    (herror : (w'.prom w.promCount).error = none) : SettledBy w.promCount R w' where
  lt := hcount ▸ Nat.lt_succ_self _
  sets j c pc o b hf := absurd (h.frames j c w.promCount (.set pc w.promCount o b) (hstack j c ▸ hf) rfl) (Nat.lt_irrefl _)
  value := hvalue
  error er he := by
    rw [herror] at he
    cases he

theorem readyPromise_new (w : World V) (v : V) : (w.readyPromise v).prom w.promCount = { value := some v } := if_pos rfl

theorem readyPromise_held (w : World V) (v : V) (P : Task → Bool) (y : Place) :
    held P .start (w.readyPromise v) y = held P .start w y := by
  cases y <;> rfl

theorem SettledBy.readyPromise (h : SettledBy p R w) (v : V) : SettledBy p R (w.readyPromise v) := by
  have hprom : (w.readyPromise v).prom p = w.prom p := if_neg (Nat.ne_of_lt h.lt)
  refine ⟨Nat.lt_succ_of_lt h.lt, h.sets, fun u hu => ?_, fun er he => ?_⟩
  · exact h.value u (hprom ▸ hu)
  · exact h.error er (hprom ▸ he)

theorem step_alloc (h : Alloc .start w) (hs : w.step a = some (w', e)) (hq : NoQuit e) (hv : Valid w) : Alloc .start w' :=
  ((step_moves hs).inv (fun ph u => Valid u ∧ Alloc ph u)
    (fun _ _ _ _ _ hm he hI => ⟨hm.valid hI.1, hm.alloc (fun j hj => hq j (he _ hj)) hI.1 hI.2⟩) ⟨hv, h⟩).2.phase

end Settling

end World

namespace ActorWorld

section Results
variable {A Op S V : Type} {home : A → ThreadId} {x x' : ActorWorld A Op S V} {es e : List (ActorEvent A Op V)}
  {i : ThreadId} {p : PromId} {n m : Nat} {o : Outcome V} {b : Activation A S V} {w : World V}

/-- What the call `n` gives: what its method has returned, or that its task was canceled. -/
def Result (es : List (ActorEvent A Op V)) (n : Nat) (o : Outcome V) : Prop :=
  (∃ k op, .called n k op ∈ es ∧ .returned n k o ∈ es) ∨ o = .error .taskCanceled

theorem Result.append (h : Result es n o) (e : List (ActorEvent A Op V)) : Result (es ++ e) n o :=
  h.imp_left fun ⟨k, op, hc, hr⟩ => ⟨k, op, List.mem_append_left _ hc, List.mem_append_left _ hr⟩

/-- The task with number `m` carries out the call `n`. -/
def carries (x : ActorWorld A Op S V) (n m : Nat) : Bool := (x.functor m).any (·.call == n)

/-- The task settles `p`, and does not carry out the call `n`. -/
def strange (x : ActorWorld A Op S V) (p : PromId) (n : Nat) (u : Task) : Bool :=
  settles p u && !x.carries n u.postedNum

/-- Only the result of the call `n` comes into the promise `p`. -/
structure Awaits (es : List (ActorEvent A Op V)) (x : ActorWorld A Op S V) (p : PromId) (n : Nat) : Prop where
  lt : n < x.calls
  settled : World.SettledBy p (Result es n) x.world
  tasks : ∀ y, World.held (strange x p n) .start x.world y = 0

/-- The futures of calls give their results. -/
structure Resulting (home : A → ThreadId) (es : List (ActorEvent A Op V)) (x : ActorWorld A Op S V) : Prop
    extends Tracked home x where
  alloc : World.Alloc .start x.world
  made : ∀ i c, ∀ b ∈ x.running i c, ∃ op, .called b.call b.actor op ∈ es
  bind : ∀ m f, x.functor m = some f → .called f.call f.actor f.op ∈ es
  futures : ∀ p n, x.future p = some n → Awaits es x p n

theorem resulting_init (s : A → S) : Resulting home [] ({ object := s } : ActorWorld A Op S V) where
  toTracked := tracked_init s
  alloc := World.alloc_init.phase
  made i c b hb := by cases hb
  bind m f hf := by cases hf
  futures p n hp := by cases hp

theorem Awaits.next (h : Awaits es x p n) (hcalls : x.calls ≤ x'.calls) (hcarries : x'.carries n = x.carries n)
    (hsettled : World.SettledBy p (Result (es ++ e) n) x'.world)
    (htasks : ∀ y, World.held (strange x p n) .start x'.world y = 0) : Awaits (es ++ e) x' p n where
  lt := Nat.lt_of_lt_of_le h.lt hcalls
  settled := hsettled
  tasks := by
    unfold strange at htasks ⊢
    rw [hcarries]
    exact htasks

/-- The world stays as it is. -/
theorem Awaits.still (h : Awaits es x p n) (e : List (ActorEvent A Op V)) (hworld : x'.world = x.world)
    (hcalls : x.calls ≤ x'.calls) (hfunctor : x'.functor = x.functor) : Awaits (es ++ e) x' p n := by
  refine h.next hcalls ?_ ?_ ?_
  · unfold carries
    rw [hfunctor]
  · rw [hworld]
    exact h.settled.mono fun o ho => ho.append e
  · rw [hworld]
    exact h.tasks

/-- A task on top of a thread that settles the promise carries out the call. -/
theorem Awaits.top (h : Awaits es x p n) {u : Task} {k : List (Frame V)} (hcpu : x.world.cpu i = .task u :: k)
    (hbody : u.body = .rtask p) : ∃ f, x.functor u.postedNum = some f ∧ f.call = n := by
  have hzero := h.tasks (.stack i (x.world.cur i))
  have hmem : Frame.task u ∈ x.world.stack i (x.world.cur i) := by
    rw [World.stack_cur, hcpu]
    exact List.mem_cons_self
  have hstrange := List.countP_eq_zero.1 hzero _ hmem
  simp only [Frame.functor, strange, settles, hbody, beq_self_eq_true, Bool.true_and, Bool.not_eq_true',
    Bool.not_eq_false, carries, Option.any_eq_true, beq_iff_eq] at hstrange
  exact hstrange

/-- A step of the world, if what it starts to store into the promise is the result. -/
theorem Awaits.stepWorld {a : Action V} {ew : List (Event V)} (h : Awaits es x p n)
    (hs : x.world.step a = some (w, ew)) (hq : World.NoQuit ew) (hsane : World.Sane x.world)
    (hset : ∀ o, .setStart p o ∈ ew → Result (es ++ e) n o) (hworld : x'.world = w) (hcalls : x.calls ≤ x'.calls)
    (hcarries : x'.carries n = x.carries n) : Awaits (es ++ e) x' p n := by
  subst hworld
  refine h.next hcalls hcarries ?_ ?_
  · exact World.step_settledBy hs hq hsane.valid hset (h.settled.mono fun o ho => ho.append e)
  · refine World.step_none_held hs hq hsane (fun u _ hnew => ?_) h.tasks
    have hbody : u.body ≠ .rtask p := fun hb => Nat.lt_irrefl _ (Nat.lt_of_lt_of_le h.settled.lt (hnew p hb))
    simp [strange, settles, hbody]

/-- A step of the methods alone. -/
theorem Resulting.inside (h : Resulting home es x) (ht : Tracked home x') (hworld : x'.world = x.world)
    (hcalls : x.calls ≤ x'.calls) (hfunctor : x'.functor = x.functor) (hfuture : x'.future = x.future)
    (hmade : ∀ i c, ∀ b ∈ x'.running i c, ∃ op, .called b.call b.actor op ∈ es ++ e) : Resulting home (es ++ e) x' where
  toTracked := ht
  alloc := hworld ▸ h.alloc
  made := hmade
  bind m f hf := List.mem_append_left e (h.bind m f (hfunctor ▸ hf))
  futures p n hp := (h.futures p n (hfuture ▸ hp)).still e hworld hcalls hfunctor

theorem Resulting.running_made (h : Resulting home es x) (hrun : ∀ i c, ∀ b ∈ x'.running i c, b ∈ x.running i c) (i : ThreadId)
    (c : CtxId) (b : Activation A S V) (hb : b ∈ x'.running i c) : ∃ op, .called b.call b.actor op ∈ es ++ e := by
  obtain ⟨op, hop⟩ := h.made i c b (hrun i c b hb)
  exact ⟨op, List.mem_append_left e hop⟩

/-- The method on top goes on. -/
theorem Resulting.goTo_made (h : Resulting home es x) (hb : b ∈ x.running i (x.world.cur i)) {s : A → S} {r : Method S V}
    (j : ThreadId) (c : CtxId) (b' : Activation A S V) (hb' : b' ∈ ({ x with object := s }.goTo i b r).running j c) :
    ∃ op, .called b'.call b'.actor op ∈ es ++ e := by
  rcases mem_push hb' with ⟨rfl, -⟩ | hb'
  · exact h.running_made (fun _ _ _ => id) i _ b hb
  · exact h.running_made (fun _ _ _ => mem_pop) j c b' hb'

/-- The task that is posted carries out no call but the new one. -/
theorem Tracked.carries_posted (h : Tracked home x) (hn : n < x.calls) (f : BoundCall A Op) (hf : f.call = x.calls) :
    (fun m => (if m = x.world.taskCount + 1 then some f else x.functor m).any (·.call == n)) = x.carries n := by
  funext m
  unfold carries
  split
  · next hm =>
    have hnone : x.functor m = none := by
      by_contra hsome
      obtain ⟨g, hg⟩ := Option.ne_none_iff_exists'.1 hsome
      have hle := h.given m g hg
      omega
    have hne : f.call ≠ n := hf ▸ Nat.ne_of_gt hn
    simp [hnone, hne]
  · rfl

/-- The promise of a call that is posted is settled by its task only. -/
theorem Resulting.posted_tasks {ew : List (Event V)} {j : ThreadId} (h : Resulting home es x)
    (hp : World.Posted x.world w j ew) (hcarries : x'.carries n (x.world.taskCount + 1) = true) (y : Place) :
    World.held (strange x' x.world.promCount n) .start w y = 0 := by
  have hzero : World.held (strange x' x.world.promCount n) .start x.world y = 0 := by
    refine Nat.le_zero.1 ?_
    rw [← h.alloc.none_held y]
    exact World.held_mono (fun u hu => (Bool.and_eq_true _ _ ▸ hu).1) y
  obtain ⟨u, hnum, -, htasks⟩ := hp.task
  cases y with
  | queue k =>
    simp only [World.held] at hzero ⊢
    rw [htasks]
    split
    · rw [List.countP_cons, hzero]
      simp [strange, hnum, hcarries]
    · exact hzero
  | hand => rfl
  | stack k c =>
    simp only [World.held] at hzero ⊢
    rw [hp.stack]
    exact hzero

variable [DecidableEq V]

/-- No step of the world stores into a future. -/
theorem Resulting.settled_base (h : Resulting home es x) {a : Action V} {ew : List (Event V)} (ha : x.allows a = true)
    (hs : x.world.step a = some (w, ew)) (hp : x.future p = some n) (ho : .setStart p o ∈ ew) :
    o = .error .taskCanceled := by
  rcases World.step_setStart hs ho with ⟨i, t, rfl⟩ | ⟨i, u, k, rfl, hcpu, hbody⟩ | ho
  · simp [allows, settlesFuture, hp] at ha
  · obtain ⟨f, hf, -⟩ := (h.futures p n hp).top hcpu hbody
    simp only [allows, Bool.and_eq_true, Option.isNone_iff_eq_none] at ha
    obtain ⟨hidle, hnone⟩ := ha
    simp only [entering, hidle, hcpu, hf] at hnone
    cases hnone
  · exact ho

/-- When a method that a task has called ends, the task stores what the method returns. -/
theorem Resulting.settled_finish (h : Resulting home es x) {ew : List (Event V)} {o' : Outcome V}
    (hb : x.active i = some b) (hposted : b.posted = true) (hs : x.world.step (.finish i o') = some (w, ew))
    (hp : x.future p = some n) (ho : .setStart p o ∈ ew) : (o = o' ∧ b.call = n) ∨ o = .error .taskCanceled := by
  rcases World.step_setStart hs ho with ⟨j, t, he⟩ | ⟨j, u, k, he, hcpu, hbody⟩ | ho
  · cases he
  · obtain ⟨rfl, rfl⟩ := Action.finish.inj he
    obtain ⟨f, hf, hcall⟩ := (h.futures p n hp).top hcpu hbody
    obtain ⟨u', l, f', hbelow, hf', hcall'⟩ := (h.known i _ b (active_mem hb)).posted hposted
    obtain ⟨-, -, hb'⟩ := active_eq.1 hb
    rw [← hb', hbelow] at hcpu
    obtain ⟨hu, -⟩ := List.cons.inj hcpu
    obtain rfl := Frame.task.inj hu
    obtain rfl := Option.some.inj (hf.symm.trans hf')
    exact .inl ⟨rfl, hcall'.symm.trans hcall⟩
  · exact .inr ho

variable [DecidableEq A] {body : A → Op → Method S V}

/-- A wait ends in a step of the world. -/
theorem Shape.waitDone {j : ThreadId} {d : Int} {slow : Bool} (hs : Shape home body x x' e)
    (hw : .world (.waitDone j p d slow o) ∈ e) :
    ∃ a w ew, x.world.step a = some (w, ew) ∧ .waitDone j p d slow o ∈ ew := by
  have hworld : ∀ {ew : List (Event V)},
      ActorEvent.world (.waitDone j p d slow o) ∈ (ew.map .world : List (ActorEvent A Op V)) → .waitDone j p d slow o ∈ ew :=
    fun hmem => by
      obtain ⟨z, hz, he⟩ := mem_world hmem
      obtain rfl := ActorEvent.world.inj he
      exact hz
  cases hs with
  | base ha hstep => exact ⟨_, _, _, hstep, hworld hw⟩
  | post _ hstep | finish _ _ _ hstep =>
    rcases List.mem_cons.1 hw with hw | hw
    · cases hw
    · exact ⟨_, _, _, hstep, hworld hw⟩
  | here | access | value | throw => cases List.mem_singleton.1 hw
  | enter | goOn => cases hw

theorem Resulting.step (h : Resulting home es x) (hs : Shape home body x x' e) (hq : World.NoQuit (worldEvents e)) :
    Resulting home (es ++ e) x' := by
  have ht := h.toTracked.step hs hq
  have hbind : ∀ m f, x.functor m = some f → .called f.call f.actor f.op ∈ es ++ e := fun m f hf =>
    List.mem_append_left e (h.bind m f hf)
  have hmade : ∀ i c, ∀ b ∈ x.running i c, ∃ op, .called b.call b.actor op ∈ es ++ e := fun i c b hb =>
    h.running_made (fun _ _ _ => id) i c b hb
  cases hs with
  | base ha hw =>
    rw [worldEvents_map] at hq
    refine
      { toTracked := ht
        alloc := World.step_alloc h.alloc hw hq h.sane.valid
        made := hmade
        bind := hbind
        futures := fun p n hp => ?_ }
    exact (h.futures p n hp).stepWorld hw hq h.sane (fun o ho => .inr (h.settled_base ha hw hp ho)) rfl (Nat.le_refl _) rfl
  | @post i t k op w ew hfree hw =>
    have hev : worldEvents (.called x.calls k op :: ew.map .world : List (ActorEvent A Op V)) = ew := worldEvents_map ew
    rw [hev] at hq
    have hposted := World.step_async hw
    refine
      { toTracked := ht
        alloc := World.step_alloc h.alloc hw hq h.sane.valid
        made := hmade
        bind := fun m f hf => ?_
        futures := fun p n hp => ?_ }
    · simp only at hf
      split at hf
      · obtain rfl := Option.some.inj hf
        exact List.mem_append_right es List.mem_cons_self
      · exact hbind m f hf
    · simp only at hp
      split at hp
      · next hnew =>
        obtain rfl := Option.some.inj hp
        subst hnew
        exact ⟨Nat.lt_succ_self _, h.alloc.settledBy_new hposted.stack hposted.promCount
          (fun v hv => by rw [hposted.fresh.1] at hv; cases hv) hposted.fresh.2, h.posted_tasks hposted (by simp [carries])⟩
      · refine (h.futures p n hp).stepWorld hw hq h.sane (fun o ho => ?_) rfl (Nat.le_succ _) ?_
        · rw [hposted.events] at ho
          cases ho
        · exact h.toTracked.carries_posted (h.futures p n hp).lt ⟨x.calls, k, op⟩ rfl
  | @here i k op hfree hhome =>
    refine h.inside ht rfl (Nat.le_succ _) rfl rfl fun j c b hb => ?_
    rcases mem_push hb with ⟨rfl, -⟩ | hb
    · exact ⟨op, List.mem_append_right es List.mem_cons_self⟩
    · exact hmade j c b hb
  | @enter i f hf =>
    obtain ⟨-, u, l, -, hfun⟩ := entering_eq hf
    refine h.inside ht rfl (Nat.le_refl _) rfl rfl fun j c b hb => ?_
    rcases mem_push hb with ⟨rfl, -⟩ | hb
    · exact ⟨f.op, hbind _ f hfun⟩
    · exact hmade j c b hb
  | @access i b write next hb =>
    exact h.inside ht rfl (Nat.le_refl _) rfl rfl (h.goTo_made (active_mem hb))
  | @goOn i b next o hb =>
    exact h.inside ht rfl (Nat.le_refl _) rfl rfl (h.goTo_made (active_mem hb))
  | @finish i b o w ew hb hrest hposted hw =>
    have hev : worldEvents (.returned b.call b.actor o :: ew.map .world : List (ActorEvent A Op V)) = ew :=
      worldEvents_map ew
    rw [hev] at hq
    obtain ⟨op, hop⟩ := h.made i _ b (active_mem hb)
    refine
      { toTracked := ht
        alloc := World.step_alloc h.alloc hw hq h.sane.valid
        made := fun j c b' hb' => hmade j c b' (mem_pop hb')
        bind := hbind
        futures := fun p n hp => ?_ }
    refine (h.futures p n hp).stepWorld hw hq h.sane (fun o' ho => ?_) rfl (Nat.le_refl _) rfl
    rcases h.settled_finish hb hposted hw hp ho with ⟨rfl, rfl⟩ | ho
    · exact .inl ⟨b.actor, op, List.mem_append_left _ hop, List.mem_append_right es List.mem_cons_self⟩
    · exact .inr ho
  | @value i b v hb hrest hposted =>
    obtain ⟨op, hop⟩ := h.made i _ b (active_mem hb)
    refine
      { toTracked := ht
        alloc := ⟨fun j c p f hf hp => Nat.lt_succ_of_lt (h.alloc.frames j c p f hf hp),
          fun j p t ht hp => Nat.lt_succ_of_lt (h.alloc.queues j p t ht hp), fun t p hph => by cases hph⟩
        made := fun j c b' hb' => hmade j c b' (mem_pop hb')
        bind := hbind
        futures := fun p n hp => ?_ }
    simp only at hp
    split at hp
    · next hnew =>
      obtain rfl := Option.some.inj hp
      subst hnew
      refine ⟨(h.known i _ b (active_mem hb)).lt, h.alloc.settledBy_new (fun _ _ => rfl) rfl (fun u hu => ?_) ?_, fun y => ?_⟩
      · rw [World.readyPromise_new] at hu
        obtain rfl := Option.some.inj hu
        exact .inl ⟨b.actor, op, List.mem_append_left _ hop, List.mem_append_right es List.mem_cons_self⟩
      · rw [World.readyPromise_new]
      · rw [World.readyPromise_held]
        refine Nat.le_zero.1 ?_
        rw [← h.alloc.none_held y]
        exact World.held_mono (fun u hu => (Bool.and_eq_true _ _ ▸ hu).1) y
    · next hold =>
      have hwait := h.futures p n hp
      refine hwait.next (Nat.le_refl _) rfl ?_ fun y => ?_
      · exact (hwait.settled.mono fun o ho => ho.append _).readyPromise v
      · rw [World.readyPromise_held]
        exact hwait.tasks y
  | @throw i b er hb =>
    exact h.inside ht rfl (Nat.le_refl _) rfl rfl fun j c b' hb' => hmade j c b' (mem_pop hb')

end Results

end ActorWorld

end BoostCmt
