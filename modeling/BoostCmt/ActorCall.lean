import BoostCmt.Lib.Atomic
import BoostCmt.Spinning
import BoostCmt.Slot
/-!
# Calling a method of an actor

`operator()` of `actor_member` compares the running thread with the thread of the
actor. On another thread it posts the delegate with its arguments through `async`, and
on the actor's own thread it calls the delegate at once. Either way the caller gets a
future.

`ActorWorld` puts the objects of the actors and the calls of their methods on top of the
`World`. What a method does is a `Method`: accesses to its object, and calls of
other code, which may switch to another context before they return.
-/

namespace BoostCmt

open Runs Places

/-- The code of a method. -/
inductive Method (S V : Type) where
  /-- Returns or throws. -/
  | ret (o : Outcome V)
  /-- Writes the object, and goes on with what it was before. -/
  | access (write : S → S) (next : S → Method S V)
  /-- Calls the library, methods of actors, or other code, and goes on with what that gives. -/
  | call (next : Outcome V → Method S V)

namespace Method

variable {S V : Type}

/-- What the method makes of its object and how it ends, if it calls no other code. -/
def run : Method S V → S → Option (S × Outcome V)
  | .ret o, s => some (s, o)
  | .access write next, s => (next s).run (write s)
  | .call _, _ => none

/-- Inside of a call of other code. -/
def inCall : Method S V → Bool
  | .call _ => true
  | _ => false

end Method

/-- `calculator::add` of the example. -/
def add (v : Nat) : Method Nat Nat := .access (· + v) fun r => .ret (.value (r + v))

/-- The same, but for 0, where it reads the object and calls other code before it adds 1. -/
def addAfterCall (_ v : Nat) : Method Nat Nat :=
  if v = 0 then .access id fun _ => .call fun _ => add 1 else add v

/-- A method that has begun and not ended. -/
structure Activation (A S V : Type) where
  /-- The number of the call. -/
  call : Nat
  actor : A
  rest : Method S V
  /-- The functor of a task has called it, not the code on the actor's thread. -/
  posted : Bool
  /-- The stack that it was called on. -/
  below : List (Frame V)

/-- `boost::bind( m_delegate, fp )`, with the number of the call that it is made for. -/
structure BoundCall (A Op : Type) where
  call : Nat
  actor : A
  op : Op
  deriving DecidableEq, Repr

structure ActorWorld (A Op S V : Type) where
  world : World V := {}
  /-- What the delegates of an actor are bound to. -/
  object : A → S
  /-- How many calls there have been. -/
  calls : Nat := 0
  /-- `m_functor` of the tasks that carry out calls. -/
  functor : Nat → Option (BoundCall A Op) := fun _ => none
  /-- The call whose result a future gives. -/
  future : PromId → Option Nat := fun _ => none
  /-- The methods that a context is inside of, the innermost first. -/
  running : ThreadId → CtxId → List (Activation A S V) := fun _ _ => []

inductive ActorAction (A Op V : Type) where
  /-- A step of the world that is no part of a method's call. -/
  | base (a : Action V)
  /-- `operator()` of an `actor_member` is called on thread `i`. -/
  | invoke (i : ThreadId) (t : Int) (a : A) (op : Op)
  /-- The functor of a task calls the delegate. -/
  | enter (i : ThreadId)
  | access (i : ThreadId)
  /-- The code that a method has called gives `o`, and the method goes on. -/
  | goOn (i : ThreadId) (o : Outcome V)
  | ret (i : ThreadId)
  deriving DecidableEq, Repr

inductive ActorEvent (A Op V : Type) where
  | world (e : Event V)
  | called (k : Nat) (a : A) (op : Op)
  /-- The object of `a` is accessed on thread `i`. -/
  | accessed (i : ThreadId) (a : A)
  | returned (k : Nat) (a : A) (o : Outcome V)
  deriving DecidableEq, Repr

/-- `new promise<T>( v )`. -/
def World.readyPromise {V : Type} (w : World V) (v : V) : World V :=
  { w with promCount := w.promCount + 1 }.modProm w.promCount (fun _ => { value := some v })

namespace ActorWorld

variable {A Op S V : Type} [DecidableEq V]

/-- The method that thread `i` executes, if nothing that it has called is above it. -/
def active (x : ActorWorld A Op S V) (i : ThreadId) : Option (Activation A S V) :=
  match x.running i (x.world.cur i) with
  | b :: _ => if b.below = x.world.cpu i then some b else none
  | [] => none

/-- The delegate that the functor on top of thread `i` is about to call. -/
def entering (x : ActorWorld A Op S V) (i : ThreadId) : Option (BoundCall A Op) :=
  match x.active i, x.world.cpu i with
  | none, .task t :: _ => x.functor t.postedNum
  | _, _ => none

/-- Whether thread `i` executes code that may call the library and methods of actors. -/
def free (x : ActorWorld A Op S V) (i : ThreadId) : Bool :=
  match x.world.cpu i with
  | .user :: _ | .task _ :: _ =>
    match x.active i with
    | some b => b.rest.inCall
    | none => (x.entering i).isNone
  | _ => false

/-- `set_value` and `set_exception` of a promise that its future alone names. -/
def settlesFuture (x : ActorWorld A Op S V) : Call V → Bool
  | .set p _ => (x.future p).isSome
  | _ => false

/-- Whether an action of the world is possible where the methods are. -/
def allows (x : ActorWorld A Op S V) : Action V → Bool
  | .call i _ c => x.free i && !x.settlesFuture c
  | .finish i _ => (x.active i).isNone && (x.entering i).isNone
  | _ => true

def setRunning (x : ActorWorld A Op S V) (i : ThreadId) (l : List (Activation A S V)) : ActorWorld A Op S V :=
  { x with running := fun j c => if j = i ∧ c = x.world.cur i then l else x.running j c }

def push (x : ActorWorld A Op S V) (i : ThreadId) (b : Activation A S V) : ActorWorld A Op S V :=
  x.setRunning i (b :: x.running i (x.world.cur i))

def pop (x : ActorWorld A Op S V) (i : ThreadId) : ActorWorld A Op S V :=
  x.setRunning i (x.running i (x.world.cur i)).tail

/-- The innermost method `b` goes on with `m`. -/
def goTo (x : ActorWorld A Op S V) (i : ThreadId) (b : Activation A S V) (m : Method S V) : ActorWorld A Op S V :=
  (x.pop i).push i { b with rest := m }

def stepWorld (x : ActorWorld A Op S V) (a : Action V) : Option (ActorWorld A Op S V × List (ActorEvent A Op V)) :=
  (x.world.step a).map fun (w, e) => ({ x with world := w }, e.map .world)

section Calls
variable [DecidableEq A] (home : A → ThreadId) (body : A → Op → Method S V)

/-- `m_thread->async<R>( bind( m_delegate, fp ) )`. -/
def post (x : ActorWorld A Op S V) (i : ThreadId) (t : Int) (a : A) (op : Op) :
    Option (ActorWorld A Op S V × List (ActorEvent A Op V)) :=
  (x.world.step (.call i t (.async (home a) timePointMin 0))).map fun (w, e) =>
    ({ x with
        world := w
        calls := x.calls + 1
        functor := fun n => if n = x.world.taskCount + 1 then some ⟨x.calls, a, op⟩ else x.functor n
        future := fun p => if p = x.world.promCount then some x.calls else x.future p },
      .called x.calls a op :: e.map .world)

/-- `operator()` of an `actor_member` of `a`. -/
def operator (x : ActorWorld A Op S V) (i : ThreadId) (t : Int) (a : A) (op : Op) :
    Option (ActorWorld A Op S V × List (ActorEvent A Op V)) :=
  if i ≠ home a then x.post home i t a op
  else some ({ x with calls := x.calls + 1 }.push i ⟨x.calls, a, body a op, false, x.world.cpu i⟩, [.called x.calls a op])

/-- The method `b` ends. The functor of a task hands the result to `rtask::run`; the caller on the actor's thread gets
a future that is ready, or the exception. -/
def leave (x : ActorWorld A Op S V) (i : ThreadId) (b : Activation A S V) (o : Outcome V) :
    Option (ActorWorld A Op S V × List (ActorEvent A Op V)) :=
  if b.posted then
    (x.world.step (.finish i o)).map fun (w, e) => ({ x.pop i with world := w }, .returned b.call b.actor o :: e.map .world)
  else
    match o with
    | .value v => some ({ x.pop i with
        world := x.world.readyPromise v
        future := fun p => if p = x.world.promCount then some b.call else x.future p }, [.returned b.call b.actor o])
    | .error _ => some (x.pop i, [.returned b.call b.actor o])

def step (x : ActorWorld A Op S V) : ActorAction A Op V → Option (ActorWorld A Op S V × List (ActorEvent A Op V))
  | .base a => if x.allows a then x.stepWorld a else none
  | .invoke i t a op => if x.free i then x.operator home body i t a op else none
  | .enter i =>
    match x.entering i with
    | some f => some (x.push i ⟨f.call, f.actor, body f.actor f.op, true, x.world.cpu i⟩, [])
    | none => none
  | .access i =>
    match x.active i with
    | some b =>
      match b.rest with
      | .access write next =>
        some ({ x with object := fun a => if a = b.actor then write (x.object a) else x.object a }.goTo i b
          (next (x.object b.actor)), [.accessed i b.actor])
      | _ => none
    | none => none
  | .goOn i o =>
    match x.active i with
    | some b =>
      match b.rest with
      | .call next => some (x.goTo i b (next o), [])
      | _ => none
    | none => none
  | .ret i =>
    match x.active i with
    | some b =>
      match b.rest with
      | .ret o => x.leave i b o
      | _ => none
    | none => none

/-- What a step does, in nine cases. -/
inductive Shape (home : A → ThreadId) (body : A → Op → Method S V) (x : ActorWorld A Op S V) :
    ActorWorld A Op S V → List (ActorEvent A Op V) → Prop where
  | base {a w e} : x.allows a = true → x.world.step a = some (w, e) →
      Shape home body x { x with world := w } (e.map .world)
  /-- The delegate is posted to the thread of the actor. -/
  | post {i t k op w e} : x.free i = true → x.world.step (.call i t (.async (home k) timePointMin 0)) = some (w, e) →
      Shape home body x { x with
        world := w
        calls := x.calls + 1
        functor := fun n => if n = x.world.taskCount + 1 then some ⟨x.calls, k, op⟩ else x.functor n
        future := fun p => if p = x.world.promCount then some x.calls else x.future p }
      (.called x.calls k op :: e.map .world)
  /-- The delegate is called at once. -/
  | here {i k op} : x.free i = true → home k = i →
      Shape home body x ({ x with calls := x.calls + 1 }.push i ⟨x.calls, k, body k op, false, x.world.cpu i⟩)
        [.called x.calls k op]
  | enter {i f} : x.entering i = some f →
      Shape home body x (x.push i ⟨f.call, f.actor, body f.actor f.op, true, x.world.cpu i⟩) []
  | access {i b write next} : x.active i = some b → b.rest = .access write next →
      Shape home body x
        ({ x with object := fun k => if k = b.actor then write (x.object k) else x.object k }.goTo i b
          (next (x.object b.actor))) [.accessed i b.actor]
  | goOn {i b next} (o : Outcome V) : x.active i = some b → b.rest = .call next →
      Shape home body x (x.goTo i b (next o)) []
  /-- A method that a task has called ends. -/
  | finish {i b o w e} : x.active i = some b → b.rest = .ret o → b.posted = true →
      x.world.step (.finish i o) = some (w, e) →
      Shape home body x { x.pop i with world := w } (.returned b.call b.actor o :: e.map .world)
  /-- A method that was called on the actor's thread returns a value, or throws. -/
  | value {i b v} : x.active i = some b → b.rest = .ret (.value v) → b.posted = false →
      Shape home body x { x.pop i with
        world := x.world.readyPromise v
        future := fun p => if p = x.world.promCount then some b.call else x.future p }
      [.returned b.call b.actor (.value v)]
  | throw {i b er} : x.active i = some b → b.rest = .ret (.error er) → b.posted = false →
      Shape home body x (x.pop i) [.returned b.call b.actor (.error er)]

theorem step_shape {home : A → ThreadId} {body : A → Op → Method S V} {x x' : ActorWorld A Op S V}
    {act : ActorAction A Op V} {e : List (ActorEvent A Op V)} (hs : x.step home body act = some (x', e)) :
    Shape home body x x' e := by
  cases act with
  | base a =>
    simp only [step] at hs
    split at hs
    · next ha =>
      obtain ⟨⟨w, ew⟩, hw, he⟩ := Option.map_eq_some_iff.1 hs
      obtain ⟨rfl, rfl⟩ := Prod.mk.inj he
      exact .base ha hw
    · cases hs
  | invoke i t k op =>
    simp only [step] at hs
    split at hs
    · next hfree =>
      unfold operator at hs
      split at hs
      · obtain ⟨⟨w, ew⟩, hw, he⟩ := Option.map_eq_some_iff.1 hs
        obtain ⟨rfl, rfl⟩ := Prod.mk.inj he
        exact .post hfree hw
      · next hhome =>
        obtain ⟨rfl, rfl⟩ := Prod.mk.inj (Option.some.inj hs)
        exact .here hfree (Classical.not_not.1 hhome).symm
    · cases hs
  | enter i =>
    simp only [step] at hs
    split at hs
    · next f hf =>
      obtain ⟨rfl, rfl⟩ := Prod.mk.inj (Option.some.inj hs)
      exact .enter hf
    · cases hs
  | access i =>
    simp only [step] at hs
    split at hs
    · next b hb =>
      split at hs
      · next hrest =>
        obtain ⟨rfl, rfl⟩ := Prod.mk.inj (Option.some.inj hs)
        exact .access hb hrest
      · cases hs
    · cases hs
  | goOn i o =>
    simp only [step] at hs
    split at hs
    · next b hb =>
      split at hs
      · next hrest =>
        obtain ⟨rfl, rfl⟩ := Prod.mk.inj (Option.some.inj hs)
        exact .goOn o hb hrest
      · cases hs
    · cases hs
  | ret i =>
    simp only [step] at hs
    split at hs
    · next b hb =>
      split at hs
      · next o hrest =>
        unfold leave at hs
        split at hs
        · next hposted =>
          obtain ⟨⟨w, ew⟩, hw, he⟩ := Option.map_eq_some_iff.1 hs
          obtain ⟨rfl, rfl⟩ := Prod.mk.inj he
          exact .finish hb hrest hposted hw
        · next hposted =>
          rw [Bool.not_eq_true] at hposted
          cases o with
          | value v =>
            obtain ⟨rfl, rfl⟩ := Prod.mk.inj (Option.some.inj hs)
            exact .value hb hrest hposted
          | error er =>
            obtain ⟨rfl, rfl⟩ := Prod.mk.inj (Option.some.inj hs)
            exact .throw hb hrest hposted
      · cases hs
    · cases hs

end Calls

end ActorWorld

/-! ## Where a task is -/

namespace World

section Tasks
variable {V : Type} {w₀ w w' u u' : World V} {i j j₀ : ThreadId} {ph ph' : Phase} {es e : List (Event V)}
  {P : Task → Bool} {a : Action V} {t : Task}

/-- `P` picks no task that is made from now on. -/
def Old (P : Task → Bool) (w : World V) : Prop :=
  ∀ t, w.taskCount < t.postedNum → (∀ p, t.body = .rtask p → w.promCount ≤ p) → P t = false

theorem Old.posts (h : Old P w) (htask : w.taskCount ≤ u.taskCount) (hprom : w.promCount ≤ u.promCount)
    (hp : Posts u u' i j es t) : P t = false := by
  obtain ⟨hnum, -, hbody⟩ := hp
  apply h t
  · rw [hnum]
    exact Nat.lt_succ_of_le htask
  · intro p hp
    rcases hbody with ⟨hbody, -⟩ | hbody | ⟨q, hbody, -⟩ <;> rw [hbody] at hp
    · exact TaskBody.rtask.inj hp ▸ hprom
    · cases hp
    · cases hp

/-- There is one copy at most of the tasks that `P` picks, and it is on thread `j₀`. -/
structure SoleAt (P : Task → Bool) (j₀ : ThreadId) (ph : Phase) (w : World V) (i : ThreadId) : Prop where
  sole : AtMostOne (held P ph w)
  queue : ∀ j, j ≠ j₀ → held P ph w (.queue j) = 0
  stack : ∀ j c, j ≠ j₀ → held P ph w (.stack j c) = 0
  hand : held P ph w .hand ≠ 0 → i = j₀

theorem SoleAt.start (h : SoleAt P j₀ .out w i) (k : ThreadId) : SoleAt P j₀ .start w k where
  sole := h.sole.mono fun x => Nat.le_of_eq (held_out P w x)
  queue := h.queue
  stack := h.stack
  hand hne := absurd rfl hne

/-- A task stays on the thread that it was posted to. -/
theorem Move.soleAt (hm : Move w₀ i ph w ph' w' es) (hq : NoQuit es) (hv : Valid w)
    (hnew : ∀ j t, Posts w w' i j es t → P t = false) (h : SoleAt P j₀ ph w i) : SoleAt P j₀ ph' w' i := by
  have hnone : ∀ j, j ≠ j₀ → ∀ t ∈ (w.thr j).tasks, P t = false := by
    intro j hj t ht
    have hno := List.countP_eq_zero.1 (h.queue j hj) t ht
    simpa using hno
  have hhand : i ≠ j₀ → held P ph w .hand = 0 := by
    intro hi
    by_contra hne
    exact hi (h.hand hne)
  constructor
  · exact hm.sole hq hv (fun j t hp hP => absurd hP (by rw [hnew j t hp]; exact Bool.false_ne_true)) h.sole
  · intro j hj
    refine List.countP_eq_zero.2 fun t ht => ?_
    rw [Bool.not_eq_true]
    rcases hm.tasks hq j with hp | ⟨-, s, -, hp⟩ | ⟨s, hp, he⟩
    · exact hnone j hj t (hp.symm.subset ht)
    · exact hnone j hj t (hp.symm.subset (List.mem_cons_of_mem _ ht))
    · rw [he] at ht
      rcases List.mem_cons.1 ht with rfl | ht
      · exact hnew j t hp
      · exact hnone j hj t ht
  · intro j c hj
    have hle := hm.stack_functors (P := P) hv j c
    rw [h.stack j c hj, Nat.zero_add] at hle
    split at hle
    · next hji =>
      rw [hhand (hji.1 ▸ hj), Nat.zero_sub] at hle
      exact Nat.le_zero.1 hle
    · exact Nat.le_zero.1 hle
  · intro hne
    cases ph' with
    | hand t =>
      have hP : P t = true := by
        by_contra hP
        exact hne (if_neg hP)
      rcases hm.hand_from with rfl | ht
      · exact h.hand (by simp [held, hP])
      · by_contra hi
        rw [hnone i hi t ht] at hP
        cases hP
    | _ => exact absurd rfl hne

/-- What every move keeps that makes no task which `P` picks, every step keeps. -/
theorem step_inv_old (I : Phase → World V → Prop) (hs : w.step a = some (w', e)) (hq : NoQuit e) (hw : Sane w)
    (hold : Old P w)
    (hI : ∀ ph u ph' u' es, Move w a.thread ph u ph' u' es → NoQuit es → Valid u →
      (∀ j t, Posts u u' a.thread j es t → P t = false) → I ph u → I ph' u')
    (h : I .start w) : I .out w' := by
  have hend := (step_moves hs).inv
    (fun ph u => Valid u ∧ w.taskCount ≤ u.taskCount ∧ w.promCount ≤ u.promCount ∧ I ph u) ?_
    ⟨hw.valid, Nat.le_refl _, Nat.le_refl _, h⟩
  · exact hend.2.2.2
  · intro ph u ph' u' es hm he hu
    obtain ⟨hv, htask, hprom, hI'⟩ := hu
    have hq' : NoQuit es := fun j hj => hq j (he _ hj)
    refine ⟨hm.valid hv, Nat.le_trans htask (hm.taskCount_le hq'), Nat.le_trans hprom hm.globals.2, ?_⟩
    exact hI ph u ph' u' es hm hq' hv (fun j t hp => hold.posts htask hprom hp) hI'

theorem step_soleAt (hs : w.step a = some (w', e)) (hq : NoQuit e) (hw : Sane w) (hold : Old P w)
    (h : SoleAt P j₀ .start w a.thread) : SoleAt P j₀ .start w' i :=
  (step_inv_old (fun ph u => SoleAt P j₀ ph u a.thread) hs hq hw hold
    (fun _ _ _ _ _ hm hq' hv hnew hI => hm.soleAt hq' hv hnew hI) h).start i

theorem step_none_held (hs : w.step a = some (w', e)) (hq : NoQuit e) (hw : Sane w) (hold : Old P w)
    (h : ∀ y, held P .start w y = 0) (y : Place) : held P .start w' y = 0 := by
  rw [held_out]
  exact step_inv_old (fun ph u => ∀ y, held P ph u y = 0) hs hq hw hold
    (fun _ _ _ _ _ hm hq' hv hnew hI => hm.none_held hq' hv hnew hI) h y

/-- The counts of tasks and promises only grow. -/
theorem step_counts (hs : w.step a = some (w', e)) (hq : NoQuit e) :
    w.taskCount ≤ w'.taskCount ∧ w.promCount ≤ w'.promCount :=
  ⟨(step_moves hs).inv (fun _ u => w.taskCount ≤ u.taskCount)
    (fun _ _ _ _ _ hm he hI => Nat.le_trans hI (hm.taskCount_le fun j hj => hq j (he _ hj))) (Nat.le_refl _),
    step_promCount hs⟩

theorem Numbered.step (h : Numbered .start w) (hs : w.step a = some (w', e)) (hq : NoQuit e) (hw : Sane w) :
    Numbered .start w' := by
  have hend := (step_moves hs).inv (fun ph u => Valid u ∧ Numbered ph u)
    (fun _ _ _ _ _ hm he hI => ⟨hm.valid hI.1, hm.numbered (fun j hj => hq j (he _ hj)) hI.1 hI.2⟩) ⟨hw.valid, h⟩
  exact ⟨hend.2.frames, hend.2.queues, fun t ht => by cases ht⟩

end Tasks

end World

namespace World

section Posting
variable {V : Type} {w w' : World V} {i j : ThreadId} {t when prio : Int} {e : List (Event V)}

/-- What `async` leaves. -/
structure Posted (w w' : World V) (j : ThreadId) (e : List (Event V)) : Prop where
  cur : ∀ k, w'.cur k = w.cur k
  cpu : w'.cpu = w.cpu
  stack : ∀ k c, w'.stack k c = w.stack k c
  taskCount : w'.taskCount = w.taskCount + 1
  promCount : w'.promCount = w.promCount + 1
  prom : ∀ p, p ≠ w.promCount → w'.prom p = w.prom p
  fresh : (w'.prom w.promCount).value = none ∧ (w'.prom w.promCount).error = none
  events : e = []
  task : ∃ u : Task, u.postedNum = w.taskCount + 1 ∧ u.body = .rtask w.promCount ∧
    ∀ k, (w'.thr k).tasks = if k = j then u :: (w.thr k).tasks else (w.thr k).tasks

theorem step_async (hs : w.step (.call i t (.async j when prio)) = some (w', e)) : Posted w w' j e := by
  obtain ⟨-, hs⟩ := step_call hs
  obtain ⟨rfl, rfl⟩ := Prod.mk.inj (Option.some.inj hs)
  have hcur : ∀ {u : World V} {s : Task} (k : ThreadId), (u.async j s).cur k = u.cur k := fun _ => cur_async _ _ _ _
  refine ⟨fun _ => hcur _, rfl, fun k c => ?_, rfl, rfl, fun p hp => ?_, ?_, rfl, ⟨_, rfl, rfl, fun k => async_tasks _ _ _ _⟩⟩
  · rw [stack, stack, hcur]
    rfl
  · exact if_neg hp
  · have hprom : ∀ {u : World V} {s : Task} {o : Option Nat}, (((u.newPromise o false).2).async j s).prom u.promCount =
        { task := o, onStack := false } := if_pos rfl
    exact ⟨congrArg Promise.value hprom, congrArg Promise.error hprom⟩

/-- The task that is posted is the only one with its number. -/
theorem Posted.soleAt (hp : Posted w w' j e) (h : Numbered .start w) (k : ThreadId) :
    SoleAt (fun t => t.postedNum == w.taskCount + 1) j .start w' k := by
  have hzero := h.held_zero (Nat.lt_succ_self w.taskCount)
  obtain ⟨u, hnum, -, htasks⟩ := hp.task
  have hqueue : ∀ k, held (fun t => t.postedNum == w.taskCount + 1) .start w' (.queue k) = if k = j then 1 else 0 := by
    intro k
    have hk := hzero (.queue k)
    simp only [held] at hk ⊢
    rw [htasks]
    split
    · rw [List.countP_cons, hk, hnum]
      simp
    · exact hk
  have hstack : ∀ k c, held (fun t => t.postedNum == w.taskCount + 1) .start w' (.stack k c) = 0 := by
    intro k c
    have hk := hzero (.stack k c)
    simp only [held] at hk ⊢
    rw [hp.stack]
    exact hk
  refine ⟨AtMostOne.create (y := .queue j) hzero (fun z hz => ?_) ?_, fun k hk => ?_, fun k c _ => hstack k c,
    fun hne => absurd rfl hne⟩
  · cases z with
    | queue k =>
      rw [hqueue, if_neg fun e => hz (by rw [e])]
      exact Nat.zero_le _
    | hand => exact Nat.le_refl _
    | stack k c =>
      rw [hstack]
      exact Nat.zero_le _
  · rw [hqueue, if_pos rfl]
  · rw [hqueue, if_neg hk]

end Posting

end World

/-! ## Where the methods run -/

namespace ActorWorld

section Confinement
variable {A Op S V : Type} {home : A → ThreadId} {x x' : ActorWorld A Op S V}
  {i j : ThreadId} {c : CtxId} {b : Activation A S V} {l : List (Activation A S V)} {w : World V}
  {e : List (ActorEvent A Op V)} {a : Action V}

/-- What happens in the world. -/
def worldEvents (es : List (ActorEvent A Op V)) : List (Event V) :=
  es.filterMap fun
    | .world e => some e
    | _ => none

@[simp] theorem worldEvents_map (e : List (Event V)) : worldEvents (e.map .world : List (ActorEvent A Op V)) = e := by
  induction e with
  | nil => rfl
  | cons y e ih => exact congrArg (y :: ·) ih

@[simp] theorem worldEvents_append (es e : List (ActorEvent A Op V)) :
    worldEvents (es ++ e) = worldEvents es ++ worldEvents e := List.filterMap_append

theorem mem_world {ew : List (Event V)} {y : ActorEvent A Op V} (hy : y ∈ ew.map ActorEvent.world) :
    ∃ z ∈ ew, y = .world z := by
  obtain ⟨z, hz, rfl⟩ := List.mem_map.1 hy
  exact ⟨z, hz, rfl⟩

theorem setRunning_running (x : ActorWorld A Op S V) (i : ThreadId) (l : List (Activation A S V)) (j : ThreadId)
    (c : CtxId) : (x.setRunning i l).running j c = if j = i ∧ c = x.world.cur i then l else x.running j c := rfl

/-- Every method runs on the thread of its actor. Of the methods of one thread only one is outside of a call of other
code, and it is on top of its thread. The tasks that carry out the calls are on the threads of the actors. -/
structure Confined (home : A → ThreadId) (x : ActorWorld A Op S V) : Prop where
  sane : World.Sane x.world
  numbered : World.Numbered .start x.world
  onHome : ∀ i c, ∀ b ∈ x.running i c, home b.actor = i
  external : ∀ i c, ∀ b ∈ x.running i c, World.external b.below
  calling : ∀ i c, ∀ b ∈ (x.running i c).tail, b.rest.inCall = true
  top : ∀ i c b l, x.running i c = b :: l →
    b.rest.inCall = true ∨ (c = x.world.cur i ∧ b.below = x.world.cpu i)
  given : ∀ n f, x.functor n = some f → n ≤ x.world.taskCount
  tasks : ∀ n f, x.functor n = some f → World.SoleAt (fun t => t.postedNum == n) (home f.actor) .start x.world 0

theorem Confined.pop (h : Confined home x) (i : ThreadId) : Confined home (x.pop i) := by
  have htail : ∀ j c, ∀ b ∈ (x.pop i).running j c, b ∈ x.running j c := by
    intro j c b hb
    rw [ActorWorld.pop, setRunning_running] at hb
    split at hb
    · next hj =>
      rw [hj.1, hj.2]
      exact List.mem_of_mem_tail hb
    · exact hb
  refine
    { h with
      onHome := fun j c b hb => h.onHome j c b (htail j c b hb)
      external := fun j c b hb => h.external j c b (htail j c b hb)
      calling := fun j c b hb => ?_
      top := fun j c b l hl => ?_ }
  · rw [ActorWorld.pop, setRunning_running] at hb
    split at hb
    · exact h.calling i _ b (List.mem_of_mem_tail hb)
    · exact h.calling j c b hb
  · rw [ActorWorld.pop, setRunning_running] at hl
    split at hl
    · exact .inl (h.calling i _ b (by rw [hl]; exact List.mem_cons_self))
    · exact h.top j c b l hl

/-- A method begins, or goes on, on top of methods that are in calls. -/
theorem Confined.push (h : Confined home x) (hcalling : ∀ b' ∈ x.running i (x.world.cur i), b'.rest.inCall = true)
    (hhome : home b.actor = i) (hbelow : b.below = x.world.cpu i) (hx : World.external (x.world.cpu i)) :
    Confined home (x.push i b) := by
  refine
    { h with
      onHome := fun j c b' hb => ?_
      external := fun j c b' hb => ?_
      calling := fun j c b' hb => ?_
      top := fun j c b' l hl => ?_ }
  · rw [ActorWorld.push, setRunning_running] at hb
    split at hb
    · next hj =>
      rcases List.mem_cons.1 hb with rfl | hb
      · exact hhome.trans hj.1.symm
      · exact (h.onHome i _ b' hb).trans hj.1.symm
    · exact h.onHome j c b' hb
  · rw [ActorWorld.push, setRunning_running] at hb
    split at hb
    · rcases List.mem_cons.1 hb with rfl | hb
      · rw [hbelow]
        exact hx
      · exact h.external i _ b' hb
    · exact h.external j c b' hb
  · rw [ActorWorld.push, setRunning_running] at hb
    split at hb
    · exact hcalling b' hb
    · exact h.calling j c b' hb
  · rw [ActorWorld.push, setRunning_running] at hl
    split at hl
    · next hj =>
      obtain ⟨rfl, -⟩ := List.cons.inj hl
      exact .inr ⟨hj.1 ▸ hj.2, hj.1 ▸ hbelow⟩
    · exact h.top j c b' l hl

theorem pop_calling (h : Confined home x) (i : ThreadId) :
    ∀ b ∈ (x.pop i).running i ((x.pop i).world.cur i), b.rest.inCall = true := by
  intro b hb
  rw [ActorWorld.pop, setRunning_running] at hb
  rw [if_pos ⟨rfl, rfl⟩] at hb
  exact h.calling i _ b hb

theorem Confined.readyPromise (h : Confined home x) (v : V) (g : PromId → Option Nat) :
    Confined home { x with world := x.world.readyPromise v, future := g } where
  sane := ⟨h.sane.valid, h.sane.blank⟩
  numbered := ⟨h.numbered.frames, h.numbered.queues, h.numbered.hand⟩
  onHome := h.onHome
  external := h.external
  calling := h.calling
  top := h.top
  given := h.given
  tasks n f hf := by
    have hat := h.tasks n f hf
    have hheld : World.held (fun t => t.postedNum == n) .start (x.world.readyPromise v) =
        World.held (fun t => t.postedNum == n) .start x.world := by
      funext y
      cases y <;> rfl
    exact ⟨hheld ▸ hat.sole, hat.queue, hat.stack, hat.hand⟩

theorem confined_init (s : A → S) : Confined home ({ object := s } : ActorWorld A Op S V) where
  sane := World.sane_init
  numbered := (World.orderly_init 0).tasks.numbered
  onHome i c b hb := by cases hb
  external i c b hb := by cases hb
  calling i c b hb := by cases hb
  top i c b l hl := by cases hl
  given n f hf := by cases hf
  tasks n f hf := by cases hf

variable [DecidableEq V]

theorem active_eq : x.active i = some b ↔ ∃ l, x.running i (x.world.cur i) = b :: l ∧ b.below = x.world.cpu i := by
  unfold active
  constructor
  · intro h
    split at h
    · next b' l hl =>
      split at h
      · next hb =>
        obtain rfl := Option.some.inj h
        exact ⟨l, hl, hb⟩
      · cases h
    · cases h
  · rintro ⟨l, hl, hb⟩
    rw [hl]
    exact if_pos hb

theorem active_mem (hb : x.active i = some b) : b ∈ x.running i (x.world.cur i) := by
  obtain ⟨l, hl, -⟩ := active_eq.1 hb
  rw [hl]
  exact List.mem_cons_self

theorem entering_eq {f : BoundCall A Op} (h : x.entering i = some f) :
    x.active i = none ∧ ∃ t k, x.world.cpu i = .task t :: k ∧ x.functor t.postedNum = some f := by
  unfold entering at h
  split at h
  · next t k ha hcpu => exact ⟨ha, t, k, hcpu, h⟩
  · cases h

theorem Confined.outside (h : Confined home x) (hb : b ∈ x.running i c) (hout : b.rest.inCall = false) :
    c = x.world.cur i ∧ x.active i = some b := by
  cases hl : x.running i c with
  | nil =>
    rw [hl] at hb
    cases hb
  | cons b' l =>
    rw [hl] at hb
    rcases List.mem_cons.1 hb with rfl | hmem
    · rcases h.top i c b l hl with hin | ⟨rfl, hbelow⟩
      · rw [hout] at hin
        cases hin
      · exact ⟨rfl, active_eq.2 ⟨l, hl, hbelow⟩⟩
    · have hin := h.calling i c b (by rw [hl]; exact hmem)
      rw [hout] at hin
      cases hin

/-- The method on top goes on. -/
theorem Confined.goTo (h : Confined home x) (hb : x.active i = some b) (m : Method S V) :
    Confined home (x.goTo i b m) := by
  obtain ⟨-, -, hbelow⟩ := active_eq.1 hb
  refine (h.pop i).push (pop_calling h i) (h.onHome i _ b (active_mem hb)) hbelow ?_
  show World.external (x.world.cpu i)
  rw [← hbelow]
  exact h.external i _ b (active_mem hb)

/-- A step of the world that leaves the methods which are outside of calls where they are. -/
theorem Confined.stepWorld {ew : List (Event V)} (h : Confined home x) (hs : x.world.step a = some (w, ew))
    (hq : World.NoQuit ew)
    (hkeep : ∀ j b, x.active j = some b → b.rest.inCall = false → w.cur j = x.world.cur j ∧ w.cpu j = x.world.cpu j) :
    Confined home { x with world := w } := by
  refine
    { sane := h.sane.step hs
      numbered := h.numbered.step hs hq h.sane
      onHome := h.onHome
      external := h.external
      calling := h.calling
      top := fun j c b l hl => ?_
      given := fun n f hf => Nat.le_trans (h.given n f hf) (World.step_counts hs hq).1
      tasks := fun n f hf => ?_ }
  · rcases h.top j c b l hl with hin | ⟨rfl, hbelow⟩
    · exact .inl hin
    · cases hout : b.rest.inCall with
      | true => exact .inl rfl
      | false =>
        obtain ⟨hcur, hcpu⟩ := hkeep j b (active_eq.2 ⟨l, hl, hbelow⟩) hout
        exact .inr ⟨hcur.symm, hbelow.trans hcpu.symm⟩
  · have hold : World.Old (fun t => t.postedNum == n) x.world := fun t ht _ =>
      beq_false_of_ne (Nat.ne_of_gt (Nat.lt_of_le_of_lt (h.given n f hf) ht))
    have hat := h.tasks n f hf
    exact World.step_soleAt hs hq h.sane hold ⟨hat.sole, hat.queue, hat.stack, fun hne => absurd rfl hne⟩

/-- Nothing runs on a thread with a method on top but the method. -/
theorem Confined.allowed (h : Confined home x) {ew : List (Event V)} (ha : x.allows a = true)
    (hs : x.world.step a = some (w, ew)) (hb : x.active j = some b) (hout : b.rest.inCall = false) :
    w.cur j = x.world.cur j ∧ w.cpu j = x.world.cpu j := by
  obtain ⟨-, -, hbelow⟩ := active_eq.1 hb
  have hx : World.external (x.world.cpu j) := by
    rw [← hbelow]
    exact h.external j _ b (active_mem hb)
  have hother : a.thread ≠ j → w.cur j = x.world.cur j ∧ w.cpu j = x.world.cpu j := by
    intro hj
    obtain ⟨hcpu, hf⟩ := World.step_other hs h.sane hj
    exact ⟨by simp only [World.cur, hf.current], hcpu⟩
  by_cases hj : a.thread = j
  · cases a with
    | tick t =>
      simp only [World.step] at hs
      split at hs
      · obtain ⟨rfl, -⟩ := Prod.mk.inj (Option.some.inj hs)
        exact ⟨rfl, rfl⟩
      · cases hs
    | call k t c =>
      obtain rfl : k = j := hj
      simp only [allows, free, hb, hout, Bool.and_eq_true] at ha
      have hfree := ha.1
      split at hfree <;> cases hfree
    | finish k o =>
      obtain rfl : k = j := hj
      simp [allows, hb] at ha
    | run k t₁ t₂ t₃ =>
      obtain rfl : k = j := hj
      exact absurd hx (World.step_external hs (.inl ⟨_, _, _, _, rfl⟩))
    | contend k t =>
      obtain rfl : k = j := hj
      exact absurd hx (World.step_external hs (.inr ⟨_, _, rfl⟩))
  · exact hother hj

theorem free_eq (h : x.free i = true) :
    World.external (x.world.cpu i) ∧ ∀ b, x.active i = some b → b.rest.inCall = true := by
  unfold free at h
  split at h
  · next hcpu =>
    refine ⟨by rw [hcpu]; trivial, fun b hb => ?_⟩
    simpa only [hb] using h
  · next hcpu =>
    refine ⟨by rw [hcpu]; trivial, fun b hb => ?_⟩
    simpa only [hb] using h
  · cases h

/-- Where no method is outside of a call, all are in calls. -/
theorem Confined.all_calling (h : Confined home x) (hact : ∀ b, x.active i = some b → b.rest.inCall = true) :
    ∀ b ∈ x.running i (x.world.cur i), b.rest.inCall = true := by
  intro b hb
  cases hout : b.rest.inCall with
  | true => rfl
  | false =>
    have hin := hact b (h.outside hb hout).2
    rw [hout] at hin
    cases hin

/-- A delegate is called on the thread of its actor. -/
theorem Confined.entering_home (h : Confined home x) {f : BoundCall A Op} (hf : x.entering i = some f) :
    home f.actor = i := by
  obtain ⟨-, t, k, hcpu, hfun⟩ := entering_eq hf
  by_contra hne
  have hzero := (h.tasks _ f hfun).stack i (x.world.cur i) (Ne.symm hne)
  refine List.countP_eq_zero.1 hzero (.task t) ?_ (by simp [Frame.functor])
  rw [World.stack_cur, hcpu]
  exact List.mem_cons_self

/-- The world of a thread that is free goes on. -/
theorem Confined.stepFree {ew : List (Event V)} (h : Confined home x) (hfree : x.free a.thread = true)
    (hs : x.world.step a = some (w, ew)) (hq : World.NoQuit ew) : Confined home { x with world := w } := by
  refine h.stepWorld hs hq fun j b hb hout => ?_
  have hj : a.thread ≠ j := by
    rintro rfl
    have hin := (free_eq hfree).2 b hb
    rw [hout] at hin
    cases hin
  obtain ⟨hcpu, hf⟩ := World.step_other hs h.sane hj
  exact ⟨by simp only [World.cur, hf.current], hcpu⟩

section Steps
variable [DecidableEq A] {body : A → Op → Method S V} {k : A}

theorem Confined.step (h : Confined home x) (hs : Shape home body x x' e) (hq : World.NoQuit (worldEvents e)) :
    Confined home x' := by
  cases hs with
  | base ha hw =>
    rw [worldEvents_map] at hq
    exact h.stepWorld hw hq fun j b hb hout => h.allowed ha hw hb hout
  | @post i t k op w ew hfree hw =>
    have hev : worldEvents (.called x.calls k op :: ew.map .world : List (ActorEvent A Op V)) = ew := worldEvents_map ew
    rw [hev] at hq
    have hworld := h.stepFree (a := .call i t (.async (home k) timePointMin 0)) hfree hw hq
    have hposted := World.step_async hw
    refine
      { sane := hworld.sane
        numbered := hworld.numbered
        onHome := h.onHome
        external := h.external
        calling := h.calling
        top := hworld.top
        given := fun n f hf => ?_
        tasks := fun n f hf => ?_ }
    · simp only at hf
      split at hf
      · next hn =>
        rw [hn]
        exact Nat.le_of_eq hposted.taskCount.symm
      · exact hworld.given n f hf
    · simp only at hf
      split at hf
      · next hn =>
        obtain rfl := Option.some.inj hf
        rw [hn]
        exact hposted.soleAt h.numbered 0
      · exact hworld.tasks n f hf
  | here hfree hhome =>
    obtain ⟨hx, hact⟩ := free_eq hfree
    have hcalled : Confined home { x with calls := x.calls + 1 } := { h with }
    exact hcalled.push (h.all_calling hact) hhome rfl hx
  | enter hf =>
    obtain ⟨hnone, u, k, hcpu, -⟩ := entering_eq hf
    refine h.push (h.all_calling fun b hb => ?_) (h.entering_home hf) rfl (by rw [hcpu]; trivial)
    rw [hnone] at hb
    cases hb
  | @access i b write next hb hrest =>
    have hwrite : Confined home { x with object := fun k => if k = b.actor then write (x.object k) else x.object k } :=
      { h with }
    exact hwrite.goTo hb _
  | goOn o hb hrest => exact h.goTo hb _
  | @finish i b o w ew hb hrest hposted hw =>
    have hev : worldEvents (.returned b.call b.actor o :: ew.map .world : List (ActorEvent A Op V)) = ew :=
      worldEvents_map ew
    rw [hev] at hq
    refine (h.pop i).stepWorld hw hq fun j b' hb' hout => ?_
    have hj : i ≠ j := by
      rintro rfl
      have hin := pop_calling h i b' (active_mem hb')
      rw [hout] at hin
      cases hin
    obtain ⟨hcpu, hf⟩ := World.step_other hw h.sane hj
    exact ⟨by simp only [World.cur, hf.current]; rfl, hcpu⟩
  | value => exact (h.pop _).readyPromise _ _
  | throw => exact h.pop _

/-- An object is accessed by the method on top of a thread. -/
theorem Shape.accessed (hs : Shape home body x x' e) (hacc : .accessed i k ∈ e) :
    ∃ b, x.active i = some b ∧ b.actor = k := by
  cases hs with
  | base =>
    obtain ⟨z, -, hz⟩ := mem_world hacc
    cases hz
  | post | finish =>
    rcases List.mem_cons.1 hacc with hacc | hacc
    · cases hacc
    · obtain ⟨z, -, hz⟩ := mem_world hacc
      cases hz
  | here | value | throw => cases List.mem_singleton.1 hacc
  | enter | goOn => cases hacc
  | @access j b write next hb =>
    obtain ⟨rfl, rfl⟩ := ActorEvent.accessed.inj (List.mem_singleton.1 hacc)
    exact ⟨b, hb, rfl⟩

/-- Steps of a run in which `quit` is not called. -/
def Unquit (e : List (ActorEvent A Op V)) : Prop := World.NoQuit (worldEvents e)

/-- Executing actions in which `quit` is not called is a run. -/
theorem run_of_unquit (home : A → ThreadId) (body : A → Op → Method S V) (s : A → S)
    (f : ActorWorld A Op S V → List (ActorEvent A Op V) → Bool) (as : List (ActorAction A Op V))
    (h : ((exec (step home body) (fun _ _ _ e => (worldEvents e).all fun y => !(y matches .quitted _)) []
      { object := s } as).any fun r => f r.1 r.2) = true) :
    ∃ x es, Run (step home body) (fun _ _ _ e => Unquit e) { object := s } x es ∧ f x es = true :=
  run_of_check (step home body) (fun _ _ _ e => Unquit e) (fun _ _ _ e => (worldEvents e).all fun y => !(y matches .quitted _))
    { object := s } f as (fun es x a e hb j hj => by
      have hy := List.all_eq_true.1 hb _ hj
      cases hy) h

/-- In every run without `quit`, whatever the methods do and whoever calls them from wherever: each method runs on the
thread of its actor, and so does each access to the actor's object. Of the methods of one thread's actors one at most
is outside of a call of other code, and that one is on top of its thread, so that nothing else accesses the object
between two accesses unless the method itself has made a call in between. -/
theorem methods_exclude {s : A → S} {es : List (ActorEvent A Op V)}
    (h : Run (step home body) (fun _ _ _ e => Unquit e) ({ object := s } : ActorWorld A Op S V) x es) :
    (∀ i k, .accessed i k ∈ es → home k = i) ∧
      (∀ i c, ∀ b ∈ x.running i c, home b.actor = i) ∧
      ∀ i c, ∀ b ∈ x.running i c, b.rest.inCall = false → c = x.world.cur i ∧ b.below = x.world.cpu i ∧
        ∀ c', ∀ b' ∈ x.running i c', b'.rest.inCall = false → c' = c ∧ b' = b := by
  obtain ⟨hI, hacc⟩ := h.inv (fun es x => Confined home x ∧ ∀ i k, .accessed i k ∈ es → home k = i)
    ⟨confined_init s, fun i k hk => by cases hk⟩ (fun es x act x' e hI hq hs => by
      refine ⟨hI.1.step (step_shape hs) hq, fun i k hk => ?_⟩
      rcases List.mem_append.1 hk with hk | hk
      · exact hI.2 i k hk
      · obtain ⟨b, hb, rfl⟩ := (step_shape hs).accessed hk
        exact hI.1.onHome i _ b (active_mem hb))
  refine ⟨hacc, hI.onHome, fun i c b hb hout => ?_⟩
  obtain ⟨hc, hact⟩ := hI.outside hb hout
  obtain ⟨l, -, hbelow⟩ := active_eq.1 hact
  refine ⟨hc, hbelow, fun c' b' hb' hout' => ?_⟩
  obtain ⟨hc', hact'⟩ := hI.outside hb' hout'
  exact ⟨hc'.trans hc.symm, Option.some.inj (hact'.symm.trans hact)⟩

/-- A method that is inside of its call, and `add` of the same actor on top of it. -/
theorem methods_exclude_nested : ∃ (x : ActorWorld Nat Nat Nat Nat) (es : List (ActorEvent Nat Nat Nat)),
    (Run (step (fun _ => 1) addAfterCall) (fun _ _ _ e => Unquit e) { object := fun _ => 0 } x es ∧
      .accessed 1 0 ∈ es ∧ (x.running 1 0).map (·.rest.inCall) = [false, true]) ∧
    (∀ i k, .accessed i k ∈ es → 1 = i) ∧
      (∀ i c, ∀ b ∈ x.running i c, 1 = i) ∧
      ∀ i c, ∀ b ∈ x.running i c, b.rest.inCall = false → c = x.world.cur i ∧ b.below = x.world.cpu i ∧
        ∀ c', ∀ b' ∈ x.running i c', b'.rest.inCall = false → c' = c ∧ b' = b := by
  obtain ⟨x, es, h, he⟩ := run_of_unquit (fun _ => 1) addAfterCall (fun _ => 0)
    (fun x es => decide (.accessed 1 0 ∈ es ∧ (x.running 1 0).map (·.rest.inCall) = [false, true]))
    [.invoke 0 0 0 0, .base (.call 1 0 .exec), .base (.run 1 0 0 0), .enter 1, .access 1, .invoke 1 0 0 5] (by decide)
  exact ⟨x, es, ⟨h, of_decide_eq_true he⟩, methods_exclude h⟩

end Steps

end Confinement

/-! ## The calls in progress -/

section Tracking
variable {A Op S V : Type} {home : A → ThreadId} {x x' : ActorWorld A Op S V} {i j : ThreadId} {c : CtxId}
  {b b' : Activation A S V} {l : List (Activation A S V)} {w : World V} {e : List (ActorEvent A Op V)} {k : A}

theorem mem_pop (h : b ∈ (x.pop i).running j c) : b ∈ x.running j c := by
  rw [ActorWorld.pop, setRunning_running] at h
  split at h
  · next hj =>
    rw [hj.1, hj.2]
    exact List.mem_of_mem_tail h
  · exact h

theorem mem_pop_of_ne (h : b' ∈ x.running j c) (hl : x.running i (x.world.cur i) = b :: l) (hne : b' ≠ b) :
    b' ∈ (x.pop i).running j c := by
  rw [ActorWorld.pop, setRunning_running]
  split
  · next hj =>
    rw [hj.1, hj.2, hl] at h
    rw [hl]
    exact (List.mem_cons.1 h).resolve_left hne
  · exact h

theorem mem_push (h : b' ∈ (x.push i b).running j c) : (b' = b ∧ j = i ∧ c = x.world.cur i) ∨ b' ∈ x.running j c := by
  rw [ActorWorld.push, setRunning_running] at h
  split at h
  · next hj =>
    rcases List.mem_cons.1 h with rfl | h
    · exact .inl ⟨rfl, hj⟩
    · rw [hj.1, hj.2]
      exact .inr h
  · exact .inr h

theorem push_self (x : ActorWorld A Op S V) (i : ThreadId) (b : Activation A S V) :
    b ∈ (x.push i b).running i (x.world.cur i) := by
  rw [ActorWorld.push, setRunning_running, if_pos ⟨rfl, rfl⟩]
  exact List.mem_cons_self

theorem push_mem (b : Activation A S V) (h : b' ∈ x.running j c) : b' ∈ (x.push i b).running j c := by
  rw [ActorWorld.push, setRunning_running]
  split
  · next hj =>
    rw [hj.1, hj.2] at h
    exact List.mem_cons_of_mem _ h
  · exact h

/-- Which call a method carries out. -/
structure Known (x : ActorWorld A Op S V) (b : Activation A S V) : Prop where
  lt : b.call < x.calls
  posted : b.posted = true → ∃ u l f, b.below = .task u :: l ∧ x.functor u.postedNum = some f ∧ f.call = b.call
  unposted : b.posted = false → ∀ n f, x.functor n = some f → f.call ≠ b.call

/-- No call is made twice. -/
structure Tracked (home : A → ThreadId) (x : ActorWorld A Op S V) : Prop extends Confined home x where
  known : ∀ i c, ∀ b ∈ x.running i c, Known x b
  bound : ∀ n f, x.functor n = some f → f.call < x.calls
  apart : ∀ n m f g, x.functor n = some f → x.functor m = some g → f.call = g.call → n = m

theorem Tracked.popped (h : Tracked home x) {g : PromId → Option Nat}
    (hc : Confined home { x.pop i with world := w, future := g }) :
    Tracked home { x.pop i with world := w, future := g } where
  toConfined := hc
  known j c b hb := by
    have hk := h.known j c b (mem_pop hb)
    exact ⟨hk.lt, hk.posted, hk.unposted⟩
  bound := h.bound
  apart := h.apart

theorem Tracked.pushed (h : Tracked home x) (hc : Confined home (x.push i b)) (hb : Known x b) :
    Tracked home (x.push i b) where
  toConfined := hc
  known j c b' hb' := by
    rcases mem_push hb' with ⟨rfl, -⟩ | hb'
    · exact ⟨hb.lt, hb.posted, hb.unposted⟩
    · have hk := h.known j c b' hb'
      exact ⟨hk.lt, hk.posted, hk.unposted⟩
  bound := h.bound
  apart := h.apart

theorem Tracked.goTo (h : Tracked home x) (hb : b ∈ x.running i (x.world.cur i)) {m : Method S V}
    (hc : Confined home (x.goTo i b m)) : Tracked home (x.goTo i b m) := by
  have hk := h.known i _ b hb
  have hpop : Tracked home { x.pop i with world := x.world, future := x.future } := h.popped (h.toConfined.pop i)
  exact hpop.pushed hc ⟨hk.lt, hk.posted, hk.unposted⟩

theorem Tracked.called (h : Tracked home x) : Tracked home { x with calls := x.calls + 1 } where
  toConfined := { h.toConfined with }
  known j c b hb := by
    have hk := h.known j c b hb
    exact ⟨Nat.lt_succ_of_lt hk.lt, hk.posted, hk.unposted⟩
  bound n f hf := Nat.lt_succ_of_lt (h.bound n f hf)
  apart := h.apart

theorem Tracked.wrote (h : Tracked home x) (s : A → S) : Tracked home { x with object := s } where
  toConfined := { h.toConfined with }
  known j c b hb := by
    have hk := h.known j c b hb
    exact ⟨hk.lt, hk.posted, hk.unposted⟩
  bound := h.bound
  apart := h.apart

theorem tracked_init (s : A → S) : Tracked home ({ object := s } : ActorWorld A Op S V) where
  toConfined := confined_init s
  known i c b hb := by cases hb
  bound n f hf := by cases hf
  apart n m f g hf := by cases hf

variable [DecidableEq V]

variable [DecidableEq A] {body : A → Op → Method S V}

theorem Tracked.step (h : Tracked home x) (hs : Shape home body x x' e) (hq : World.NoQuit (worldEvents e)) :
    Tracked home x' := by
  have hc := h.toConfined.step hs hq
  cases hs with
  | base =>
    exact
      { toConfined := hc
        known := fun j c b hb => ⟨(h.known j c b hb).lt, (h.known j c b hb).posted, (h.known j c b hb).unposted⟩
        bound := h.bound
        apart := h.apart }
  | post =>
    have hold : ∀ {n f}, x.functor n = some f → n ≠ x.world.taskCount + 1 := fun hf =>
      Nat.ne_of_lt (Nat.lt_succ_of_le (h.given _ _ hf))
    refine { toConfined := hc, known := fun j c b hb => ?_, bound := fun n f hf => ?_, apart := fun n m f g hf hg hfg => ?_ }
    · have hk := h.known j c b hb
      refine ⟨Nat.lt_succ_of_lt hk.lt, fun hp => ?_, fun hp n f hf => ?_⟩
      · obtain ⟨u, l, f, hbelow, hf, hcall⟩ := hk.posted hp
        exact ⟨u, l, f, hbelow, (if_neg (hold hf)).trans hf, hcall⟩
      · simp only at hf
        split at hf
        · obtain rfl := Option.some.inj hf
          exact Nat.ne_of_gt hk.lt
        · exact hk.unposted hp n f hf
    · simp only at hf
      split at hf
      · obtain rfl := Option.some.inj hf
        exact Nat.lt_succ_self _
      · exact Nat.lt_succ_of_lt (h.bound n f hf)
    · simp only at hf hg
      split at hf <;> split at hg
      · next hn hm => exact hn.trans hm.symm
      · obtain rfl := Option.some.inj hf
        exact absurd hfg.symm (Nat.ne_of_lt (h.bound m g hg))
      · obtain rfl := Option.some.inj hg
        exact absurd hfg (Nat.ne_of_lt (h.bound n f hf))
      · exact h.apart n m f g hf hg hfg
  | here =>
    refine h.called.pushed hc ⟨Nat.lt_succ_self _, fun hp => absurd hp Bool.false_ne_true, fun _ n f hf => ?_⟩
    exact Nat.ne_of_lt (h.bound n f hf)
  | enter hf =>
    obtain ⟨-, u, l, hcpu, hfun⟩ := entering_eq hf
    exact h.pushed hc ⟨h.bound _ _ hfun, fun _ => ⟨u, l, _, hcpu, hfun, rfl⟩, fun hp => by cases hp⟩
  | @access i b write next hb =>
    have hwrote := h.wrote fun k => if k = b.actor then write (x.object k) else x.object k
    exact hwrote.goTo (active_mem hb) hc
  | goOn o hb => exact h.goTo (active_mem hb) hc
  | finish => exact h.popped hc
  | value => exact h.popped hc
  | throw => exact h.popped hc

end Tracking

end ActorWorld

end BoostCmt
