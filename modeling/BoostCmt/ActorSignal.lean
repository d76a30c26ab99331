import BoostCmt.Lib.Runs
import Mathlib.Algebra.Ring.Nat
import Mathlib.Data.List.Nodup
/-!
# Signal members of an actor

An `actor_member` of a signal has a signal of its own, `m_signal`, and mirrors the
signal of the object that it is bound to. `operator()` calls the slots of `m_signal`
and then emits the mirrored signal. `set_delegate` connects `emit` to the mirrored
signal, which is `m_reverse_con`, so that the slots of `m_signal` also see what the
object emits. A `scoped_block_signal` keeps one direction from starting the other.

What runs on the actor's thread is a stack of frames. A slot is the user's: it may
return, throw, call `operator()` or emit the mirrored signal again, or wait, and then
its task is parked and the thread goes on with another. Slots are connected and
disconnected while no call is under way.
-/

namespace BoostCmt

open Runs

namespace ActorSignal

/-- A slot that the user has connected. -/
abbrev SlotId := Nat

/-- What is connected to the mirrored signal. -/
inductive MirrorSlot where
  | foreign (s : SlotId)
  /-- `m_reverse_con`, which calls `emit`. -/
  | reverse
  deriving DecidableEq, Repr

/-- What a signal calls: a slot of `m_signal`, a slot of the mirrored signal, or `emit`. -/
inductive Callee where
  | own (s : SlotId)
  | foreign (s : SlotId)
  | reverse
  deriving DecidableEq, Repr

/-- What a user can call: `operator()` of the member, or the mirrored signal. -/
inductive Entry where
  | operator
  | emission
  deriving DecidableEq, Repr

/-- A user's call, and whether the reverse connection was blocked when it began. -/
structure Call where
  entry : Entry
  id : Nat
  blocked : Bool
  deriving DecidableEq, Repr

/-- Where `operator()` is. -/
inductive Phase where
  /-- Before it emits `m_signal`. -/
  | signal
  /-- Before it calls `m_delegate`. -/
  | delegate
  /-- Before the destructor of `block_reverse`. -/
  | done
  deriving DecidableEq, Repr

/-- A stack frame, with the number of the user's call that it works for. A frame with a
`scoped_block_signal` has its `unblock`; one that emits has the slots that are still to be called. -/
inductive Frame where
  | operator (n : Nat) (unblock : Bool) (phase : Phase)
  /-- The code that emits the mirrored signal. -/
  | emission (n : Nat)
  | emit (n : Nat) (unblock : Bool)
  | signal (n : Nat) (rest : List SlotId)
  | mirror (n : Nat) (rest : List MirrorSlot)
  /-- A slot of the user's. -/
  | slot (n : Nat)
  deriving DecidableEq, Repr

inductive Event where
  | started (c : Call)
  | called (n : Nat) (callee : Callee)
  | ended (n : Nat) (threw : Bool)
  /-- `m_connect_delegate(num_slots)`. -/
  | counted (numSlots : Nat)
  deriving DecidableEq, Repr

inductive Action where
  /-- `operator()` on the actor's thread. -/
  | call
  /-- `operator()` on another thread, which posts it to the actor's thread. -/
  | callFrom
  /-- The actor's thread starts a posted `operator()`. -/
  | dispatch
  /-- The mirrored signal is emitted. -/
  | emitMirror
  | connect (s : SlotId)
  | disconnect (s : SlotId)
  | connectForeign (s : SlotId)
  | disconnectForeign (s : SlotId)
  /-- The slot on top returns. -/
  | ret
  /-- The slot on top throws. -/
  | throw
  /-- The slot on top waits. -/
  | wait
  /-- The thread goes on with a parked task. -/
  | resume (i : Nat)
  /-- The frame on top, which is no slot, goes on. -/
  | run
  deriving DecidableEq, Repr

structure State where
  /-- `m_signal`. -/
  signal : List SlotId := []
  /-- The mirrored signal. -/
  mirror : List MirrorSlot
  /-- `m_reverse_con.blocked()`. -/
  blocked : Bool := false
  /-- `m_connect_delegate` is set. -/
  connectDelegate : Bool := false
  /-- The frames of the task that runs. -/
  stack : List Frame := []
  /-- The frames of the tasks that wait in a slot, the last to wait first. -/
  parked : List (List Frame) := []
  /-- Calls of `operator()` from other threads that have not started. -/
  posted : Nat := 0
  /-- The user's calls so far. -/
  count : Nat := 0
  deriving DecidableEq, Repr

def Frame.id : Frame → Nat
  | .operator n _ _ => n
  | .emission n => n
  | .emit n _ => n
  | .signal n _ => n
  | .mirror n _ => n
  | .slot n => n

/-- The frame that a user's call begins with. -/
def Frame.entry : Frame → Option Entry
  | .operator .. => some .operator
  | .emission _ => some .emission
  | _ => none

/-- The frame has a `scoped_block_signal` that will unblock. -/
def Frame.unblock : Frame → Bool
  | .operator _ u _ => u
  | .emit _ u => u
  | _ => false

/-- The end of a frame: the destructor of its `scoped_block_signal`. -/
def Frame.release (f : Frame) (blocked : Bool) : Bool := if f.unblock then false else blocked

/-- An exception leaves the frames of the user's call on top. What is left is the number of that call, whether the
reverse connection is blocked, and the frames below. -/
def unwind (blocked : Bool) : List Frame → Option (Nat × Bool × List Frame)
  | [] => none
  | f :: st => if f.entry.isSome then some (f.id, f.release blocked, st) else unwind (f.release blocked) st

namespace State

/-- After `set_delegate`, with `m` slots connected to the mirrored signal before. -/
def new (m : Nat) (connectDelegate : Bool) : State :=
  { mirror := (List.range m).map .foreign ++ [.reverse], connectDelegate }

/-- The frames of all tasks, those of the task that runs on top. -/
def whole (x : State) : List Frame := x.stack ++ x.parked.flatten

/-- The user's code runs: a slot, or a task that is in no call. -/
def userRuns (x : State) : Bool :=
  match x.stack with
  | [] => true
  | .slot _ :: _ => true
  | _ => false

/-- `operator()` on the actor's thread, up to the end of the constructor of `block_reverse`. -/
def operator (x : State) : State × List Event :=
  ({ x with blocked := true, count := x.count + 1, stack := .operator x.count (!x.blocked) .signal :: x.stack },
    [.started ⟨.operator, x.count, x.blocked⟩])

def emission (x : State) : State × List Event :=
  ({ x with count := x.count + 1, stack := .mirror x.count x.mirror :: .emission x.count :: x.stack },
    [.started ⟨.emission, x.count, x.blocked⟩])

def throw (x : State) : Option (State × List Event) :=
  (unwind x.blocked x.stack).map fun r => ({ x with blocked := r.2.1, stack := r.2.2 }, [.ended r.1 true])

/-- `m_connect_delegate(num_slots)`, if it is set. -/
def countConnected (x : State) : List Event := if x.connectDelegate then [.counted x.signal.length] else []

/-- The frame on top goes on. -/
def run (x : State) (f : Frame) (st : List Frame) : Option (State × List Event) :=
  match f with
  | .operator n u .signal =>
    if (x.signal.length : Int) - 1 > 0 then
      some ({ x with stack := .signal n x.signal :: .operator n u .delegate :: st }, [])
    else some ({ x with stack := .operator n u .delegate :: st }, [])
  | .operator n u .delegate =>
    -- `emit_or_throw`
    if (x.mirror.length : Int) - 1 > 0 then
      some ({ x with stack := .mirror n x.mirror :: .operator n u .done :: st }, [])
    else x.throw
  | .operator n u .done =>
    some ({ x with blocked := Frame.release (.operator n u .done) x.blocked, stack := st }, [.ended n false])
  | .emission n => some ({ x with stack := st }, [.ended n false])
  | .emit n u => some ({ x with blocked := Frame.release (.emit n u) x.blocked, stack := st }, [])
  | .signal _ [] => some ({ x with stack := st }, [])
  | .signal n (s :: rest) => some ({ x with stack := .slot n :: .signal n rest :: st }, [.called n (.own s)])
  | .mirror _ [] => some ({ x with stack := st }, [])
  | .mirror n (.foreign s :: rest) =>
    some ({ x with stack := .slot n :: .mirror n rest :: st }, [.called n (.foreign s)])
  | .mirror n (.reverse :: rest) =>
    if x.blocked then some ({ x with stack := .mirror n rest :: st }, [])
    else
      some ({ x with blocked := true, stack := .signal n x.signal :: .emit n (!x.blocked) :: .mirror n rest :: st },
        [.called n .reverse])
  | .slot _ => none

def step (x : State) : Action → Option (State × List Event)
  | .call => if x.userRuns then some x.operator else none
  | .callFrom => some ({ x with posted := x.posted + 1 }, [])
  | .dispatch =>
    if x.stack = [] ∧ 0 < x.posted then some (operator { x with posted := x.posted - 1 }) else none
  | .emitMirror => if x.userRuns then some x.emission else none
  | .connect s =>
    if x.whole = [] ∧ s ∉ x.signal then
      let y := { x with signal := x.signal ++ [s] }
      some (y, y.countConnected)
    else none
  | .disconnect s =>
    if x.whole = [] then
      let y := { x with signal := x.signal.erase s }
      some (y, y.countConnected)
    else none
  | .connectForeign s =>
    if x.whole = [] ∧ .foreign s ∉ x.mirror then some ({ x with mirror := x.mirror ++ [.foreign s] }, []) else none
  | .disconnectForeign s =>
    if x.whole = [] then some ({ x with mirror := x.mirror.erase (.foreign s) }, []) else none
  | .ret =>
    match x.stack with
    | .slot _ :: st => some ({ x with stack := st }, [])
    | _ => none
  | .throw =>
    match x.stack with
    | .slot _ :: _ => x.throw
    | _ => none
  | .wait =>
    match x.stack with
    | .slot _ :: _ => some ({ x with stack := [], parked := x.stack :: x.parked }, [])
    | _ => none
  | .resume i =>
    if x.stack = [] then
      x.parked[i]?.map fun st => ({ x with stack := st, parked := x.parked.eraseIdx i }, [])
    else none
  | .run =>
    match x.stack with
    | [] => none
    | f :: st => x.run f st

end State

open State

/-! ## What the frames say -/

/-- Some frame will unblock the reverse connection. -/
def blockers (st : List Frame) : Bool := st.any Frame.unblock

@[simp] theorem blockers_nil : blockers [] = false := rfl

@[simp] theorem blockers_cons (f : Frame) (st : List Frame) :
    blockers (f :: st) = (f.unblock || blockers st) := rfl

/-- The calls under way, the last to start first. -/
def underWay : List Frame → List Call
  | [] => []
  | f :: st =>
    match f.entry with
    | some k => ⟨k, f.id, blockers st⟩ :: underWay st
    | none => underWay st

/-- A frame that is not the first of its call works for the call of the frame below. -/
def Linked : List Frame → Prop
  | [] => True
  | f :: st => (f.entry = none → st.head?.map Frame.id = some f.id) ∧ Linked st

/-- The frame has a `scoped_block_signal`. -/
def Frame.guards : Frame → Bool
  | .operator .. => true
  | .emit .. => true
  | _ => false

/-- Each `scoped_block_signal` unblocks just if no other one below does, and a call has a number above those
below. -/
def Nested : List Frame → Prop
  | [] => True
  | f :: st =>
    (f.guards = true → f.unblock = !blockers st) ∧ (f.entry.isSome = true → ∀ g ∈ st, g.id < f.id) ∧ Nested st

theorem Frame.unblock_of_not_guards {f : Frame} (h : f.guards = false) : f.unblock = false := by
  cases f <;> first | rfl | cases h

/-- The destructor of a frame leaves the reverse connection blocked just if a frame below will unblock it. -/
theorem release_of_nested {f : Frame} {st : List Frame} (h : Nested (f :: st)) :
    f.release (blockers (f :: st)) = blockers st := by
  by_cases hg : f.guards = true
  · have hu := h.1 hg
    cases hb : blockers st <;> simp [Frame.release, hu, hb]
  · simp [Frame.release, Frame.unblock_of_not_guards (Bool.not_eq_true _ ▸ hg)]

/-- While an `operator()` is under way, the reverse connection is blocked. -/
theorem blockers_of_operator {c : Call} : ∀ {st : List Frame}, Nested st → c ∈ underWay st → c.entry = .operator →
    blockers st = true
  | f :: st, hg, hc, he => by
    cases hf : f.entry with
    | none =>
      simp only [underWay, hf] at hc
      simp [blockers_of_operator hg.2.2 hc he]
    | some k =>
      simp only [underWay, hf, List.mem_cons] at hc
      rcases hc with rfl | hc
      · have : f.guards = true := by cases f <;> simp_all [Frame.entry, Frame.guards]
        cases hb : blockers st <;> simp [hg.1 this, hb]
      · simp [blockers_of_operator hg.2.2 hc he]

/-- Throwing ends the last call that has started, and leaves the reverse connection as that call has found it. -/
theorem unwind_spec (below : List Frame) : ∀ {st : List Frame}, st ≠ [] → Linked st → Nested (st ++ below) →
    ∃ above f k rest, st = above ++ f :: rest ∧ f.entry = some k ∧ (∀ g ∈ above, g.entry = none ∧ g.id = f.id) ∧
      unwind (blockers (st ++ below)) st = some (f.id, blockers (rest ++ below), rest)
  | f :: st, _, hl, hg => by
    have hr : f.release (blockers (f :: (st ++ below))) = blockers (st ++ below) := release_of_nested hg
    cases hf : f.entry with
    | some k => exact ⟨[], f, k, st, rfl, hf, by simp, by simpa [unwind, hf] using hr⟩
    | none =>
      have hne : st ≠ [] := by
        rintro rfl
        cases hl.1 hf
      obtain ⟨above, b, k, rest, rfl, hb, ha, hu⟩ := unwind_spec below hne hl.2 hg.2.2
      have hid : f.id = b.id := by
        have := hl.1 hf
        cases above with
        | nil => simpa using this.symm
        | cons g above => simpa [(ha g (by simp)).2] using this.symm
      refine ⟨f :: above, b, k, rest, rfl, hb, fun g hgm => ?_, ?_⟩
      · rcases List.mem_cons.1 hgm with rfl | hgm
        · exact ⟨hf, hid⟩
        · exact ha g hgm
      · rw [unwind, hf, ← hu]
        exact congrArg (unwind · _) hr

theorem Linked.of_append : ∀ {above st : List Frame}, Linked (above ++ st) → Linked st
  | [], _, h => h
  | _ :: _, _, h => Linked.of_append h.2

theorem Nested.of_append : ∀ {above st : List Frame}, Nested (above ++ st) → Nested st
  | [], _, h => h
  | _ :: _, _, h => Nested.of_append h.2.2

theorem underWay_append {st : List Frame} : ∀ {above : List Frame}, (∀ g ∈ above, g.entry = none) →
    underWay (above ++ st) = underWay st
  | [], _ => rfl
  | g :: above, h => by
    simp only [List.cons_append, underWay, h g (by simp)]
    exact underWay_append fun f hf => h f (by simp [hf])

theorem underWay_id {c : Call} : ∀ {st : List Frame}, c ∈ underWay st → ∃ f ∈ st, f.id = c.id
  | f :: st, h => by
    cases hf : f.entry with
    | none =>
      simp only [underWay, hf] at h
      obtain ⟨g, hg, hi⟩ := underWay_id h
      exact ⟨g, by simp [hg], hi⟩
    | some k =>
      simp only [underWay, hf, List.mem_cons] at h
      rcases h with rfl | h
      · exact ⟨f, by simp, rfl⟩
      · obtain ⟨g, hg, hi⟩ := underWay_id h
        exact ⟨g, by simp [hg], hi⟩

/-! ## The calls that are still to be made -/

/-- What the call `n` has called so far. -/
def calledBy (n : Nat) (es : List Event) : List Callee :=
  es.filterMap fun
    | .called m c => if m = n then some c else none
    | _ => none

theorem calledBy_append (n : Nat) (es e : List Event) : calledBy n (es ++ e) = calledBy n es ++ calledBy n e :=
  List.filterMap_append

theorem mem_calledBy {n : Nat} {c : Callee} {es : List Event} : c ∈ calledBy n es ↔ .called n c ∈ es := by
  simp only [calledBy, List.mem_filterMap]
  constructor
  · rintro ⟨y, hy, hc⟩
    cases y with
    | called m d =>
      obtain ⟨rfl, rfl⟩ : m = n ∧ d = c := by simpa using hc
      exact hy
    | _ => cases hc
  · exact fun h => ⟨_, h, by simp⟩

theorem calledBy_eq_nil {n : Nat} {es : List Event} (h : ∀ c, .called n c ∉ es) : calledBy n es = [] :=
  List.eq_nil_iff_forall_not_mem.2 fun c hc => h c (mem_calledBy.1 hc)

variable (sig : List SlotId) (mir : List MirrorSlot)

/-- What emitting the mirrored signal calls, the slots of `m_signal` that `emit` calls included. -/
def fromMirror (blocked : Bool) (rest : List MirrorSlot) : List Callee :=
  rest.flatMap fun
    | .foreign s => [.foreign s]
    | .reverse => if blocked then [] else .reverse :: sig.map .own

/-- What `operator()` calls of `m_signal`. -/
def fromSignal : List Callee := if (sig.length : Int) - 1 > 0 then sig.map .own else []

/-- What a call calls from its beginning to its end. -/
def Call.callees (c : Call) : List Callee :=
  match c.entry with
  | .operator => fromSignal sig ++ fromMirror sig true mir
  | .emission => fromMirror sig c.blocked mir

/-- What a frame is still to call, with a reverse connection that the frames below leave `blocked`. -/
def Frame.pending (blocked : Bool) : Frame → List Callee
  | .operator _ _ .signal => fromSignal sig ++ fromMirror sig true mir
  | .operator _ _ .delegate => fromMirror sig true mir
  | .signal _ rest => rest.map .own
  | .mirror _ rest => fromMirror sig blocked rest
  | _ => []

/-- What the call `n` is still to call. -/
def pending (n : Nat) : List Frame → List Callee
  | [] => []
  | f :: st => (if f.id = n then f.pending sig mir (blockers st) else []) ++ pending n st

variable {sig mir}

theorem pending_eq_nil {n : Nat} : ∀ {st : List Frame}, (∀ f ∈ st, f.id ≠ n) → pending sig mir n st = []
  | [], _ => rfl
  | f :: st, h => by
    rw [pending, if_neg (h f (by simp)), List.nil_append]
    exact pending_eq_nil fun g hg => h g (by simp [hg])

theorem pending_append {n : Nat} {st : List Frame} : ∀ {above : List Frame}, (∀ f ∈ above, f.id ≠ n) →
    pending sig mir n (above ++ st) = pending sig mir n st
  | [], _ => rfl
  | f :: above, h => by
    rw [List.cons_append, pending, if_neg (h f (by simp)), List.nil_append]
    exact pending_append fun g hg => h g (by simp [hg])

/-! ## What a step does -/

/-- The steps of a run in which the task that has waited last is the first to go on. -/
def LastFirst (a : Action) : Prop := ∀ i, a = .resume i → i = 0

def lastFirstCheck : Action → Bool
  | .resume i => i == 0
  | _ => true

theorem lastFirstCheck_sound {a : Action} (h : lastFirstCheck a = true) : LastFirst a := by
  rintro i rfl
  exact beq_iff_eq.1 h

/-- What a step does to the calls under way. -/
inductive Shape (x x' : State) (e : List Event) : Prop where
  /-- No frame and no connection changes. -/
  | same (he : e = []) (hw : x'.whole = x.whole) (hb : x'.blocked = x.blocked) (hc : x'.count = x.count)
    (hs : x'.signal = x.signal) (hm : x'.mirror = x.mirror)
  /-- A slot is connected or disconnected. -/
  | rewired (he : ∀ y ∈ e, ∃ n, y = .counted n) (hw : x.whole = []) (hw' : x'.whole = [])
    (hb : x'.blocked = x.blocked) (hc : x'.count = x.count) (hs : x.signal.Nodup → x'.signal.Nodup)
    (hm : x.mirror.Nodup → x'.mirror.Nodup) (hr : .reverse ∈ x.mirror → .reverse ∈ x'.mirror)
  /-- A call starts. -/
  | starts (c : Call) (fs : List Frame) (he : e = [.started c]) (hw : x'.whole = fs ++ x.whole)
    (hb : x'.blocked = blockers x'.whole) (hc : x'.count = x.count + 1) (hs : x'.signal = x.signal)
    (hm : x'.mirror = x.mirror) (hid : c.id = x.count) (hcb : c.blocked = x.blocked) (hg : Nested x'.whole)
    (hu : underWay x'.whole = c :: underWay x.whole) (hf : ∀ f ∈ fs, f.id = x.count)
    (hp : pending x.signal x.mirror x.count x'.whole =
      c.callees x.signal x.mirror ++ pending x.signal x.mirror x.count x.whole)
  /-- The call on top goes on. -/
  | goes (f : Frame) (fs st : List Frame) (hw : x.whole = f :: st) (hw' : x'.whole = fs ++ st)
    (hb : x'.blocked = blockers x'.whole) (hc : x'.count = x.count) (hs : x'.signal = x.signal)
    (hm : x'.mirror = x.mirror) (he : ∀ y ∈ e, ∃ d, y = .called f.id d ∧ (d = .reverse → x.blocked = false))
    (hg : Nested x'.whole) (hu : underWay x'.whole = underWay x.whole) (hf : ∀ g ∈ fs, g.id = f.id)
    (hp : ∀ n, calledBy n e ++ pending x.signal x.mirror n x'.whole = pending x.signal x.mirror n x.whole)
  /-- The call on top ends. -/
  | ends (c : Call) (threw : Bool) (above : List Frame) (he : e = [.ended c.id threw])
    (hw : x.whole = above ++ x'.whole) (hb : x'.blocked = blockers x'.whole) (hcb : x'.blocked = c.blocked)
    (hc : x'.count = x.count) (hs : x'.signal = x.signal) (hm : x'.mirror = x.mirror)
    (hu : underWay x.whole = c :: underWay x'.whole) (hf : ∀ f ∈ above, f.id = c.id)
    (hlt : ∀ f ∈ x'.whole, f.id < c.id)
    (hp : threw = false → pending x.signal x.mirror c.id x.whole = pending x.signal x.mirror c.id x'.whole)

/-- What holds after every run. -/
structure Inv (es : List Event) (x : State) : Prop where
  linked : ∀ st ∈ x.stack :: x.parked, Linked st
  nested : Nested x.whole
  blocked : x.blocked = blockers x.whole
  ids_lt : ∀ f ∈ x.whole, f.id < x.count
  started_lt : ∀ c, .started c ∈ es → c.id < x.count
  called_lt : ∀ n c, .called n c ∈ es → n < x.count
  started_once : ∀ c d, .started c ∈ es → .started d ∈ es → c.id = d.id → c = d
  /-- What a call under way has called and is still to call is what it calls from beginning to end. -/
  accounted : ∀ c ∈ underWay x.whole, .started c ∈ es ∧
    calledBy c.id es ++ pending x.signal x.mirror c.id x.whole = c.callees x.signal x.mirror
  signal_nodup : x.signal.Nodup
  mirror_nodup : x.mirror.Nodup
  reverse_mem : .reverse ∈ x.mirror

variable {es e : List Event} {x x' : State}

theorem inv_new (m : Nat) (connectDelegate : Bool) : Inv [] (State.new m connectDelegate) where
  linked := by simp [State.new, Linked]
  nested := trivial
  blocked := rfl
  ids_lt := by simp [State.new, whole]
  started_lt := by simp
  called_lt := by simp
  started_once := by simp
  accounted := by simp [State.new, whole, underWay]
  signal_nodup := List.nodup_nil
  mirror_nodup := by
    refine List.Nodup.append (List.Nodup.map (fun _ _ h => MirrorSlot.foreign.inj h) List.nodup_range) (by simp) ?_
    simp [List.Disjoint]
  reverse_mem := by simp [State.new]

theorem Inv.linked_stack (h : Inv es x) : Linked x.stack := h.linked _ (by simp)

/-! ## Each action has a shape -/

theorem shape_operator (h : Inv es x) (p : Nat) :
    Shape x (State.operator { x with posted := p }).1 (State.operator { x with posted := p }).2 := by
  have hw : (State.operator { x with posted := p }).1.whole = .operator x.count (!x.blocked) .signal :: x.whole :=
    rfl
  have hb := h.blocked.symm
  refine .starts ⟨.operator, x.count, x.blocked⟩ [.operator x.count (!x.blocked) .signal] rfl rfl ?_ rfl rfl rfl rfl rfl
    ?_ ?_ (by simp [Frame.id]) ?_
  · show true = _
    rw [hw]
    cases hx : x.blocked <;> simp [Frame.unblock, hb, hx]
  · rw [hw]
    exact ⟨fun _ => by rw [hb]; rfl, fun _ => h.ids_lt, h.nested⟩
  · simp [hw, underWay, Frame.entry, Frame.id, hb]
  · simp [hw, pending, Frame.id, Frame.pending, Call.callees]

theorem shape_emission (h : Inv es x) : Shape x x.emission.1 x.emission.2 := by
  have hw : x.emission.1.whole = .mirror x.count x.mirror :: .emission x.count :: x.whole := rfl
  have hb := h.blocked.symm
  refine .starts ⟨.emission, x.count, x.blocked⟩ [.mirror x.count x.mirror, .emission x.count] rfl rfl ?_ rfl rfl rfl rfl
    rfl ?_ ?_ (by simp [Frame.id]) ?_
  · show x.blocked = _
    simp [hw, Frame.unblock, hb]
  · rw [hw]
    exact ⟨fun hg => (by cases hg), fun he => (by cases he), fun hg => (by cases hg), fun _ => h.ids_lt, h.nested⟩
  · simp [hw, underWay, Frame.entry, Frame.id, hb]
  · simp [hw, pending, Frame.id, Frame.pending, Call.callees, hb, Frame.unblock]

theorem whole_cons {f : Frame} {st : List Frame} (hx : x.stack = f :: st) :
    x.whole = f :: (st ++ x.parked.flatten) := by
  rw [whole, hx, List.cons_append]

theorem shape_throw (h : Inv es x) (hne : x.stack ≠ []) (hs : x.throw = some (x', e)) : Shape x x' e := by
  obtain ⟨above, f, k, rest, hst, hf, ha, hu⟩ := unwind_spec x.parked.flatten hne h.linked_stack h.nested
  have hw : x.whole = above ++ f :: (rest ++ x.parked.flatten) := by simp [whole, hst]
  have hn : Nested (f :: (rest ++ x.parked.flatten)) := Nested.of_append (hw ▸ h.nested)
  rw [State.throw, h.blocked, whole, hu] at hs
  obtain ⟨rfl, rfl⟩ := Prod.mk.inj (Option.some.inj hs)
  refine .ends ⟨k, f.id, blockers (rest ++ x.parked.flatten)⟩ true (above ++ [f]) rfl
    (by rw [hw]; simp [whole]) rfl rfl rfl rfl rfl
    ?_ ?_ ?_ (fun ht => (by cases ht))
  · rw [hw, underWay_append fun g hg => (ha g hg).1]
    simp [underWay, hf, whole]
  · intro g hg
    rcases List.mem_append.1 hg with hg | hg
    · exact (ha g hg).2
    · rw [List.mem_singleton.1 hg]
  · exact hn.2.1 (by simp [hf])

/-- The frame `f` on top becomes the frames `fs`. -/
theorem shape_goes {f : Frame} {st : List Frame} (hx : x.stack = f :: st) (fs : List Frame) (b : Bool)
    (hb : b = blockers (fs ++ (st ++ x.parked.flatten)))
    (he : ∀ y ∈ e, ∃ d, y = .called f.id d ∧ (d = .reverse → x.blocked = false))
    (hg : Nested (fs ++ (st ++ x.parked.flatten)))
    (hu : underWay (fs ++ (st ++ x.parked.flatten)) = underWay (f :: (st ++ x.parked.flatten)))
    (hf : ∀ g ∈ fs, g.id = f.id)
    (hp : ∀ n, calledBy n e ++ pending x.signal x.mirror n (fs ++ (st ++ x.parked.flatten)) =
      pending x.signal x.mirror n (f :: (st ++ x.parked.flatten))) :
    Shape x { x with blocked := b, stack := fs ++ st } e := by
  have hw' : whole { x with blocked := b, stack := fs ++ st } = fs ++ (st ++ x.parked.flatten) :=
    List.append_assoc ..
  have hw := whole_cons hx
  exact .goes f fs (st ++ x.parked.flatten) hw hw' (hw' ▸ hb) rfl rfl rfl he (hw' ▸ hg) (hw' ▸ hw ▸ hu) hf
    fun n => hw' ▸ hw ▸ hp n

/-- The frame on top ends a call. -/
theorem shape_ends {f : Frame} {k : Entry} {st : List Frame} (h : Inv es x) (hx : x.stack = f :: st)
    (hk : f.entry = some k) (hp : f.pending x.signal x.mirror (blockers (st ++ x.parked.flatten)) = []) :
    Shape x { x with blocked := f.release x.blocked, stack := st } [.ended f.id false] := by
  have hw := whole_cons hx
  have hn : Nested (f :: (st ++ x.parked.flatten)) := hw ▸ h.nested
  have hb : f.release x.blocked = blockers (st ++ x.parked.flatten) := by rw [h.blocked, hw, release_of_nested hn]
  refine .ends ⟨k, f.id, blockers (st ++ x.parked.flatten)⟩ false [f] rfl hw hb hb rfl rfl rfl ?_ (by simp)
    (hn.2.1 (by simp [hk])) fun _ => ?_
  · rw [hw]
    simp [underWay, hk, whole]
  · rw [hw]
    simp [pending, hp, whole]

theorem shape_run {f : Frame} {st : List Frame} (h : Inv es x) (hx : x.stack = f :: st)
    (hs : x.run f st = some (x', e)) : Shape x x' e := by
  have hw := whole_cons hx
  have hn : Nested (f :: (st ++ x.parked.flatten)) := hw ▸ h.nested
  have hb : x.blocked = blockers (f :: (st ++ x.parked.flatten)) := hw ▸ h.blocked
  cases f with
  | slot n => cases hs
  | emission n =>
    obtain ⟨rfl, rfl⟩ := Prod.mk.inj (Option.some.inj hs)
    exact shape_ends h hx rfl rfl
  | emit n u =>
    obtain ⟨rfl, rfl⟩ := Prod.mk.inj (Option.some.inj hs)
    refine shape_goes hx [] _ ?_ (by simp) hn.2.2 rfl (by simp) fun m => ?_
    · rw [hb, release_of_nested hn, List.nil_append]
    · simp [calledBy, pending, Frame.pending]
  | signal n rest =>
    cases rest with
    | nil =>
      obtain ⟨rfl, rfl⟩ := Prod.mk.inj (Option.some.inj hs)
      refine shape_goes hx [] _ hb (by simp) hn.2.2 rfl (by simp) fun m => ?_
      simp [calledBy, pending, Frame.pending]
    | cons s rest =>
      obtain ⟨rfl, rfl⟩ := Prod.mk.inj (Option.some.inj hs)
      refine shape_goes hx [.slot n, .signal n rest] _ hb (by simp [Frame.id])
        ⟨fun hg => (by cases hg), fun he => (by cases he), hn⟩ rfl (by simp [Frame.id]) fun m => ?_
      by_cases hm : n = m <;> simp [calledBy, pending, Frame.pending, Frame.id, hm]
  | mirror n rest =>
    cases rest with
    | nil =>
      obtain ⟨rfl, rfl⟩ := Prod.mk.inj (Option.some.inj hs)
      refine shape_goes hx [] _ hb (by simp) hn.2.2 rfl (by simp) fun m => ?_
      simp [calledBy, pending, Frame.pending, fromMirror]
    | cons s rest =>
      cases s with
      | foreign s =>
        obtain ⟨rfl, rfl⟩ := Prod.mk.inj (Option.some.inj hs)
        refine shape_goes hx [.slot n, .mirror n rest] _ hb (by simp [Frame.id])
          ⟨fun hg => (by cases hg), fun he => (by cases he), hn⟩ rfl (by simp [Frame.id]) fun m => ?_
        by_cases hm : n = m <;> simp [calledBy, pending, Frame.pending, Frame.id, hm, fromMirror]
      | reverse =>
        have hb' : x.blocked = blockers (st ++ x.parked.flatten) := hb
        simp only [State.run] at hs
        split at hs
        · next hblk =>
          obtain ⟨rfl, rfl⟩ := Prod.mk.inj (Option.some.inj hs)
          refine shape_goes hx [.mirror n rest] _ hb (by simp) hn rfl (by simp [Frame.id]) fun m => ?_
          by_cases hm : n = m <;> simp [calledBy, pending, Frame.pending, Frame.id, hm, fromMirror, ← hb', hblk]
        · next hblk =>
          obtain ⟨rfl, rfl⟩ := Prod.mk.inj (Option.some.inj hs)
          have hblk : x.blocked = false := Bool.not_eq_true _ ▸ hblk
          refine shape_goes hx [.signal n x.signal, .emit n (!x.blocked), .mirror n rest] _ ?_
            (by simp [Frame.id, hblk])
            ⟨fun hg => (by cases hg), fun he => (by cases he), fun _ => ?_, fun he => (by cases he), hn⟩ rfl
            (by simp [Frame.id]) fun m => ?_
          · simp [hblk, Frame.unblock]
          · simp [Frame.unblock, hb']
          · by_cases hm : n = m <;>
              simp [calledBy, pending, Frame.pending, Frame.id, hm, fromMirror, ← hb', hblk]
  | operator n u p =>
    have hu : u = !blockers (st ++ x.parked.flatten) := hn.1 rfl
    cases p with
    | done =>
      obtain ⟨rfl, rfl⟩ := Prod.mk.inj (Option.some.inj hs)
      exact shape_ends h hx rfl rfl
    | delegate =>
      simp only [State.run] at hs
      split at hs
      · obtain ⟨rfl, rfl⟩ := Prod.mk.inj (Option.some.inj hs)
        refine shape_goes hx [.mirror n x.mirror, .operator n u .done] _ hb (by simp)
          ⟨fun hg => (by cases hg), fun he => (by cases he), hn⟩ rfl (by simp [Frame.id]) fun m => ?_
        by_cases hm : n = m <;> simp [calledBy, pending, Frame.pending, Frame.id, hm, Frame.unblock, hu]
      · exact shape_throw h (by simp [hx]) hs
    | signal =>
      simp only [State.run] at hs
      split at hs
      · next hk =>
        obtain ⟨rfl, rfl⟩ := Prod.mk.inj (Option.some.inj hs)
        refine shape_goes hx [.signal n x.signal, .operator n u .delegate] _ hb (by simp)
          ⟨fun hg => (by cases hg), fun he => (by cases he), hn⟩ rfl (by simp [Frame.id]) fun m => ?_
        have hfs : fromSignal x.signal = x.signal.map .own := if_pos hk
        by_cases hm : n = m <;> simp [calledBy, pending, Frame.pending, Frame.id, hm, hfs]
      · next hk =>
        obtain ⟨rfl, rfl⟩ := Prod.mk.inj (Option.some.inj hs)
        refine shape_goes hx [.operator n u .delegate] _ hb (by simp) hn rfl (by simp [Frame.id]) fun m => ?_
        have hfs : fromSignal x.signal = [] := if_neg hk
        by_cases hm : n = m <;> simp [calledBy, pending, Frame.pending, Frame.id, hm, hfs]

/-- Connecting and disconnecting touch no frame. -/
theorem shape_rewired {sig : List SlotId} {mir : List MirrorSlot} (hw : x.whole = [])
    (hs : x.signal.Nodup → sig.Nodup) (hm : x.mirror.Nodup → mir.Nodup) (hr : .reverse ∈ x.mirror → .reverse ∈ mir)
    (he : ∀ y ∈ e, ∃ n, y = .counted n) : Shape x { x with signal := sig, mirror := mir } e :=
  .rewired he hw hw rfl rfl hs hm hr

theorem countConnected_counted : ∀ y ∈ x.countConnected, ∃ n, y = .counted n := by
  intro y hy
  rw [countConnected] at hy
  split at hy
  · exact ⟨_, List.mem_singleton.1 hy⟩
  · cases hy

theorem shape_of_step {a : Action} (h : Inv es x) (ha : LastFirst a) (hs : x.step a = some (x', e)) :
    Shape x x' e := by
  cases a with
  | call =>
    obtain ⟨-, hs⟩ := Option.ite_none_right_eq_some.1 hs
    cases hs
    exact shape_operator h x.posted
  | callFrom =>
    cases hs
    exact .same rfl rfl rfl rfl rfl rfl
  | dispatch =>
    obtain ⟨-, hs⟩ := Option.ite_none_right_eq_some.1 hs
    cases hs
    exact shape_operator h (x.posted - 1)
  | emitMirror =>
    obtain ⟨-, hs⟩ := Option.ite_none_right_eq_some.1 hs
    cases hs
    exact shape_emission h
  | connect s =>
    obtain ⟨⟨hw, hn⟩, hs⟩ := Option.ite_none_right_eq_some.1 hs
    cases hs
    exact shape_rewired hw (fun h => List.nodup_append_comm.1 (h.cons hn)) id id countConnected_counted
  | disconnect s =>
    obtain ⟨hw, hs⟩ := Option.ite_none_right_eq_some.1 hs
    cases hs
    exact shape_rewired hw (fun h => h.erase s) id id countConnected_counted
  | connectForeign s =>
    obtain ⟨⟨hw, hn⟩, hs⟩ := Option.ite_none_right_eq_some.1 hs
    cases hs
    exact shape_rewired hw id (fun h => List.nodup_append_comm.1 (h.cons hn)) (fun h => by simp [h]) (by simp)
  | disconnectForeign s =>
    obtain ⟨hw, hs⟩ := Option.ite_none_right_eq_some.1 hs
    cases hs
    exact shape_rewired hw id (fun h => h.erase _) (fun h => (List.mem_erase_of_ne (by simp)).2 h) (by simp)
  | ret =>
    simp only [State.step] at hs
    split at hs
    · next n st hx =>
      cases hs
      have hn : Nested (.slot n :: (st ++ x.parked.flatten)) := whole_cons hx ▸ h.nested
      refine shape_goes hx [] _ ?_ (by simp) hn.2.2 rfl (by simp) fun m => ?_
      · rw [h.blocked, whole_cons hx]
        rfl
      · simp [calledBy, pending, Frame.pending]
    · cases hs
  | throw =>
    simp only [State.step] at hs
    split at hs
    · next hx => exact shape_throw h (by simp [hx]) hs
    · cases hs
  | wait =>
    simp only [State.step] at hs
    split at hs
    · cases hs
      exact .same rfl (by simp [whole]) rfl rfl rfl rfl
    · cases hs
  | resume i =>
    obtain ⟨hx, hs⟩ := Option.ite_none_right_eq_some.1 hs
    obtain ⟨st, hst, hs⟩ := Option.map_eq_some_iff.1 hs
    cases hs
    obtain rfl := ha i rfl
    refine .same rfl ?_ rfl rfl rfl rfl
    cases hp : x.parked with
    | nil => simp [hp] at hst
    | cons st' parked =>
      simp only [hp, List.getElem?_cons_zero, Option.some.injEq] at hst
      simp [whole, hx, hp, hst]
  | run =>
    simp only [State.step] at hs
    split at hs
    · cases hs
    · next f st hx => exact shape_run h hx hs

/-! ## The invariant is kept -/

theorem unwind_suffix {b b' : Bool} {n : Nat} {rest : List Frame} : ∀ {st : List Frame},
    unwind b st = some (n, b', rest) → ∃ above, st = above ++ rest
  | f :: st, h => by
    rw [unwind] at h
    split at h
    · cases h
      exact ⟨[f], rfl⟩
    · obtain ⟨above, rfl⟩ := unwind_suffix h
      exact ⟨f :: above, rfl⟩

theorem linked_throw (h : Linked x.stack) (hs : x.throw = some (x', e)) :
    Linked x'.stack ∧ x'.parked = x.parked := by
  obtain ⟨⟨n, b, rest⟩, hu, hs⟩ := Option.map_eq_some_iff.1 hs
  cases hs
  obtain ⟨above, hx⟩ := unwind_suffix hu
  exact ⟨Linked.of_append (hx ▸ h), rfl⟩

theorem linked_run {f : Frame} {st : List Frame} (hx : x.stack = f :: st) (h : Linked x.stack)
    (hs : x.run f st = some (x', e)) : Linked x'.stack ∧ x'.parked = x.parked := by
  have hl : Linked (f :: st) := hx ▸ h
  revert hs
  fun_cases State.run x f st
  case case4 => exact linked_throw h
  case case14 => exact fun hs => (by cases hs)
  all_goals
    intro hs
    cases hs
    refine ⟨?_, rfl⟩
    -- the frame is gone, changes in place, or has one or two new frames of its own call on top
    first
      | exact hl.2
      | exact hl
      | exact ⟨fun _ => rfl, hl⟩
      | exact ⟨fun _ => rfl, fun _ => rfl, hl⟩

theorem linked_step {a : Action} (h : ∀ st ∈ x.stack :: x.parked, Linked st) (hs : x.step a = some (x', e)) :
    ∀ st ∈ x'.stack :: x'.parked, Linked st := by
  have hx : Linked x.stack := h _ (by simp)
  have hp : ∀ st ∈ x.parked, Linked st := fun st hst => h st (by simp [hst])
  -- the parked stacks stay
  have keep : ∀ {y : State}, Linked y.stack ∧ y.parked = x.parked → ∀ st ∈ y.stack :: y.parked, Linked st := by
    rintro y ⟨hy, hyp⟩ st hst
    rcases List.mem_cons.1 hst with rfl | hst
    · exact hy
    · exact hp st (hyp ▸ hst)
  cases a with
  | call =>
    obtain ⟨-, hs⟩ := Option.ite_none_right_eq_some.1 hs
    cases hs
    exact keep ⟨⟨fun h => (by cases h), hx⟩, rfl⟩
  | callFrom =>
    cases hs
    exact h
  | dispatch =>
    obtain ⟨-, hs⟩ := Option.ite_none_right_eq_some.1 hs
    cases hs
    exact keep ⟨⟨fun h => (by cases h), hx⟩, rfl⟩
  | emitMirror =>
    obtain ⟨-, hs⟩ := Option.ite_none_right_eq_some.1 hs
    cases hs
    exact keep ⟨⟨fun _ => rfl, fun h => (by cases h), hx⟩, rfl⟩
  | connect s =>
    obtain ⟨-, hs⟩ := Option.ite_none_right_eq_some.1 hs
    cases hs
    exact h
  | disconnect s =>
    obtain ⟨-, hs⟩ := Option.ite_none_right_eq_some.1 hs
    cases hs
    exact h
  | connectForeign s =>
    obtain ⟨-, hs⟩ := Option.ite_none_right_eq_some.1 hs
    cases hs
    exact h
  | disconnectForeign s =>
    obtain ⟨-, hs⟩ := Option.ite_none_right_eq_some.1 hs
    cases hs
    exact h
  | ret =>
    simp only [State.step] at hs
    split at hs
    · next n st hst =>
      cases hs
      exact keep ⟨(hst ▸ hx : Linked (.slot n :: st)).2, rfl⟩
    · cases hs
  | throw =>
    simp only [State.step] at hs
    split at hs
    · exact keep (linked_throw hx hs)
    · cases hs
  | wait =>
    simp only [State.step] at hs
    split at hs
    · cases hs
      rintro st (_ | ⟨_, hst⟩)
      · trivial
      · exact h st hst
    · cases hs
  | resume i =>
    obtain ⟨-, hs⟩ := Option.ite_none_right_eq_some.1 hs
    obtain ⟨st, hst, hs⟩ := Option.map_eq_some_iff.1 hs
    cases hs
    rintro st' (_ | ⟨_, hst'⟩)
    · exact hp st (List.mem_of_getElem? hst)
    · exact hp st' (List.mem_of_mem_eraseIdx hst')
  | run =>
    simp only [State.step] at hs
    split at hs
    · cases hs
    · next hst => exact keep (linked_run hst hx hs)

/-- A call that starts takes the next number. -/
theorem Shape.started {c : Call} (h : Shape x x' e) (hc : .started c ∈ e) :
    e = [.started c] ∧ c.id = x.count ∧ x'.count = x.count + 1 := by
  cases h with
  | same he => simp [he] at hc
  | rewired he =>
    obtain ⟨k, hk⟩ := he _ hc
    cases hk
  | starts d fs he hw hb hcount hsig hm hid =>
    rw [he, List.mem_singleton, Event.started.injEq] at hc
    subst hc
    exact ⟨he, hid, hcount⟩
  | goes f fs st hw hw' hb hcount hsig hm he =>
    obtain ⟨d, hd, -⟩ := he _ hc
    cases hd
  | ends d t above he => simp [he] at hc

/-- Only a call under way calls, and it calls `emit` only while the reverse connection is not blocked. -/
theorem Shape.called {n : Nat} {d : Callee} (h : Shape x x' e) (hd : .called n d ∈ e) :
    (∃ f ∈ x.whole, f.id = n) ∧ (d = .reverse → x.blocked = false) := by
  cases h with
  | same he => simp [he] at hd
  | rewired he =>
    obtain ⟨k, hk⟩ := he _ hd
    cases hk
  | starts c fs he => simp [he] at hd
  | goes f fs st hw hw' hb hcount hsig hm he =>
    obtain ⟨d', hd', hrev⟩ := he _ hd
    cases hd'
    exact ⟨⟨f, by simp [hw], rfl⟩, hrev⟩
  | ends c t above he => simp [he] at hd

theorem Shape.count_le (h : Shape x x' e) : x.count ≤ x'.count := by
  cases h <;> omega

theorem Inv.ids_lt_step (h : Inv es x) (hs : Shape x x' e) : ∀ f ∈ x'.whole, f.id < x'.count := by
  intro g hg
  cases hs with
  | same he hw hb hc => exact hc ▸ h.ids_lt g (hw ▸ hg)
  | rewired he hw hw' => simp [hw'] at hg
  | starts c fs he hw hb hc hsig hm hid hcb hn hu hf =>
    rw [hc]
    rw [hw] at hg
    rcases List.mem_append.1 hg with hg | hg
    · exact hf g hg ▸ Nat.lt_succ_self _
    · exact Nat.lt_succ_of_lt (h.ids_lt g hg)
  | goes f fs st hw hw' hb hc hsig hm he hn hu hf =>
    rw [hc]
    rw [hw'] at hg
    rcases List.mem_append.1 hg with hg | hg
    · exact hf g hg ▸ h.ids_lt f (by simp [hw])
    · exact h.ids_lt g (by simp [hw, hg])
  | ends c t above he hw hb hcb hc => exact hc ▸ h.ids_lt g (hw ▸ List.mem_append_right _ hg)

theorem Inv.accounted_step (h : Inv es x) (hs : Shape x x' e) : ∀ c ∈ underWay x'.whole, .started c ∈ es ++ e ∧
    calledBy c.id (es ++ e) ++ pending x'.signal x'.mirror c.id x'.whole = c.callees x'.signal x'.mirror := by
  intro d hd
  cases hs with
  | same he hw hb hc hsig hm =>
    rw [hw, hsig, hm, he, List.append_nil]
    exact h.accounted d (hw ▸ hd)
  | rewired he hw hw' => simp [hw', underWay] at hd
  | starts c fs he hw hb hc hsig hm hid hcb hn hu hf hp =>
    -- the number of the call is fresh
    have hne : ∀ f ∈ x.whole, f.id ≠ x.count := fun f hf => Nat.ne_of_lt (h.ids_lt f hf)
    have hcalls : calledBy d.id (es ++ e) = calledBy d.id es := by simp [he, calledBy]
    rw [hcalls, hsig, hm]
    rw [hu] at hd
    rcases List.mem_cons.1 hd with rfl | hd
    · refine ⟨by simp [he], ?_⟩
      have hnone : calledBy d.id es = [] := calledBy_eq_nil fun k hk => absurd (h.called_lt _ k hk) (by omega)
      rw [hnone, hid, hp, pending_eq_nil hne, List.append_nil, List.nil_append]
    · obtain ⟨g, hg, hi⟩ := underWay_id hd
      obtain ⟨hst, hcal⟩ := h.accounted d hd
      refine ⟨by simp [hst], ?_⟩
      rw [hw, pending_append fun f hfm hfd => hne g hg (by rw [hi, ← hfd, hf f hfm]), hcal]
  | goes f fs st hw hw' hb hc hsig hm he hn hu hf hp =>
    obtain ⟨hst, hcal⟩ := h.accounted d (hu ▸ hd)
    refine ⟨by simp [hst], ?_⟩
    rw [calledBy_append, List.append_assoc, hsig, hm, hp, hcal]
  | ends c t above he hw hb hcb hc hsig hm hu hf hlt =>
    have hcalls : calledBy d.id (es ++ e) = calledBy d.id es := by simp [he, calledBy]
    obtain ⟨g, hg, hi⟩ := underWay_id hd
    obtain ⟨hst, hcal⟩ := h.accounted d (hu ▸ List.mem_cons_of_mem _ hd)
    -- a call below has another number than the one that ends
    rw [hw, pending_append fun f hfm hfd => absurd (hlt g hg) (by rw [hi, ← hfd, hf f hfm]; simp)] at hcal
    refine ⟨by simp [hst], ?_⟩
    rw [hcalls, hsig, hm, hcal]

theorem Inv.nested_step (h : Inv es x) (hs : Shape x x' e) : Nested x'.whole ∧ x'.blocked = blockers x'.whole := by
  cases hs with
  | same he hw hb => exact ⟨hw ▸ h.nested, by rw [hb, hw, h.blocked]⟩
  | rewired he hw hw' hb => exact ⟨hw' ▸ trivial, by rw [hw', hb, h.blocked, hw]⟩
  | starts c fs he hw hb hc hsig hm hid hcb hn => exact ⟨hn, hb⟩
  | goes f fs st hw hw' hb hc hsig hm he hn => exact ⟨hn, hb⟩
  | ends c t above he hw hb => exact ⟨Nested.of_append (hw ▸ h.nested), hb⟩

theorem Inv.connected_step (h : Inv es x) (hs : Shape x x' e) :
    x'.signal.Nodup ∧ x'.mirror.Nodup ∧ .reverse ∈ x'.mirror := by
  have hx := And.intro h.signal_nodup (And.intro h.mirror_nodup h.reverse_mem)
  cases hs with
  | same he hw hb hc hsig hm => rwa [hsig, hm]
  | rewired he hw hw' hb hc hsig hm hr => exact ⟨hsig h.signal_nodup, hm h.mirror_nodup, hr h.reverse_mem⟩
  | starts c fs he hw hb hc hsig hm => rwa [hsig, hm]
  | goes f fs st hw hw' hb hc hsig hm => rwa [hsig, hm]
  | ends c t above he hw hb hcb hc hsig hm => rwa [hsig, hm]

theorem Inv.step {a : Action} (h : Inv es x) (ha : LastFirst a) (hs : x.step a = some (x', e)) :
    Inv (es ++ e) x' := by
  have hshape := shape_of_step h ha hs
  obtain ⟨hn, hb⟩ := h.nested_step hshape
  obtain ⟨hsig, hm, hr⟩ := h.connected_step hshape
  refine {
    linked := linked_step h.linked hs
    nested := hn
    blocked := hb
    ids_lt := h.ids_lt_step hshape
    started_lt := fun c hc => ?_
    called_lt := fun n d hd => ?_
    started_once := fun c d hc hd hcd => ?_
    accounted := h.accounted_step hshape
    signal_nodup := hsig
    mirror_nodup := hm
    reverse_mem := hr }
  · rcases List.mem_append.1 hc with hc | hc
    · exact Nat.lt_of_lt_of_le (h.started_lt c hc) hshape.count_le
    · obtain ⟨-, hid, hcount⟩ := hshape.started hc
      omega
  · rcases List.mem_append.1 hd with hd | hd
    · exact Nat.lt_of_lt_of_le (h.called_lt n d hd) hshape.count_le
    · obtain ⟨⟨f, hf, rfl⟩, -⟩ := hshape.called hd
      exact Nat.lt_of_lt_of_le (h.ids_lt f hf) hshape.count_le
  · rcases List.mem_append.1 hc with hc | hc <;> rcases List.mem_append.1 hd with hd | hd
    · exact h.started_once c d hc hd hcd
    · exact absurd (hcd.trans (hshape.started hd).2.1) (Nat.ne_of_lt (h.started_lt c hc))
    · exact absurd (hcd.symm.trans (hshape.started hc).2.1) (Nat.ne_of_lt (h.started_lt d hd))
    · rw [(hshape.started hc).1, List.mem_singleton, Event.started.injEq] at hd
      exact hd.symm

theorem inv_run {m : Nat} {d : Bool} (h : Run step (fun _ _ a _ => LastFirst a) (State.new m d) x es) :
    Inv es x := by
  refine h.inv Inv (inv_new m d) fun es x a x' e hi ha hs => ?_
  exact hi.step ha hs

/-! ## What a call has called when it ends -/

theorem count_map_own (s : SlotId) : (sig.map Callee.own).count (.own s) = sig.count s := by
  rw [List.count, List.countP_map, List.count]
  exact List.countP_congr fun t _ => by simp

theorem count_own_fromMirror {b : Bool} (s : SlotId) :
    (fromMirror sig b mir).count (.own s) = mir.count .reverse * (if b then 0 else sig.count s) := by
  induction mir with
  | nil => simp [fromMirror]
  | cons r mir ih =>
    have hc : fromMirror sig b (r :: mir) = fromMirror sig b [r] ++ fromMirror sig b mir := by simp [fromMirror]
    rw [hc, List.count_append, ih]
    cases r with
    | foreign s' => simp [fromMirror]
    | reverse =>
      cases b <;> simp [fromMirror, count_map_own, Nat.add_mul, Nat.add_comm]

theorem count_foreign_fromMirror {b : Bool} (s : SlotId) :
    (fromMirror sig b mir).count (.foreign s) = mir.count (.foreign s) := by
  induction mir with
  | nil => rfl
  | cons r mir ih =>
    have hc : fromMirror sig b (r :: mir) = fromMirror sig b [r] ++ fromMirror sig b mir := by simp [fromMirror]
    rw [hc, List.count_append, ih]
    cases r with
    | foreign s' => by_cases hs : s' = s <;> simp [fromMirror, hs, Nat.add_comm]
    | reverse =>
      have hm : (sig.map Callee.own).count (.foreign s) = 0 := List.count_eq_zero.2 (by simp)
      cases b <;> simp [fromMirror, hm]

theorem reverse_not_mem_callees {c : Call} (h : c.entry = .operator) : .reverse ∉ c.callees sig mir := by
  have hs : .reverse ∉ fromSignal sig := by
    rw [fromSignal]
    split <;> simp
  have hm : .reverse ∉ fromMirror sig true mir := by
    simp only [fromMirror, List.mem_flatMap, not_exists, not_and]
    rintro (s | _) - <;> simp
  simp [Call.callees, h, hs, hm]

/-- `operator()` calls each slot of `m_signal` once just if there is not exactly one. -/
theorem operator_own {c : Call} (h : c.entry = .operator) (hn : sig.Nodup) :
    (∀ s ∈ sig, (c.callees sig mir).count (.own s) = 1) ↔ sig.length ≠ 1 := by
  have hc : ∀ s, (c.callees sig mir).count (.own s) = (fromSignal sig).count (.own s) := fun s => by
    simp [Call.callees, h, count_own_fromMirror]
  simp only [hc]
  constructor
  · rintro hall h1
    obtain ⟨s, rfl⟩ := List.length_eq_one_iff.1 h1
    have := hall s (by simp)
    simp [fromSignal] at this
  · intro h1 s hs
    have h2 : (sig.length : Int) - 1 > 0 := by
      have := List.length_pos_of_mem hs
      omega
    rw [fromSignal, if_pos h2, count_map_own]
    exact List.count_eq_one_of_mem hn hs

theorem operator_foreign {c : Call} (h : c.entry = .operator) (hn : mir.Nodup) {s : SlotId}
    (hs : .foreign s ∈ mir) :
    (c.callees sig mir).count (.foreign s) = 1 := by
  have hf : (fromSignal sig).count (.foreign s) = 0 := by
    refine List.count_eq_zero.2 ?_
    rw [fromSignal]
    split <;> simp
  simp [Call.callees, h, hf, count_foreign_fromMirror, List.count_eq_one_of_mem hn hs]

/-- Emitting the mirrored signal calls each slot of `m_signal` once just if the reverse connection is not
blocked. -/
theorem emission_own {c : Call} (h : c.entry = .emission) (hn : sig.Nodup) (hm : mir.Nodup) (hr : .reverse ∈ mir) :
    (∀ s ∈ sig, (c.callees sig mir).count (.own s) = 1) ↔ sig = [] ∨ c.blocked = false := by
  simp only [Call.callees, h, count_own_fromMirror, List.count_eq_one_of_mem hm hr, Nat.one_mul]
  constructor
  · intro hall
    cases hb : c.blocked with
    | false => exact .inr rfl
    | true =>
      refine .inl (List.eq_nil_iff_forall_not_mem.2 fun s hs => ?_)
      have := hall s hs
      simp [hb] at this
  · rintro (rfl | hb) s hs
    · cases hs
    · simp [hb, List.count_eq_one_of_mem hn hs]

/-- Only the last call that has started ends, and it leaves the reverse connection as it has found it. -/
theorem Shape.ended {n : Nat} {threw : Bool} (h : Shape x x' e) (he : .ended n threw ∈ e) :
    ∃ c, c.id = n ∧ e = [.ended n threw] ∧ underWay x.whole = c :: underWay x'.whole ∧ x'.blocked = c.blocked ∧
      (threw = false → pending x.signal x.mirror n x.whole = []) := by
  cases h with
  | same he' => simp [he'] at he
  | rewired he' =>
    obtain ⟨k, hk⟩ := he' _ he
    cases hk
  | starts d fs he' => simp [he'] at he
  | goes f fs st hw hw' hb hc hsig hm he' =>
    obtain ⟨d, hd, -⟩ := he' _ he
    cases hd
  | ends c t above he' hw hb hcb hc hsig hm hu hf hlt hp =>
    rw [he', List.mem_singleton, Event.ended.injEq] at he
    obtain ⟨rfl, rfl⟩ := he
    refine ⟨c, rfl, he', hu, hcb, fun ht => ?_⟩
    rw [hp ht]
    exact pending_eq_nil fun f hf => Nat.ne_of_lt (hlt f hf)

/-- What a call has called when it ends: all that it calls, or a beginning of it when it ends with an exception. -/
theorem Inv.ended {c : Call} {threw : Bool} (h : Inv es x) (hs : Shape x x' e) (hc : .started c ∈ es)
    (he : .ended c.id threw ∈ e) :
    x'.blocked = c.blocked ∧ (∃ rest, calledBy c.id es ++ rest = c.callees x.signal x.mirror) ∧
      (threw = false → calledBy c.id es = c.callees x.signal x.mirror) := by
  obtain ⟨d, hid, -, hu, hb, hp⟩ := hs.ended he
  obtain ⟨hst, hcal⟩ := h.accounted d (by simp [hu])
  obtain rfl := h.started_once d c hst hc hid
  refine ⟨hb, ⟨_, hcal⟩, fun ht => ?_⟩
  rw [hp ht, List.append_nil] at hcal
  exact hcal

/-! ## Calls whose slots return come to their end -/

/-- The steps of a run in which every slot returns. -/
def Quiet (a : Action) : Prop := a = .run ∨ a = .ret

/-- How many steps a frame still makes at most, the frames on top of it included, if every slot returns. -/
def Frame.steps (sig : List SlotId) (mir : List MirrorSlot) : Frame → Nat
  | .operator _ _ .signal => 2 * sig.length + (2 * sig.length + 3) * mir.length + 5
  | .operator _ _ .delegate => (2 * sig.length + 3) * mir.length + 3
  | .operator _ _ .done => 1
  | .emission _ => 1
  | .emit _ _ => 1
  | .signal _ rest => 2 * rest.length + 1
  | .mirror _ rest => (2 * sig.length + 3) * rest.length + 1
  | .slot _ => 1

def State.stepsLeft (x : State) : Nat := (x.stack.map (Frame.steps x.signal x.mirror)).sum

/-- Steps with which the calls of the task that runs get on: none of them throws, and a call is still there or has
ended. -/
structure GetsOn (x x' : State) (e : List Event) : Prop where
  mirror : x'.mirror = x.mirror
  no_throw : ∀ n, .ended n true ∉ e
  there_or_ended : ∀ f ∈ x.stack, (∃ g ∈ x'.stack, g.id = f.id) ∨ .ended f.id false ∈ e

theorem GetsOn.refl (x : State) : GetsOn x x [] := ⟨rfl, by simp, fun f hf => .inl ⟨f, hf, rfl⟩⟩

theorem GetsOn.trans {y : State} {e₁ e₂ : List Event} (h : GetsOn x x' e₁) (h' : GetsOn x' y e₂) :
    GetsOn x y (e₁ ++ e₂) where
  mirror := h'.mirror.trans h.mirror
  no_throw := fun n hn => (List.mem_append.1 hn).elim (h.no_throw n) (h'.no_throw n)
  there_or_ended := fun f hf => by
    rcases h.there_or_ended f hf with ⟨g, hg, hi⟩ | he
    · rcases h'.there_or_ended g hg with ⟨g', hg', hi'⟩ | he
      · exact .inl ⟨g', hg', hi'.trans hi⟩
      · exact .inr (List.mem_append_right _ (hi ▸ he))
    · exact .inr (List.mem_append_left _ he)

/-- The frame on top becomes the frames `fs`, some of them or the one below of its call. -/
theorem getsOn_goes {f : Frame} {st : List Frame} (fs : List Frame) {b : Bool} (hx : x.stack = f :: st)
    (he : ∀ n t, .ended n t ∉ e) (hf : (∃ g ∈ fs, g.id = f.id) ∨ st.head?.map Frame.id = some f.id) :
    GetsOn x { x with blocked := b, stack := fs ++ st } e where
  mirror := rfl
  no_throw := fun n => he n true
  there_or_ended := fun g hg => by
    rw [hx] at hg
    rcases List.mem_cons.1 hg with rfl | hg
    · rcases hf with ⟨g', hg', hi⟩ | hf
      · exact .inl ⟨g', by simp [hg'], hi⟩
      · obtain ⟨g', hg', hi⟩ := Option.map_eq_some_iff.1 hf
        exact .inl ⟨g', List.mem_append_right _ (List.mem_of_mem_head? hg'), hi⟩
    · exact .inl ⟨g, by simp [hg], rfl⟩

theorem getsOn_ends {f : Frame} {st : List Frame} {b : Bool} (hx : x.stack = f :: st) :
    GetsOn x { x with blocked := b, stack := st } [.ended f.id false] where
  mirror := rfl
  no_throw := by simp
  there_or_ended := fun g hg => by
    rw [hx] at hg
    rcases List.mem_cons.1 hg with rfl | hg
    · simp
    · exact .inl ⟨g, hg, rfl⟩

theorem stepsLeft_lt {f : Frame} {st : List Frame} (fs : List Frame) {b : Bool} (hx : x.stack = f :: st)
    (h : (fs.map (Frame.steps x.signal x.mirror)).sum < f.steps x.signal x.mirror) :
    stepsLeft { x with blocked := b, stack := fs ++ st } < x.stepsLeft := by
  simp only [stepsLeft, hx, List.map_append, List.sum_append, List.map_cons, List.sum_cons]
  omega

/-- Both `m_reverse_con` and a foreign slot are connected, so `emit_or_throw` does not throw. -/
theorem mirror_length (hr : .reverse ∈ x.mirror) {s : SlotId} (hf : .foreign s ∈ x.mirror) :
    (x.mirror.length : Int) - 1 > 0 := by
  rcases hm : x.mirror with _ | ⟨r, _ | ⟨r', rest⟩⟩
  · simp [hm] at hr
  · rw [hm, List.mem_singleton] at hr hf
    cases hr.trans hf.symm
  · simp only [List.length_cons]
    omega

/-- The slot on top can return, or the frame on top can go on, and the calls get on with it. -/
def GoesOn (x : State) : Prop :=
  ∃ a x' e, Quiet a ∧ x.step a = some (x', e) ∧ GetsOn x x' e ∧ x'.stepsLeft < x.stepsLeft

theorem goesOn_goes {f : Frame} {st : List Frame} (hx : x.stack = f :: st) (fs : List Frame) (b : Bool)
    (hs : x.run f st = some ({ x with blocked := b, stack := fs ++ st }, e)) (he : ∀ n t, .ended n t ∉ e)
    (hf : (∃ g ∈ fs, g.id = f.id) ∨ st.head?.map Frame.id = some f.id)
    (hlt : (fs.map (Frame.steps x.signal x.mirror)).sum < f.steps x.signal x.mirror) : GoesOn x :=
  ⟨.run, _, e, .inl rfl, by rw [← hs, State.step, hx], getsOn_goes fs hx he hf, stepsLeft_lt fs hx hlt⟩

theorem goesOn_ends {f : Frame} {st : List Frame} (hx : x.stack = f :: st) (b : Bool)
    (hs : x.run f st = some ({ x with blocked := b, stack := st }, [.ended f.id false]))
    (hlt : 0 < f.steps x.signal x.mirror) : GoesOn x :=
  ⟨.run, _, _, .inl rfl, by rw [← hs, State.step, hx], getsOn_ends hx, stepsLeft_lt [] hx hlt⟩

theorem quiet_step {f : Frame} {st : List Frame} (hl : Linked x.stack) (hx : x.stack = f :: st)
    (hr : .reverse ∈ x.mirror) {s : SlotId} (hf : .foreign s ∈ x.mirror) : GoesOn x := by
  have hl : Linked (f :: st) := hx ▸ hl
  cases f with
  | slot n =>
    have hs : x.step .ret = some ({ x with blocked := x.blocked, stack := [] ++ st }, []) := by
      rw [State.step, hx]; rfl
    exact ⟨.ret, _, [], .inr rfl, hs, getsOn_goes [] hx (by simp) (.inr (hl.1 rfl)),
      stepsLeft_lt [] hx (by simp [Frame.steps])⟩
  | emission n => exact goesOn_ends hx _ rfl (by simp [Frame.steps])
  | emit n u => exact goesOn_goes hx [] _ rfl (by simp) (.inr (hl.1 rfl)) (by simp [Frame.steps])
  | signal n rest =>
    cases rest with
    | nil => exact goesOn_goes hx [] _ rfl (by simp) (.inr (hl.1 rfl)) (by simp [Frame.steps])
    | cons s rest =>
      refine goesOn_goes hx [.slot n, .signal n rest] _ rfl (by simp) (.inl (by simp [Frame.id])) ?_
      simp [Frame.steps]
      omega
  | mirror n rest =>
    rcases rest with _ | ⟨s | _, rest⟩
    · exact goesOn_goes hx [] _ rfl (by simp) (.inr (hl.1 rfl)) (by simp [Frame.steps])
    · refine goesOn_goes hx [.slot n, .mirror n rest] _ rfl (by simp) (.inl (by simp [Frame.id])) ?_
      simp [Frame.steps, Nat.mul_add]
      omega
    · cases hb : x.blocked with
      | true =>
        refine goesOn_goes hx [.mirror n rest] _ (if_pos hb) (by simp) (.inl (by simp [Frame.id])) ?_
        simp [Frame.steps, Nat.mul_add]
      | false =>
        refine goesOn_goes hx [.signal n x.signal, .emit n (!x.blocked), .mirror n rest] true
          (if_neg (by simp [hb])) (by simp)
          (.inl (by simp [Frame.id])) ?_
        simp [Frame.steps, Nat.mul_add]
        omega
  | operator n u p =>
    cases p with
    | done => exact goesOn_ends hx _ rfl (by simp [Frame.steps])
    | delegate =>
      exact goesOn_goes hx [.mirror n x.mirror, .operator n u .done] _ (if_pos (mirror_length hr hf)) (by simp)
        (.inl (by simp [Frame.id])) (by simp [Frame.steps])
    | signal =>
      by_cases hk : (x.signal.length : Int) - 1 > 0
      · refine goesOn_goes hx [.signal n x.signal, .operator n u .delegate] _ (if_pos hk) (by simp)
          (.inl (by simp [Frame.id])) ?_
        simp [Frame.steps]
        omega
      · refine goesOn_goes hx [.operator n u .delegate] _ (if_neg hk) (by simp) (.inl (by simp [Frame.id])) ?_
        simp [Frame.steps]
        omega

/-- If every slot returns from now on, the calls of the task that runs end, and none of them throws. -/
theorem comes_to_end (h : Inv es x) {s : SlotId} (hf : .foreign s ∈ x.mirror) :
    ∃ y e, Run step (fun _ _ a _ => Quiet a) x y e ∧ y.stack = [] ∧ (∀ n, .ended n true ∉ e) ∧
      ∀ f ∈ x.stack, .ended f.id false ∈ e := by
  -- any such run that has not come to the end goes on, and has fewer steps left
  suffices hgo : ∀ k y e, Run step (fun _ _ a _ => Quiet a) x y e → Inv (es ++ e) y → GetsOn x y e →
      y.stepsLeft < k →
      ∃ z e', Run step (fun _ _ a _ => Quiet a) x z e' ∧ z.stack = [] ∧ GetsOn x z e' by
    obtain ⟨y, e, hrun, hnil, hg⟩ := hgo _ x [] .nil (by simpa using h) (.refl x) (Nat.lt_succ_self _)
    exact ⟨y, e, hrun, hnil, hg.no_throw, fun f hfm => (hg.there_or_ended f hfm).resolve_left (by simp [hnil])⟩
  intro k
  induction k with
  | zero => exact fun _ _ _ _ _ hlt => absurd hlt (Nat.not_lt_zero _)
  | succ k ih =>
    intro y e hrun hi hg hlt
    cases hst : y.stack with
    | nil => exact ⟨y, e, hrun, hst, hg⟩
    | cons f st =>
      obtain ⟨a, z, e', ha, hs, hg', hlt'⟩ := quiet_step hi.linked_stack hst hi.reverse_mem (hg.mirror ▸ hf)
      have hlast : LastFirst a := by
        rintro i rfl
        rcases ha with ha | ha <;> cases ha
      exact ih z (e ++ e') (hrun.snoc hs ha) (List.append_assoc es e e' ▸ hi.step hlast hs) (hg.trans hg')
        (by omega)

/-! ## Each slot is called once -/

/-- No `operator()` echoes, and each call leaves the reverse connection as it has found it. An `operator()` that
returns has called every foreign slot once, and every slot of `m_signal` once just if there is not exactly one of
them. The mirrored signal has called every slot of `m_signal` once just if the reverse connection was not
blocked. -/
theorem slots_called_once {m : Nat} {d : Bool} {a : Action}
    (h : Run step (fun _ _ a _ => LastFirst a) (State.new m d) x es) (ha : LastFirst a)
    (hs : x.step a = some (x', e)) :
    (∀ n threw, .ended n threw ∈ e → ∃ c, .started c ∈ es ∧ c.id = n) ∧
    (∀ c threw, .started c ∈ es → .ended c.id threw ∈ e →
      x'.blocked = c.blocked ∧
      (c.entry = .operator → .reverse ∉ calledBy c.id es) ∧
      (c.entry = .operator → threw = false →
        ((∀ s ∈ x.signal, (calledBy c.id es).count (.own s) = 1) ↔ x.signal.length ≠ 1) ∧
        ∀ s, .foreign s ∈ x.mirror → (calledBy c.id es).count (.foreign s) = 1) ∧
      (c.entry = .emission → threw = false →
        ((∀ s ∈ x.signal, (calledBy c.id es).count (.own s) = 1) ↔ x.signal = [] ∨ c.blocked = false))) ∧
    (∀ c ∈ underWay x.whole, c.entry = .operator → ∀ n, .called n .reverse ∉ e) ∧
    (x.whole = [] → x.blocked = false) ∧
    (∀ s, .foreign s ∈ x.mirror → ∃ y e', Run step (fun _ _ a _ => Quiet a) x y e' ∧ y.stack = [] ∧
      (∀ n, .ended n true ∉ e') ∧ ∀ f ∈ x.stack, .ended f.id false ∈ e') := by
  have hi := inv_run h
  have hshape := shape_of_step hi ha hs
  refine ⟨fun n threw he => ?_, fun c threw hc he => ?_, fun c hc hop n he => ?_, fun hw => ?_,
    fun s hf => comes_to_end hi hf⟩
  · obtain ⟨c, hid, -, hu, -⟩ := hshape.ended he
    exact ⟨c, (hi.accounted c (by simp [hu])).1, hid⟩
  · obtain ⟨hb, ⟨rest, hpre⟩, hall⟩ := hi.ended hshape hc he
    refine ⟨hb, fun hop hr => ?_, fun hop ht => ?_, fun hem ht => ?_⟩
    · exact reverse_not_mem_callees hop (hpre ▸ List.mem_append_left _ hr)
    · rw [hall ht]
      exact ⟨operator_own hop hi.signal_nodup, fun s hs => operator_foreign hop hi.mirror_nodup hs⟩
    · rw [hall ht]
      exact emission_own hem hi.signal_nodup hi.mirror_nodup hi.reverse_mem
  · have hb : x.blocked = true := hi.blocked.trans (blockers_of_operator hi.nested hc hop)
    exact Bool.noConfusion (hb.symm.trans ((hshape.called he).2 rfl))
  · rw [hi.blocked, hw]
    rfl

/-- Two slots of `m_signal` and one foreign slot: `operator()` calls each of the three. -/
theorem slots_called_once_three : ∃ (x x' : State) (es e : List Event),
    Run step (fun _ _ a _ => LastFirst a) (State.new 1 false) x es ∧ x.step .run = some (x', e) ∧
      .started ⟨.operator, 0, false⟩ ∈ es ∧ .ended 0 false ∈ e ∧ x.signal = [7, 8] ∧
      (∀ s ∈ x.signal, (calledBy 0 es).count (.own s) = 1) ∧ (calledBy 0 es).count (.foreign 0) = 1 ∧
      .reverse ∉ calledBy 0 es ∧ x'.blocked = false := by
  obtain ⟨x, es, h, hf⟩ := run_of_check step (fun _ _ a _ => LastFirst a) (fun _ _ a _ => lastFirstCheck a)
    (State.new 1 false)
    (fun x es => decide (x.step .run = some ({ x with blocked := false, stack := [] }, [.ended 0 false])) &&
      decide (x.signal = [7, 8] ∧ .foreign 0 ∈ x.mirror) && decide (.started ⟨.operator, 0, false⟩ ∈ es))
    [.connect 7, .connect 8, .call, .run, .run, .ret, .run, .ret, .run, .run, .run, .ret, .run, .run]
    (fun _ _ _ _ => lastFirstCheck_sound) (by decide)
  simp only [Bool.and_eq_true, decide_eq_true_eq] at hf
  obtain ⟨⟨hs, hsig, hmir⟩, hst⟩ := hf
  obtain ⟨-, hend, -⟩ := slots_called_once h (by rintro i ⟨⟩) hs
  obtain ⟨hb, hrev, hcalls, -⟩ := hend ⟨.operator, 0, false⟩ false hst (by simp)
  obtain ⟨hown, hforeign⟩ := hcalls rfl rfl
  exact ⟨x, _, es, _, h, hs, hst, by simp, hsig, hown.2 (by simp [hsig]), hforeign 0 hmir, hrev rfl, hb⟩

/-- `operator()` does not call the one slot of `m_signal`. And when two calls wait in their slots and the first
goes on first, it unblocks the reverse connection for the second as well, which then echoes. -/
theorem single_slot_not_called :
    (∃ (x : State) (es : List Event), Run step (fun _ _ a _ => LastFirst a) (State.new 1 false) x es ∧
      x.signal = [7] ∧ .started ⟨.operator, 0, false⟩ ∈ es ∧ .ended 0 false ∈ es ∧ .called 0 (.own 7) ∉ es) ∧
    ∃ (x : State) (es : List Event), Run step (fun _ _ _ _ => True) (State.new 1 false) x es ∧
      .started ⟨.operator, 1, true⟩ ∈ es ∧ .called 1 .reverse ∈ es ∧ .ended 1 false ∈ es ∧ x.blocked = false := by
  constructor
  · obtain ⟨x, es, h, hf⟩ := run_of_check step (fun _ _ a _ => LastFirst a) (fun _ _ a _ => lastFirstCheck a)
      (State.new 1 false)
      (fun x es => decide (x.signal = [7] ∧ .started ⟨.operator, 0, false⟩ ∈ es ∧ .ended 0 false ∈ es ∧
        .called 0 (.own 7) ∉ es))
      [.connect 7, .call, .run, .run, .run, .ret, .run, .run, .run] (fun _ _ _ _ => lastFirstCheck_sound) (by decide)
    exact ⟨x, es, h, of_decide_eq_true hf⟩
  · obtain ⟨x, es, h, hf⟩ := run_of_check step (fun _ _ _ _ => True) (fun _ _ _ _ => true) (State.new 1 false)
      (fun x es => decide (.started ⟨.operator, 1, true⟩ ∈ es ∧ .called 1 .reverse ∈ es ∧ .ended 1 false ∈ es ∧
        x.blocked = false))
      [.call, .run, .run, .run, .wait, .call, .run, .run, .run, .wait, .resume 1, .ret, .run, .run, .run, .resume 0, .ret,
        .run, .run, .run, .run, .run]
      (fun _ _ _ _ _ => trivial) (by decide)
    exact ⟨x, es, h, of_decide_eq_true hf⟩

end ActorSignal

end BoostCmt
