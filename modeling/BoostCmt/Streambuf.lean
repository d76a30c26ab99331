import BoostCmt.Acceptor
import BoostCmt.Slot
/-!
# Error codes of the socket streambuf

`underflow` and `overflow` of `basic_socket_streambuf` keep an `error_code` and a
promise on their stack, start an asynchronous operation whose handler
`read_write_handler_ec` has pointers to both, wait on the promise and then test the
`error_code`. The handler runs on the I/O thread: it calls `set_value` with the
number of bytes, and writes the `error_code` after that.

`StreamWorld` puts these calls on top of the `World`. What the memory of a call
whose scope has ended holds is left as it was, so that a handler that still has
work to do shows.
-/

namespace BoostCmt

open Acceptor (ErrorCode)
open Runs

/-- A `basic_socket_streambuf`. -/
abbrev BufId := Nat

/-- What `underflow` and `overflow` test of a `basic_socket_streambuf`. -/
structure Streambuf where
  /-- `egptr() - gptr()`. -/
  getArea : Nat := 0
  /-- `pptr() - pbase()`. -/
  putArea : Nat := 0
  unbuffered : Bool := false
  deriving DecidableEq, Repr

/-- Where `read_write_handler_ec` of an operation is. -/
inductive HandlerPc where
  /-- The operation has not completed. -/
  | outstanding
  /-- In `p->set_value(bytes_transferred)`. -/
  | storing (ec : ErrorCode) (bytesTransferred : Nat)
  /-- Before `*oec = ec`. -/
  | writing (ec : ErrorCode) (bytesTransferred : Nat)
  | finished (ec : ErrorCode) (bytesTransferred : Nat)
  deriving DecidableEq, Repr

/-- What the operation has completed with. -/
def HandlerPc.completion : HandlerPc → Option (ErrorCode × Nat)
  | .outstanding => none
  | .storing ec n => some (ec, n)
  | .writing ec n => some (ec, n)
  | .finished ec n => some (ec, n)

/-- The handler has begun and has not returned. -/
def HandlerPc.running : HandlerPc → Bool
  | .storing _ _ => true
  | .writing _ _ => true
  | _ => false

/-- `set_value` has returned. -/
def HandlerPc.setReturned : HandlerPc → HandlerPc
  | .storing ec n => .writing ec n
  | pc => pc

@[simp] theorem HandlerPc.setReturned_completion (pc : HandlerPc) : pc.setReturned.completion = pc.completion := by
  cases pc <;> rfl

/-- An operation with the locals `ec` and `p` of the call that has started it. -/
structure Operation where
  ec : ErrorCode := {}
  handler : HandlerPc := .outstanding
  /-- The scope of `ec` and `p` has not ended. -/
  inScope : Bool := true
  deriving DecidableEq, Repr

/-- A call of `underflow` or `overflow`, and what it has left to send. A character is `none` when it is `eof`. -/
inductive CallKind where
  | underflow
  /-- `overflow(c)` of an unbuffered streambuf. -/
  | sendOne (c : Nat)
  /-- `overflow(c)` of a buffered streambuf, with the size of `buffer`. -/
  | flush (c : Option Nat) (buffer : Nat)
  deriving DecidableEq, Repr

inductive CallPc where
  /-- At the head of the loop of `overflow`, or where the other calls start their operation. -/
  | head
  /-- In `p.wait()`. -/
  | waiting (p : PromId)
  /-- Before the test of `ec`. -/
  | returned (p : PromId) (bytesTransferred : Nat)
  /-- The test has found `ec` clear, or not; the scope ends next. -/
  | tested (p : PromId) (bytesTransferred : Nat) (ok : Bool)
  /-- `p.wait()` has thrown. -/
  | threw (p : PromId) (e : Error)
  deriving DecidableEq, Repr

structure StreamCall where
  buf : BufId
  kind : CallKind
  pc : CallPc := .head
  deriving DecidableEq, Repr

/-- The world with the calls of `underflow` and `overflow`. The promises carry numbers of bytes. -/
structure StreamWorld where
  world : World Nat := {}
  buf : BufId → Streambuf := fun _ => {}
  /-- The operation that a promise was made for. -/
  ops : PromId → Option Operation := fun _ => none
  /-- The call that a context is inside of. -/
  call : ThreadId → CtxId → Option StreamCall := fun _ _ => none
  /-- The promise of the `read_write_handler_ec` that a context is inside of. -/
  handler : ThreadId → CtxId → Option PromId := fun _ _ => none

inductive StreamAction where
  /-- A step of the world that does not touch the promises of the calls. -/
  | base (a : Action Nat)
  /-- Other members of the streambuf move its pointers. -/
  | access (b : BufId) (s : Streambuf)
  | underflow (i : ThreadId) (b : BufId)
  | overflow (i : ThreadId) (b : BufId) (c : Option Nat)
  /-- The call of the running context starts its operation and waits, or ends. -/
  | start (i : ThreadId) (t : Int)
  /-- The operation of `p` completes, and thread `i` calls its handler. -/
  | complete (i : ThreadId) (t : Int) (p : PromId) (ec : ErrorCode) (bytesTransferred : Nat)
  /-- `*oec = ec`. -/
  | writeEc (i : ThreadId)
  /-- `if (ec)`. -/
  | test (i : ThreadId)
  /-- The scope of `ec` and `p` ends. -/
  | leave (i : ThreadId)
  deriving DecidableEq, Repr

inductive StreamEvent where
  | world (e : Event Nat)
  | completed (p : PromId) (ec : ErrorCode) (bytesTransferred : Nat)
  /-- A call tests the `ec` of the operation of `p`. -/
  | tested (p : PromId) (ec : ErrorCode)
  /-- `underflow` returns a character that the operation of `p` has received. -/
  | character (p : PromId) (bytesTransferred : Nat)
  /-- `overflow` takes the bytes of the operation of `p` as sent. -/
  | sent (p : PromId) (bytesTransferred : Nat)
  /-- A call returns `eof` or throws without an operation that has succeeded. -/
  | failed (i : ThreadId)
  /-- `overflow` returns a character. -/
  | returned (i : ThreadId) (c : Nat)
  deriving DecidableEq, Repr

/-- Whose step an action is. -/
def StreamAction.thread : StreamAction → ThreadId
  | .base a => a.thread
  | .access _ _ => 0
  | .underflow i _ => i
  | .overflow i _ _ => i
  | .start i _ => i
  | .complete i _ _ _ _ => i
  | .writeEc i => i
  | .test i => i
  | .leave i => i

/-- How the wait on `p` ends in the step. -/
def waitOutcome (p : PromId) (e : List (Event Nat)) : Option (Outcome Nat) :=
  e.findSome? fun
    | .waitDone _ q _ _ o => if q = p then some o else none
    | _ => none

/-- Whether `set_value` of `p` returns in the step. -/
def setReturns (p : PromId) (e : List (Event Nat)) : Bool := e.any fun
  | .setDone q _ => q == p
  | _ => false

/-- `p.wait()` has ended. -/
def StreamCall.waited (k : StreamCall) (e : List (Event Nat)) : StreamCall :=
  match k.pc with
  | .waiting p =>
    match waitOutcome p e with
    | some (.value n) => { k with pc := .returned p n }
    | some (.error r) => { k with pc := .threw p r }
    | none => k
  | _ => k

namespace StreamWorld

/-- Code outside the library is on top of the stack of thread `i`. -/
def outside (x : StreamWorld) (i : ThreadId) : Bool :=
  match x.world.cpu i with
  | .user :: _ => true
  | .task _ :: _ => true
  | _ => false

/-- The context that thread `i` runs is inside of no call of a streambuf, and of no handler. -/
def free (x : StreamWorld) (i : ThreadId) : Bool :=
  (x.call i (x.world.cur i)).isNone && (x.handler i (x.world.cur i)).isNone

/-- Whether the code outside the library can take the action of the world. -/
def allows (x : StreamWorld) (a : Action Nat) : Bool :=
  (a.names.bind x.ops).isNone && (!x.outside a.thread || (a matches .tick _) || x.free a.thread)

def setCall (x : StreamWorld) (i : ThreadId) (k : Option StreamCall) : StreamWorld :=
  { x with call := fun j c => if j = i ∧ c = x.world.cur i then k else x.call j c }

def setHandler (x : StreamWorld) (i : ThreadId) (p : Option PromId) : StreamWorld :=
  { x with handler := fun j c => if j = i ∧ c = x.world.cur i then p else x.handler j c }

def setOp (x : StreamWorld) (p : PromId) (op : Operation) : StreamWorld :=
  { x with ops := fun q => if q = p then some op else x.ops q }

def setBuf (x : StreamWorld) (b : BufId) (s : Streambuf) : StreamWorld :=
  { x with buf := fun c => if c = b then s else x.buf c }

/-- One step of the world. -/
def stepWorld (x : StreamWorld) (a : Action Nat) : Option (StreamWorld × List StreamEvent) :=
  (x.world.step a).map fun (w, e) =>
    ({ x with
        world := w
        ops := fun p => (x.ops p).map fun op =>
          if setReturns p e then { op with handler := op.handler.setReturned } else op
        call := fun j c =>
          if j = a.thread ∧ c = x.world.cur a.thread then (x.call j c).map (·.waited e) else x.call j c },
      e.map .world)

/-- `error_code ec`, `promise<size_t> p`, `async_receive` or `async_send`, and the call of `p.wait()`. -/
def startOp (x : StreamWorld) (i : ThreadId) (t : Int) (k : StreamCall) :
    Option (StreamWorld × List StreamEvent) := do
  let p := x.world.promCount
  let (w, _) ← x.world.step (.call i t .newPromise)
  let (w, e) ← w.step (.call i t (.wait p timePointMax))
  return ({ (x.setCall i (some { k with pc := .waiting p })).setOp p {} with world := w }, e.map .world)

/-- `overflow(c)` has sent the whole buffer. -/
def flushed (x : StreamWorld) (i : ThreadId) (b : BufId) (c : Option Nat) : StreamWorld × List StreamEvent :=
  match c with
  | none => ((x.setBuf b { x.buf b with putArea := 0 }).setCall i none, [.returned i 0])
  | some ch => ((x.setBuf b { x.buf b with putArea := 1 }).setCall i none, [.returned i ch])

/-- What a call does with an operation that has succeeded. -/
def succeed (x : StreamWorld) (i : ThreadId) (b : BufId) (kind : CallKind) (p : PromId) (n : Nat) :
    StreamWorld × List StreamEvent :=
  match kind with
  | .underflow => ((x.setBuf b { x.buf b with getArea := n }).setCall i none, [.character p n])
  | .sendOne c => (x.setCall i none, [.sent p n, .returned i c])
  | .flush c buffer => (x.setCall i (some { buf := b, kind := .flush c (buffer - n) }), [.sent p n])

def step (x : StreamWorld) : StreamAction → Option (StreamWorld × List StreamEvent)
  | .base a => if x.allows a then x.stepWorld a else none
  | .access b s => some (x.setBuf b s, [])
  | .underflow i b =>
    if x.outside i && x.free i then
      if (x.buf b).getArea = 0 then some (x.setCall i (some { buf := b, kind := .underflow }), [])
      else some (x, [.failed i])
    else none
  | .overflow i b c =>
    if x.outside i && x.free i then
      if (x.buf b).unbuffered then
        match c with
        | none => some (x, [.returned i 0])
        | some ch => some (x.setCall i (some { buf := b, kind := .sendOne ch }), [])
      else some (x.setCall i (some { buf := b, kind := .flush c (x.buf b).putArea }), [])
    else none
  | .start i t =>
    match x.call i (x.world.cur i) with
    | some ⟨b, .flush c 0, .head⟩ => some (x.flushed i b c)
    | some ⟨b, kind, .head⟩ => x.startOp i t ⟨b, kind, .head⟩
    | _ => none
  | .complete i t p ec n =>
    if x.free i then
      match x.ops p with
      | some ⟨oec, .outstanding, inScope⟩ => do
        let (x, e) ← ((x.setOp p ⟨oec, .storing ec n, inScope⟩).setHandler i (some p)).stepWorld
          (.call i t (.set p (.value n)))
        return (x, .completed p ec n :: e)
      | _ => none
    else none
  | .writeEc i =>
    match x.handler i (x.world.cur i) with
    | some p =>
      match x.ops p with
      | some ⟨_, .writing ec n, inScope⟩ => some ((x.setOp p ⟨ec, .finished ec n, inScope⟩).setHandler i none, [])
      | _ => none
    | none => none
  | .test i =>
    match x.call i (x.world.cur i) with
    | some ⟨b, kind, .returned p n⟩ => (x.ops p).map fun op =>
      (x.setCall i (some ⟨b, kind, .tested p n (!op.ec.failed)⟩), [.tested p op.ec])
    | _ => none
  | .leave i =>
    match x.call i (x.world.cur i) with
    | some ⟨b, kind, .tested p n ok⟩ => (x.ops p).map fun op =>
      let x := x.setOp p { op with inScope := false }
      if ok then x.succeed i b kind p n else (x.setCall i none, [.failed i])
    | some ⟨_, _, .threw p _⟩ => (x.ops p).map fun op =>
      ((x.setOp p { op with inScope := false }).setCall i none, [.failed i])
    | _ => none

/-- The handler of `p` uses `p` or `*oec` in the step: it is called, goes on in `set_value`, or writes the
`error_code`. -/
def Touches (x : StreamWorld) (a : StreamAction) (p : PromId) : Prop :=
  (∃ i t ec n, a = .complete i t p ec n) ∨
    (∃ i, a = .writeEc i ∧ x.handler i (x.world.cur i) = some p) ∨
    ∃ b, a = .base b ∧ (∀ t, b ≠ .tick t) ∧ ∃ pc o c k, x.world.cpu b.thread = .set pc p o c :: k

/-! ## What a run keeps -/

/-- What happens in the world. -/
def worldEvents (es : List StreamEvent) : List (Event Nat) :=
  es.filterMap fun
    | .world e => some e
    | _ => none

variable {x x' : StreamWorld} {es e : List StreamEvent} {p : PromId} {op : Operation}

@[simp] theorem worldEvents_map (e : List (Event Nat)) : worldEvents (e.map .world) = e := by
  induction e with
  | nil => rfl
  | cons y e ih => exact congrArg (y :: ·) ih

@[simp] theorem worldEvents_append (es e : List StreamEvent) :
    worldEvents (es ++ e) = worldEvents es ++ worldEvents e := List.filterMap_append

/-- Steps in which `quit` is not called and no context is cancelled inside of a call on a promise of a
streambuf. -/
structure Calm (x : StreamWorld) (e : List StreamEvent) : Prop where
  noQuit : World.NoQuit (worldEvents e)
  oneTimed : World.OneTimed x.world
  unmarked : ∀ p i, x.ops p ≠ none → (∃ f ∈ x.world.cpu i, f.refers p) → x.world.currentCanceled i = false

/-- Steps of a run in which a call whose `p.wait()` has returned does not get ahead of the handler: the handler has
written the `error_code` when the call tests it, unless it is clear, and has returned when the scope of the call
ends. -/
structure HandlerFirst (x : StreamWorld) (a : StreamAction) (e : List StreamEvent) : Prop extends Calm x e where
  test : ∀ i b kind p n op ec m, a = .test i → x.call i (x.world.cur i) = some ⟨b, kind, .returned p n⟩ →
    x.ops p = some op → op.handler.running = true → op.handler.completion = some (ec, m) → ec = {}
  leave : ∀ i b kind p n ok op, a = .leave i → x.call i (x.world.cur i) = some ⟨b, kind, .tested p n ok⟩ →
    x.ops p = some op → op.handler.running = false

/-- The operation of `p` has completed with `n` bytes. -/
def Transferred (p : PromId) (es : List StreamEvent) (n : Nat) : Prop := ∃ ec, .completed p ec n ∈ es

/-- Where an operation and its handler are. -/
structure OpInv (p : PromId) (op : Operation) (es : List StreamEvent) (w : World Nat) : Prop where
  slot : ∃ home, ∀ i, World.Slot p home (Transferred p es) (worldEvents es) .start w i
  once : World.SetOnce p (worldEvents es) w
  completed : ∀ ec n, .completed p ec n ∈ es ↔ op.handler.completion = some (ec, n)
  begun : op.handler = .outstanding → ∀ o, .setStart p o ∉ worldEvents es
  stored : ∀ ec n, op.handler = .writing ec n ∨ op.handler = .finished ec n → ∃ o, .setDone p o ∈ worldEvents es
  ec : (∃ n, op.handler = .finished op.ec n) ∨ ((∀ ec n, op.handler ≠ .finished ec n) ∧ op.ec = {})
  scope : op.inScope = false → ∃ ec n, op.handler = .finished ec n

/-- Where a call is. -/
def CallInv (x : StreamWorld) (es : List StreamEvent) : CallPc → Prop
  | .head => True
  | .waiting p => x.ops p ≠ none
  | .returned p n => x.ops p ≠ none ∧ Transferred p es n
  | .tested p n ok => x.ops p ≠ none ∧ ∃ ec, .completed p ec n ∈ es ∧ (ok = true → ec.failed = false)
  | .threw _ _ => False

structure StreamInv (es : List StreamEvent) (x : StreamWorld) : Prop where
  grounded : World.Grounded x.world
  ops : ∀ p op, x.ops p = some op → OpInv p op es x.world
  fresh : ∀ p, x.world.promCount ≤ p → (∀ ec n, .completed p ec n ∉ es) ∧ ∀ y ∈ worldEvents es, ¬ World.Settles p y
  calls : ∀ i c k, x.call i c = some k → CallInv x es k.pc

theorem CallInv.append {pc : CallPc} (h : CallInv x es pc) (hops : ∀ p, x.ops p ≠ none → x'.ops p ≠ none)
    (e : List StreamEvent) : CallInv x' (es ++ e) pc := by
  cases pc with
  | head => trivial
  | waiting p => exact hops p h
  | returned p n => exact ⟨hops p h.1, h.2.imp fun _ => List.mem_append_left e⟩
  | tested p n ok => exact ⟨hops p h.1, h.2.imp fun _ hc => ⟨List.mem_append_left e hc.1, hc.2⟩⟩
  | threw p r => exact h.elim

theorem mem_of_waitOutcome {e : List (Event Nat)} {o : Outcome Nat} (h : waitOutcome p e = some o) :
    ∃ j d b, .waitDone j p d b o ∈ e := by
  obtain ⟨y, hy, hf⟩ := List.exists_of_findSome?_eq_some h
  split at hf
  · next j q d b o' =>
    split at hf
    · next hq =>
      obtain rfl := Option.some.inj hf
      exact ⟨j, d, b, hq ▸ hy⟩
    · cases hf
  · cases hf

theorem mem_of_setReturns {e : List (Event Nat)} (h : setReturns p e = true) : ∃ o, .setDone p o ∈ e := by
  obtain ⟨y, hy, hf⟩ := List.any_eq_true.1 h
  split at hf
  · next q o => exact ⟨o, eq_of_beq hf ▸ hy⟩
  · cases hf

/-- `p` has the value of the completion when its wait ends. -/
theorem OpInv.transferred {w w' : World Nat} {a : Action Nat} {home : ThreadId × CtxId} {ew : List (Event Nat)}
    (hslot : World.Slot p home (Transferred p es) (worldEvents es) .start w a.thread) (hs : w.step a = some (w', ew))
    (hk : World.KeepsSlot p home (Transferred p es) w a ew) {j : ThreadId} {d : Int} {b : Bool} {o : Outcome Nat}
    (hd : .waitDone j p d b o ∈ ew) : ∃ n, o = .value n ∧ Transferred p es n := by
  obtain ⟨n, rfl, hn⟩ := hslot.waitDone hs hk hd
  refine ⟨n, rfl, hslot.stored n (List.mem_of_getLast? ?_)⟩
  rw [← hslot.value, hn]

theorem OpInv.step {w w' : World Nat} {a : Action Nat} (h : OpInv p op es w)
    (hs : w.step a = some (w', worldEvents e)) (hcomp : ∀ ec n, .completed p ec n ∉ e)
    (hq : World.NoQuit (worldEvents e)) (hone : World.OneTimed w)
    (hmark : ∀ i, (∃ f ∈ w.cpu i, f.refers p) → w.currentCanceled i = false)
    (hwait : ∀ j t d, a ≠ .call j t (.wait p d))
    (hset : ∀ j t o, a = .call j t (.set p o) → (∃ n, o = .value n ∧ Transferred p es n) ∧
      op.handler ≠ .outstanding ∧ ∀ o', .setStart p o' ∉ worldEvents es) :
    OpInv p (if setReturns p (worldEvents e) then { op with handler := op.handler.setReturned } else op) (es ++ e) w' ∧
      ∀ j d b o, .waitDone j p d b o ∈ worldEvents e → ∃ n, o = .value n ∧ Transferred p es n := by
  obtain ⟨home, hslot⟩ := h.slot
  have hk : World.KeepsSlot p home (Transferred p es) w a (worldEvents e) :=
    ⟨hq, hone, hmark a.thread, fun j t d ha => absurd ha (hwait j t d), fun j t o ha => (hset j t o ha).1⟩
  refine ⟨?_, fun j d b o hd => OpInv.transferred (hslot _) hs hk hd⟩
  have hcompleted : ∀ ec n, .completed p ec n ∈ es ++ e ↔ op.handler.completion = some (ec, n) := fun ec n => by
    rw [← h.completed ec n, List.mem_append]
    exact or_iff_left (hcomp ec n)
  have hslot' : ∃ home, ∀ i, World.Slot p home (Transferred p (es ++ e)) (worldEvents (es ++ e)) .start w' i := by
    refine ⟨home, fun i => ?_⟩
    rw [worldEvents_append]
    exact (((hslot a.thread).step hs hk).start i).mono fun n hn => hn.imp fun _ => List.mem_append_left e
  have honce : World.SetOnce p (worldEvents (es ++ e)) w' := by
    rw [worldEvents_append]
    exact (hslot a.thread).setOnce hs hk (fun j t o ha => (hset j t o ha).2.2) h.once
  have hbegun : op.handler = .outstanding → ∀ o, .setStart p o ∉ worldEvents (es ++ e) := by
    intro hpc o ho
    rw [worldEvents_append] at ho
    rcases List.mem_append.1 ho with ho | ho
    · exact h.begun hpc o ho
    · obtain ⟨j, t, ha⟩ := (hslot a.thread).setStart_call hs hk ho
      exact (hset j t o ha).2.1 hpc
  have hstored : ∀ ec n, op.handler = .writing ec n ∨ op.handler = .finished ec n →
      ∃ o, .setDone p o ∈ worldEvents (es ++ e) := fun ec n hpc => by
    rw [worldEvents_append]
    exact (h.stored ec n hpc).imp fun _ => List.mem_append_left _
  cases hret : setReturns p (worldEvents e) with
  | false => exact ⟨hslot', honce, hcompleted, hbegun, hstored, h.ec, h.scope⟩
  | true =>
    obtain ⟨o, ho⟩ := mem_of_setReturns hret
    have hdone : ∃ o, .setDone p o ∈ worldEvents (es ++ e) := by
      rw [worldEvents_append]
      exact ⟨o, List.mem_append_right _ ho⟩
    obtain ⟨oec, pc, inScope⟩ := op
    cases pc with
    | storing ec n =>
      exact ⟨hslot', honce, hcompleted, (by simp [HandlerPc.setReturned]), fun _ _ _ => hdone,
        .inr ⟨by simp [HandlerPc.setReturned], by simpa using h.ec⟩, fun hsc => by simpa using h.scope hsc⟩
    | outstanding => exact ⟨hslot', honce, hcompleted, hbegun, fun _ _ _ => hdone, h.ec, h.scope⟩
    | writing ec n => exact ⟨hslot', honce, hcompleted, hbegun, fun _ _ _ => hdone, h.ec, h.scope⟩
    | finished ec n => exact ⟨hslot', honce, hcompleted, hbegun, fun _ _ _ => hdone, h.ec, h.scope⟩

/-- Nothing settles a promise that does not exist. -/
theorem StreamInv.fresh_append (h : StreamInv es x) {w : World Nat} {a : Action Nat}
    (hs : x.world.step a = some (w, worldEvents e)) (hq : World.NoQuit (worldEvents e)) (hone : World.OneTimed x.world)
    (hcomp : ∀ p ec n, .completed p ec n ∉ e) (hp : w.promCount ≤ p) :
    (∀ ec n, .completed p ec n ∉ es ++ e) ∧ ∀ y ∈ worldEvents (es ++ e), ¬ World.Settles p y := by
  obtain ⟨hc, hy⟩ := h.fresh p (Nat.le_trans (World.step_promCount hs) hp)
  refine ⟨fun ec n hm => (List.mem_append.1 hm).elim (hc ec n) (hcomp p ec n), fun y hm hset => ?_⟩
  rw [worldEvents_append] at hm
  rcases List.mem_append.1 hm with hm | hm
  · exact hy y hm hset
  · exact Nat.not_lt.2 hp (h.grounded.settles_lt hs hq hone y hm hset)

/-- A step of the world that calls nothing but handlers on the promises of the streambufs. -/
theorem StreamInv.stepWorld {a : Action Nat} (h : StreamInv es x) (hs : x.stepWorld a = some (x', e))
    (hq : World.NoQuit (worldEvents e)) (hone : World.OneTimed x.world)
    (hmark : ∀ p i, x.ops p ≠ none → (∃ f ∈ x.world.cpu i, f.refers p) → x.world.currentCanceled i = false)
    (hwait : ∀ p j t d, x.ops p ≠ none → a ≠ .call j t (.wait p d))
    (hset : ∀ p op j t o, x.ops p = some op → a = .call j t (.set p o) → (∃ n, o = .value n ∧ Transferred p es n) ∧
      op.handler ≠ .outstanding ∧ ∀ o', .setStart p o' ∉ worldEvents es) :
    StreamInv (es ++ e) x' := by
  obtain ⟨⟨w, ew⟩, hw, he⟩ := Option.map_eq_some_iff.1 hs
  obtain ⟨rfl, rfl⟩ := Prod.mk.inj he
  have hw' : x.world.step a = some (w, worldEvents (ew.map .world)) := by rw [worldEvents_map]; exact hw
  have hcomp : ∀ p ec n, StreamEvent.completed p ec n ∉ ew.map .world := by simp
  have hop : ∀ p op, x.ops p = some op → _ := fun p op hp =>
    (h.ops p op hp).step hw' (hcomp p) hq hone (fun i => hmark p i (by simp [hp]))
      (fun j t d => hwait p j t d (by simp [hp])) (fun j t o => hset p op j t o hp)
  refine
    { grounded := h.grounded.step hw' hq hone
      ops := fun p op hp => ?_
      fresh := fun p hp => h.fresh_append hw' hq hone hcomp hp
      calls := fun i c k hk => ?_ }
  · obtain ⟨op₀, hp₀, rfl⟩ := Option.map_eq_some_iff.1 hp
    have := (hop p op₀ hp₀).1
    rwa [worldEvents_map] at this
  · have hold : ∀ k, x.call i c = some k → CallInv { x with
        world := w
        ops := fun p => (x.ops p).map fun op =>
          if setReturns p ew then { op with handler := op.handler.setReturned } else op
        call := fun j c =>
          if j = a.thread ∧ c = x.world.cur a.thread then (x.call j c).map (·.waited ew) else x.call j c }
        (es ++ ew.map .world) k.pc := fun k hk => (h.calls i c k hk).append (fun p hp => by simpa using hp) _
    simp only at hk
    split at hk
    · obtain ⟨k₀, hk₀, rfl⟩ := Option.map_eq_some_iff.1 hk
      have hk₁ := hold k₀ hk₀
      obtain ⟨b, kind, pc⟩ := k₀
      cases pc with
      | waiting p =>
        simp only [StreamCall.waited]
        have hp : x.ops p ≠ none := h.calls i c _ hk₀
        obtain ⟨op, hop'⟩ := Option.ne_none_iff_exists'.1 hp
        split
        · next n hout =>
          obtain ⟨j, d, b', hd⟩ := mem_of_waitOutcome hout
          obtain ⟨n', hn, ht⟩ := (hop p op hop').2 j d b' _ (by rwa [worldEvents_map])
          obtain rfl := Outcome.value.inj hn
          exact ⟨hk₁, ht.imp fun _ => List.mem_append_left _⟩
        · next r hout =>
          obtain ⟨j, d, b', hd⟩ := mem_of_waitOutcome hout
          obtain ⟨n', hn, -⟩ := (hop p op hop').2 j d b' _ (by rwa [worldEvents_map])
          cases hn
        · exact hk₁
      | _ => exact hk₁
    · exact hold k hk

/-- An action that leaves the world alone. -/
theorem StreamInv.quiet (h : StreamInv es x) (he : worldEvents e = []) (hcomp : ∀ p ec n, .completed p ec n ∉ e)
    (hworld : x'.world = x.world)
    (hops : ∀ p op, x'.ops p = some op → OpInv p op (es ++ e) x.world) (hmono : ∀ p, x.ops p ≠ none → x'.ops p ≠ none)
    (hcalls : ∀ i c k, x'.call i c = some k → x.call i c = some k ∨ CallInv x' (es ++ e) k.pc) :
    StreamInv (es ++ e) x' where
  grounded := hworld ▸ h.grounded
  ops := fun p op hp => hworld ▸ hops p op hp
  fresh := fun p hp => by
    obtain ⟨hc, hy⟩ := h.fresh p (hworld ▸ hp)
    rw [worldEvents_append, he, List.append_nil]
    exact ⟨fun ec n hm => (List.mem_append.1 hm).elim (hc ec n) (hcomp p ec n), hy⟩
  calls := fun i c k hk => (hcalls i c k hk).elim (fun hk => (h.calls i c k hk).append hmono e) id

/-- Events that are neither of the world nor a completion change nothing for an operation. -/
theorem OpInv.quiet {w : World Nat} (h : OpInv p op es w) (he : worldEvents e = [])
    (hcomp : ∀ ec n, .completed p ec n ∉ e) : OpInv p op (es ++ e) w := by
  obtain ⟨home, hslot⟩ := h.slot
  have hev : worldEvents (es ++ e) = worldEvents es := by rw [worldEvents_append, he, List.append_nil]
  refine ⟨⟨home, fun i => ?_⟩, ?_, fun ec n => ?_, ?_, ?_, h.ec, h.scope⟩
  · rw [hev]
    exact (hslot i).mono fun n hn => hn.imp fun _ => List.mem_append_left e
  · rw [hev]
    exact h.once
  · rw [← h.completed ec n, List.mem_append]
    exact or_iff_left (hcomp ec n)
  · rw [hev]
    exact h.begun
  · rw [hev]
    exact h.stored

theorem call_of_setCall {i j : ThreadId} {c : CtxId} {k : Option StreamCall} {k' : StreamCall}
    (h : (x.setCall i k).call j c = some k') : k = some k' ∨ x.call j c = some k' := by
  simp only [setCall] at h
  split at h
  · exact .inl h
  · exact .inr h

theorem StreamInv.lt (h : StreamInv es x) (hp : x.ops p = some op) : p < x.world.promCount := by
  obtain ⟨home, hslot⟩ := (h.ops p op hp).slot
  exact (hslot 0).lt

/-- The operation of `p` completes, and its handler is about to be called. -/
theorem StreamInv.completed {i : ThreadId} {oec ec : ErrorCode} {n : Nat} {inScope : Bool} (h : StreamInv es x)
    (hp : x.ops p = some ⟨oec, .outstanding, inScope⟩) :
    StreamInv (es ++ [.completed p ec n]) ((x.setOp p ⟨oec, .storing ec n, inScope⟩).setHandler i (some p)) := by
  have hI := h.ops p _ hp
  have hnone : ∀ ec n, .completed p ec n ∉ es := fun ec n hm => by cases (hI.completed ec n).1 hm
  have hmono : ∀ q, x.ops q ≠ none → (if q = p then some ⟨oec, .storing ec n, inScope⟩ else x.ops q) ≠ none :=
    fun q hq => by split <;> simp [hq]
  refine
    { grounded := h.grounded
      ops := fun q op hq => ?_
      fresh := fun q hq => ?_
      calls := fun j c k hk => (h.calls j c k hk).append hmono _ }
  · simp only [setHandler, setOp] at hq
    split at hq
    · next hqp =>
      subst hqp
      obtain rfl := Option.some.inj hq
      obtain ⟨home, hslot⟩ := hI.slot
      have hev : worldEvents (es ++ [.completed q ec n]) = worldEvents es := by
        rw [worldEvents_append]
        exact List.append_nil _
      refine ⟨⟨home, fun j => ?_⟩, ?_, fun ec' n' => ?_, fun hc => (by cases hc), fun ec' n' hc => (by simp at hc),
        .inr ⟨by simp, by simpa using hI.ec⟩, fun hc => by simpa using hI.scope hc⟩
      · rw [hev]
        exact (hslot j).mono fun n' hn => hn.imp fun _ => List.mem_append_left _
      · rw [hev]
        exact hI.once
      · simp only [List.mem_append, hnone, false_or, List.mem_singleton, StreamEvent.completed.injEq, true_and,
          HandlerPc.completion, Option.some.injEq, Prod.mk.injEq]
        exact ⟨fun hc => ⟨hc.1.symm, hc.2.symm⟩, fun hc => ⟨hc.1.symm, hc.2.symm⟩⟩
    · next hqp => exact (h.ops q op hq).quiet rfl fun ec' n' => by simp [hqp]
  · obtain ⟨hc, hy⟩ := h.fresh q hq
    have hqp : q ≠ p := (Nat.ne_of_lt (Nat.lt_of_lt_of_le (h.lt hp) hq)).symm
    refine ⟨fun ec' n' hm => ?_, ?_⟩
    · rcases List.mem_append.1 hm with hm | hm
      · exact hc ec' n' hm
      · simp [hqp] at hm
    · rw [worldEvents_append]
      simpa [worldEvents] using hy

theorem StreamInv.startOp {i : ThreadId} {t : Int} {k : StreamCall} (h : StreamInv es x)
    (hs : x.startOp i t k = some (x', e)) (hq : World.NoQuit (worldEvents e)) (hone : World.OneTimed x.world)
    (hmark : ∀ p i, x.ops p ≠ none → (∃ f ∈ x.world.cpu i, f.refers p) → x.world.currentCanceled i = false) :
    StreamInv (es ++ e) x' := by
  simp only [StreamWorld.startOp, Option.bind_eq_bind, Option.bind_eq_some_iff] at hs
  obtain ⟨⟨w₁, e₁⟩, h₁, ⟨w₂, e₂⟩, h₂, he⟩ := hs
  obtain ⟨rfl, rfl⟩ := Prod.mk.inj (Option.some.inj he)
  obtain ⟨rfl, rfl⟩ : (x.world.newPromise none false).2 = w₁ ∧ [] = e₁ :=
    Prod.mk.inj (Option.some.inj (World.step_call h₁).2)
  obtain ⟨hx, hc⟩ := World.step_call h₂
  simp only [World.stepCall] at hc
  split at hc
  · obtain ⟨-, rfl⟩ := Prod.mk.inj (Option.some.inj hc)
    have hq₁ : World.NoQuit (V := Nat) [] := fun j hj => by cases hj
    have hone₁ : World.OneTimed (x.world.newPromise none false).2 := hone
    have hground := h.grounded.step h₁ hq₁ hone
    have hcomp : ∀ p ec n,
        StreamEvent.completed p ec n ∉ [StreamEvent.world (.waitStart i x.world.promCount timePointMax)] := by simp
    have hold : ∀ p op, x.ops p = some op →
        OpInv p op (es ++ [.world (.waitStart i x.world.promCount timePointMax)]) w₂ := by
      intro p op hp
      have hm := fun j => hmark p j (by simp [hp])
      have hfirst := ((h.ops p op hp).step (e := []) h₁ (by simp) hq₁ hone hm (fun _ _ _ ha => by cases ha)
        (fun _ _ _ ha => by cases ha)).1
      rw [List.append_nil] at hfirst
      refine (OpInv.step hfirst h₂ (hcomp p) hq hone₁ hm (fun j t' d' ha => ?_) (fun _ _ _ ha => by cases ha)).1
      cases ha
      exact absurd (h.lt hp) (Nat.lt_irrefl _)
    have hfresh : ∀ p, x.world.promCount ≤ p →
        (∀ ec n, .completed p ec n ∉ es ++ [.world (.waitStart i x.world.promCount timePointMax)]) ∧
        ∀ y ∈ worldEvents (es ++ [.world (.waitStart i x.world.promCount timePointMax)]), ¬ World.Settles p y := by
      intro p hp
      obtain ⟨hc, hy⟩ := h.fresh p hp
      refine ⟨fun ec n hm => (List.mem_append.1 hm).elim (hc ec n) (hcomp p ec n), fun y hm hset => ?_⟩
      rw [worldEvents_append] at hm
      rcases List.mem_append.1 hm with hm | hm
      · exact hy y hm hset
      · obtain rfl := List.mem_singleton.1 hm
        obtain ⟨o, ho | ho | ho⟩ := hset <;> cases ho
    have hnew : OpInv x.world.promCount {} (es ++ [.world (.waitStart i x.world.promCount timePointMax)]) w₂ := by
      obtain ⟨-, hfe⟩ := h.fresh x.world.promCount (Nat.le_refl _)
      obtain ⟨hfc, hfe'⟩ := hfresh x.world.promCount (Nat.le_refl _)
      have hnil : World.storedValues x.world.promCount (worldEvents es) = [] :=
        List.eq_nil_iff_forall_not_mem.2 fun n hn => hfe _ (World.mem_storedValues.1 hn) ⟨_, .inr (.inl rfl)⟩
      have hslot :=
        World.slot_new h.grounded.orderly h.grounded.alloc h.grounded.signals hone hnil (i, x.world.cur i)
        (Transferred x.world.promCount (es ++ [.world (.waitStart i x.world.promCount timePointMax)]))
      have honce : World.SetOnce x.world.promCount (worldEvents es) x.world :=
        World.setOnce_fresh h.grounded.alloc (Nat.le_refl _) (fun o ho => hfe _ ho ⟨o, .inr (.inr rfl)⟩)
      have hk : World.KeepsSlot x.world.promCount (i, x.world.cur i)
          (Transferred x.world.promCount (es ++ [.world (.waitStart i x.world.promCount timePointMax)]))
          (x.world.newPromise none false).2 (.call i t (.wait x.world.promCount timePointMax))
          [.waitStart i x.world.promCount timePointMax] := by
        refine ⟨hq, hone₁, fun hf => ?_, fun j t' d ha => ?_, fun _ _ _ ha => by cases ha⟩
        · -- no frame refers to a promise that has just been made
          obtain ⟨f, hf, href⟩ := hf
          refine absurd (h.grounded.alloc.frames i (x.world.cur i) _ f ?_ href) (Nat.lt_irrefl _)
          rw [World.stack_cur]
          exact hf
        · cases ha
          exact ⟨rfl, rfl⟩
      have hev : worldEvents (es ++ [.world (.waitStart i x.world.promCount timePointMax)]) =
          worldEvents es ++ [.waitStart i x.world.promCount timePointMax] := worldEvents_append _ _
      refine ⟨⟨(i, x.world.cur i), fun j => ?_⟩, ?_, fun ec n => ⟨fun hm => absurd hm (hfc ec n), fun hc => by cases hc⟩,
        fun _ o ho => hfe' _ ho ⟨o, .inl rfl⟩, fun ec n hpc => (by simp at hpc), .inr ⟨by simp, rfl⟩,
        fun hsc => by cases hsc⟩
      · rw [hev]
        exact ((hslot i).step h₂ hk).start j
      · rw [hev]
        exact (hslot i).setOnce h₂ hk (fun _ _ _ ha => by cases ha) ⟨honce.started, honce.returned, honce.place⟩
    refine
      { grounded := hground.step h₂ hq hone₁
        ops := fun p op hp => ?_
        fresh := fun p hp => ?_
        calls := fun j c k' hk => ?_ }
    · simp only [setOp] at hp
      split at hp
      · next hp' =>
        subst hp'
        obtain rfl := Option.some.inj hp
        exact hnew
      · exact hold p op hp
    · exact hfresh p (Nat.le_trans (World.step_promCount h₁) (Nat.le_trans (World.step_promCount h₂) hp))
    · rcases call_of_setCall hk with hk | hk
      · obtain rfl := Option.some.inj hk
        simp [CallInv, setOp]
      · refine (h.calls j c k' hk).append (fun p hp => ?_) _
        simp only [setOp]
        split
        · simp
        · exact hp
  · cases hc

theorem CallInv.mono (hops : ∀ p, x.ops p ≠ none → x'.ops p ≠ none) {pc : CallPc} (h : CallInv x es pc) :
    CallInv x' es pc := by
  have := h.append hops []
  rwa [List.append_nil] at this

theorem setOp_ops (x : StreamWorld) (p : PromId) (op : Operation) (q : PromId) (h : x.ops q ≠ none) :
    (x.setOp p op).ops q ≠ none := by
  simp only [setOp]
  split
  · simp
  · exact h

/-- Only the operation of `p` changes. -/
theorem StreamInv.modOp {op' : Operation} (h : StreamInv es x) (hop : OpInv p op' es x.world) :
    StreamInv es (x.setOp p op') := by
  refine ⟨h.grounded, fun q op₁ hq => ?_, h.fresh, fun i c k hk => (h.calls i c k hk).mono fun q hq => setOp_ops x p op' q hq⟩
  simp only [setOp] at hq
  split at hq
  · next hqp =>
    subst hqp
    obtain rfl := Option.some.inj hq
    exact hop
  · exact h.ops q op₁ hq

/-- Only what the calls do changes. -/
theorem StreamInv.modCall {i : ThreadId} {k : Option StreamCall} (h : StreamInv es x) (he : worldEvents e = [])
    (hcomp : ∀ p ec n, .completed p ec n ∉ e) (hk : ∀ k', k = some k' → CallInv x (es ++ e) k'.pc) :
    StreamInv (es ++ e) (x.setCall i k) := by
  refine h.quiet he hcomp rfl (fun q op hq => (h.ops q op hq).quiet he (hcomp q)) (fun q hq => hq)
    (fun j c k' hk' => ?_)
  rcases call_of_setCall hk' with hk' | hk'
  · exact .inr (hk k' hk')
  · exact .inl hk'

theorem StreamInv.emit (h : StreamInv es x) (he : worldEvents e = []) (hcomp : ∀ p ec n, .completed p ec n ∉ e) :
    StreamInv (es ++ e) x :=
  h.quiet he hcomp rfl (fun q op hq => (h.ops q op hq).quiet he (hcomp q)) (fun _ => id) (fun _ _ _ => .inl)

/-- The pointers of the streambufs do not matter. -/
theorem StreamInv.setBuf (h : StreamInv es x) (b : BufId) (s : Streambuf) : StreamInv es (x.setBuf b s) :=
  ⟨h.grounded, h.ops, h.fresh, fun i c k hk => (h.calls i c k hk).mono fun _ => id⟩

theorem HandlerPc.finished_of_completion {pc : HandlerPc} {ec : ErrorCode} {n : Nat}
    (h : pc.completion = some (ec, n)) (hr : pc.running = false) : pc = .finished ec n := by
  cases pc with
  | outstanding => cases h
  | storing | writing => cases hr
  | finished ec' n' =>
    obtain ⟨rfl, rfl⟩ := Prod.mk.inj (Option.some.inj h)
    rfl

/-- The handler writes the `error_code` and returns. -/
theorem OpInv.write {w : World Nat} {oec ec : ErrorCode} {n : Nat} {inScope : Bool}
    (h : OpInv p ⟨oec, .writing ec n, inScope⟩ es w) : OpInv p ⟨ec, .finished ec n, inScope⟩ es w :=
  ⟨h.slot, h.once, h.completed, fun hc => (by cases hc), fun _ _ _ => h.stored ec n (.inl rfl), .inl ⟨n, rfl⟩,
    fun _ => ⟨ec, n, rfl⟩⟩

/-- What a call finds in its `ec` is what the operation has completed with. -/
theorem OpInv.tested {w : World Nat} {ec : ErrorCode} {n : Nat} (h : OpInv p op es w) (hc : .completed p ec n ∈ es)
    (hr : op.handler.running = true → ec = {}) : op.ec = ec := by
  have hcomp := (h.completed ec n).1 hc
  cases hrun : op.handler.running with
  | false =>
    have hfin := HandlerPc.finished_of_completion hcomp hrun
    rcases h.ec with ⟨n', hn⟩ | ⟨hn, -⟩
    · rw [hfin] at hn
      cases hn
      rfl
    · exact absurd hfin (hn ec n)
  | true =>
    rcases h.ec with ⟨n', hn⟩ | ⟨-, hec⟩
    · rw [hn] at hrun
      cases hrun
    · exact hec.trans (hr hrun).symm

theorem StreamInv.step {a : StreamAction} (h : StreamInv es x) (hs : x.step a = some (x', e))
    (hok : HandlerFirst x a e) : StreamInv (es ++ e) x' := by
  cases a with
  | base a =>
    simp only [StreamWorld.step] at hs
    split at hs
    · next hal =>
      have hnames : ∀ p, a.names = some p → x.ops p = none := fun p hp => by
        simp only [allows, hp, Bool.and_eq_true, Option.isNone_iff_eq_none] at hal
        exact hal.1
      refine h.stepWorld hs hok.noQuit hok.oneTimed hok.unmarked (fun p j t d hp ha => ?_)
        (fun p op j t o hp ha => ?_)
      · exact hp (hnames p (by rw [ha]; rfl))
      · rw [hnames p (by rw [ha]; rfl)] at hp
        cases hp
    · cases hs
  | access b s =>
    obtain ⟨rfl, rfl⟩ := Prod.mk.inj (Option.some.inj hs)
    rw [List.append_nil]
    exact h.setBuf b s
  | underflow i b =>
    simp only [StreamWorld.step] at hs
    split at hs
    · split at hs
      · obtain ⟨rfl, rfl⟩ := Prod.mk.inj (Option.some.inj hs)
        exact h.modCall rfl (by simp) fun k' hk' => by cases hk'; trivial
      · obtain ⟨rfl, rfl⟩ := Prod.mk.inj (Option.some.inj hs)
        exact h.emit rfl (by simp)
    · cases hs
  | overflow i b c =>
    simp only [StreamWorld.step] at hs
    split at hs
    · split at hs
      · split at hs
        · obtain ⟨rfl, rfl⟩ := Prod.mk.inj (Option.some.inj hs)
          exact h.emit rfl (by simp)
        · obtain ⟨rfl, rfl⟩ := Prod.mk.inj (Option.some.inj hs)
          exact h.modCall rfl (by simp) fun k' hk' => by cases hk'; trivial
      · obtain ⟨rfl, rfl⟩ := Prod.mk.inj (Option.some.inj hs)
        exact h.modCall rfl (by simp) fun k' hk' => by cases hk'; trivial
    · cases hs
  | start i t =>
    simp only [StreamWorld.step] at hs
    split at hs
    · next b c hk =>
      have hx := Option.some.inj hs
      simp only [flushed] at hx
      split at hx <;>
      · obtain ⟨rfl, rfl⟩ := Prod.mk.inj hx
        exact (h.setBuf b _).modCall rfl (by simp) fun k' hk' => by cases hk'
    · exact h.startOp hs hok.noQuit hok.oneTimed hok.unmarked
    · cases hs
  | complete i t p ec n =>
    simp only [StreamWorld.step] at hs
    split at hs
    · split at hs
      · next oec inScope hop =>
        simp only [Option.bind_eq_bind, Option.bind_eq_some_iff] at hs
        obtain ⟨⟨x₁, e₁⟩, h₁, he⟩ := hs
        obtain ⟨rfl, rfl⟩ := Prod.mk.inj (Option.some.inj he)
        have hbegun := (h.ops p _ hop).begun rfl
        have hcomp : StreamInv (es ++ [.completed p ec n])
            ((x.setOp p ⟨oec, .storing ec n, inScope⟩).setHandler i (some p)) := h.completed hop
        rw [List.append_cons]
        have hold : ∀ q, (if q = p then some ⟨oec, .storing ec n, inScope⟩ else x.ops q) ≠ none → x.ops q ≠ none :=
          fun q hq => by
            split at hq
            · next hqp => simp [hqp, hop]
            · exact hq
        refine hcomp.stepWorld h₁ hok.noQuit hok.oneTimed (fun q j hq => hok.unmarked q j (hold q hq))
          (fun _ _ _ _ _ ha => by cases ha) (fun q op j t' o hq ha => ?_)
        cases ha
        simp only [setHandler, setOp, if_pos] at hq
        obtain rfl := Option.some.inj hq
        refine ⟨⟨n, rfl, ec, by simp⟩, by simp, fun o' ho' => ?_⟩
        rw [worldEvents_append] at ho'
        exact hbegun o' (by simpa [worldEvents] using ho')
      · cases hs
    · cases hs
  | writeEc i =>
    simp only [StreamWorld.step] at hs
    split at hs
    · next p hp =>
      split at hs
      · next oec ec n inScope hop =>
        obtain ⟨rfl, rfl⟩ := Prod.mk.inj (Option.some.inj hs)
        rw [List.append_nil]
        have hw := h.modOp (h.ops p _ hop).write
        exact ⟨hw.grounded, hw.ops, hw.fresh, hw.calls⟩
      · cases hs
    · cases hs
  | test i =>
    simp only [StreamWorld.step] at hs
    split at hs
    · next b kind p n hk =>
      obtain ⟨op, hop, he⟩ := Option.map_eq_some_iff.1 hs
      obtain ⟨rfl, rfl⟩ := Prod.mk.inj he
      refine h.modCall rfl (by simp) fun k' hk' => ?_
      obtain rfl := Option.some.inj hk'
      obtain ⟨hne, ec, hc⟩ := h.calls i _ _ hk
      have hcomp := ((h.ops p op hop).completed ec n).1 hc
      have hec := (h.ops p op hop).tested hc fun hr => hok.test i b kind p n op ec n rfl hk hop hr hcomp
      exact ⟨hne, ec, List.mem_append_left _ hc, fun hok => by simpa [hec] using hok⟩
    · cases hs
  | leave i =>
    simp only [StreamWorld.step] at hs
    split at hs
    · next b kind p n ok hk =>
      obtain ⟨op, hop, he⟩ := Option.map_eq_some_iff.1 hs
      obtain ⟨hne, ec, hc, -⟩ := h.calls i _ _ hk
      have hI := h.ops p op hop
      -- the handler has returned
      have hfin :=
        HandlerPc.finished_of_completion ((hI.completed ec n).1 hc) (hok.leave i b kind p n ok op rfl hk hop)
      have hout : StreamInv es (x.setOp p { op with inScope := false }) :=
        h.modOp ⟨hI.slot, hI.once, hI.completed, hI.begun, hI.stored, hI.ec, fun _ => ⟨ec, n, hfin⟩⟩
      split at he
      · cases kind with
        | underflow =>
          obtain ⟨rfl, rfl⟩ := Prod.mk.inj he
          exact (hout.setBuf b _).modCall rfl (by simp) fun k' hk' => by cases hk'
        | sendOne c =>
          obtain ⟨rfl, rfl⟩ := Prod.mk.inj he
          exact hout.modCall rfl (by simp) fun k' hk' => by cases hk'
        | flush c size =>
          obtain ⟨rfl, rfl⟩ := Prod.mk.inj he
          exact hout.modCall rfl (by simp) fun k' hk' => by cases hk'; trivial
      · obtain ⟨rfl, rfl⟩ := Prod.mk.inj he
        exact hout.modCall rfl (by simp) fun k' hk' => by cases hk'
    · next b kind p r hk => exact (h.calls i _ _ hk).elim
    · cases hs

theorem streamInv_init (b : BufId → Streambuf) : StreamInv [] { buf := b } where
  grounded := World.grounded_init
  ops := fun p op hp => by cases hp
  fresh := fun p _ => ⟨fun ec n hm => (by cases hm), fun y hy => (by cases hy)⟩
  calls := fun i c k hk => by cases hk

theorem streamInv_run {b : BufId → Streambuf} (h : Run step (fun _ => HandlerFirst) { buf := b } x es) :
    StreamInv es x :=
  h.inv StreamInv (streamInv_init b) fun _ _ _ _ _ hI hok hs => hI.step hs hok

/-- What a call has found out about an operation. -/
def Reports : StreamEvent → Prop
  | .tested _ _ => True
  | .character _ _ => True
  | .sent _ _ => True
  | _ => False

theorem stepWorld_reports {a : Action Nat} (hs : x.stepWorld a = some (x', e)) : ∀ y ∈ e, ¬ Reports y := by
  obtain ⟨⟨w, ew⟩, -, he⟩ := Option.map_eq_some_iff.1 hs
  obtain ⟨-, rfl⟩ := Prod.mk.inj he
  intro y hy
  obtain ⟨z, -, rfl⟩ := List.mem_map.1 hy
  exact id

/-- Calls report when they have tested the `error_code`, and when the scope of an operation that has succeeded
ends. -/
theorem step_reports {a : StreamAction} (hs : x.step a = some (x', e)) {y : StreamEvent} (hy : y ∈ e)
    (hr : Reports y) :
    (∃ i b kind p n op, a = .test i ∧ x.call i (x.world.cur i) = some ⟨b, kind, .returned p n⟩ ∧ x.ops p = some op ∧
      y = .tested p op.ec) ∨
    ∃ i b kind p n, x.call i (x.world.cur i) = some ⟨b, kind, .tested p n true⟩ ∧
    (y = .character p n ∨ y = .sent p n) := by
  cases a with
  | base a =>
    simp only [StreamWorld.step] at hs
    split at hs
    · exact absurd hr (stepWorld_reports hs y hy)
    · cases hs
  | access b s =>
    obtain ⟨-, rfl⟩ := Prod.mk.inj (Option.some.inj hs)
    cases hy
  | underflow i b =>
    simp only [StreamWorld.step] at hs
    split at hs
    · split at hs
      · obtain ⟨-, rfl⟩ := Prod.mk.inj (Option.some.inj hs)
        cases hy
      · obtain ⟨-, rfl⟩ := Prod.mk.inj (Option.some.inj hs)
        obtain rfl := List.mem_singleton.1 hy
        exact hr.elim
    · cases hs
  | overflow i b c =>
    simp only [StreamWorld.step] at hs
    split at hs
    · split at hs
      · split at hs
        · obtain ⟨-, rfl⟩ := Prod.mk.inj (Option.some.inj hs)
          obtain rfl := List.mem_singleton.1 hy
          exact hr.elim
        · obtain ⟨-, rfl⟩ := Prod.mk.inj (Option.some.inj hs)
          cases hy
      · obtain ⟨-, rfl⟩ := Prod.mk.inj (Option.some.inj hs)
        cases hy
    · cases hs
  | start i t =>
    simp only [StreamWorld.step] at hs
    split at hs
    · have hx := Option.some.inj hs
      simp only [flushed] at hx
      split at hx <;>
      · obtain ⟨-, rfl⟩ := Prod.mk.inj hx
        obtain rfl := List.mem_singleton.1 hy
        exact hr.elim
    · simp only [StreamWorld.startOp, Option.bind_eq_bind, Option.bind_eq_some_iff] at hs
      obtain ⟨r₁, -, r₂, -, he⟩ := hs
      obtain ⟨-, rfl⟩ := Prod.mk.inj (Option.some.inj he)
      obtain ⟨z, -, rfl⟩ := List.mem_map.1 hy
      exact hr.elim
    · cases hs
  | complete i t p ec n =>
    simp only [StreamWorld.step] at hs
    split at hs
    · split at hs
      · simp only [Option.bind_eq_bind, Option.bind_eq_some_iff] at hs
        obtain ⟨⟨x₁, e₁⟩, h₁, he⟩ := hs
        obtain ⟨-, rfl⟩ := Prod.mk.inj (Option.some.inj he)
        rcases List.mem_cons.1 hy with rfl | hy
        · exact hr.elim
        · exact absurd hr (stepWorld_reports h₁ y hy)
      · cases hs
    · cases hs
  | writeEc i =>
    simp only [StreamWorld.step] at hs
    split at hs
    · split at hs
      · obtain ⟨-, rfl⟩ := Prod.mk.inj (Option.some.inj hs)
        cases hy
      · cases hs
    · cases hs
  | test i =>
    simp only [StreamWorld.step] at hs
    split at hs
    · next b kind p n hk =>
      obtain ⟨op, hop, he⟩ := Option.map_eq_some_iff.1 hs
      obtain ⟨-, rfl⟩ := Prod.mk.inj he
      exact .inl ⟨i, b, kind, p, n, op, rfl, hk, hop, List.mem_singleton.1 hy⟩
    · cases hs
  | leave i =>
    simp only [StreamWorld.step] at hs
    split at hs
    · next b kind p n ok hk =>
      obtain ⟨op, hop, he⟩ := Option.map_eq_some_iff.1 hs
      split at he
      · next hok =>
        subst hok
        refine .inr ⟨i, b, kind, p, n, hk, ?_⟩
        cases kind with
        | underflow | flush =>
          obtain ⟨-, rfl⟩ := Prod.mk.inj he
          obtain rfl := List.mem_singleton.1 hy
          simp
        | sendOne c =>
          obtain ⟨-, rfl⟩ := Prod.mk.inj he
          rcases List.mem_cons.1 hy with rfl | hy
          · exact .inr rfl
          · obtain rfl := List.mem_singleton.1 hy
            exact hr.elim
      · obtain ⟨-, rfl⟩ := Prod.mk.inj he
        obtain rfl := List.mem_singleton.1 hy
        exact hr.elim
    · obtain ⟨op, -, he⟩ := Option.map_eq_some_iff.1 hs
      obtain ⟨-, rfl⟩ := Prod.mk.inj he
      obtain rfl := List.mem_singleton.1 hy
      exact hr.elim
    · cases hs

/-- While the handler of `p` has something to do, `p` and `ec` are in scope. -/
theorem StreamInv.touches {a : StreamAction} (h : StreamInv es x) (hs : x.step a = some (x', e))
    (hp : x.ops p = some op) (ht : Touches x a p) : op.inScope = true := by
  by_contra hout
  obtain ⟨ec, n, hfin⟩ := (h.ops p op hp).scope (by simpa using hout)
  rcases ht with ⟨i, t, ec', n', rfl⟩ | ⟨i, rfl, hi⟩ | ⟨b, -, -, pc, o, c, k, hcpu⟩
  · simp only [StreamWorld.step] at hs
    split at hs
    · split at hs
      · next hop =>
        obtain rfl := Option.some.inj (hp.symm.trans hop)
        cases hfin
      · cases hs
    · cases hs
  · simp only [StreamWorld.step, hi, hp] at hs
    split at hs
    · next heq =>
      obtain rfl := Option.some.inj heq
      cases hfin
    · cases hs
  · -- nobody is in `set_value` once it has returned
    obtain ⟨o', ho'⟩ := (h.ops p op hp).stored ec n (.inr hfin)
    refine ((h.ops p op hp).once.returned o' ho').2 b.thread (x.world.cur b.thread) pc o c ?_
    rw [World.stack_cur, hcpu]
    exact List.mem_cons_self

/-- In every run in which no call gets ahead of its handler: the `error_code` that a call tests is that of the one
completion of its operation, `underflow` returns a character only for a receive that has succeeded, `overflow`
takes only what was sent as sent, and no handler uses a promise or an `error_code` of a call whose scope has
ended. -/
theorem error_codes_reach_reader {b : BufId → Streambuf} (h : Run step (fun _ => HandlerFirst) { buf := b } x es)
    {a : StreamAction} (hs : x.step a = some (x', e)) (hok : HandlerFirst x a e) :
    (∀ p ec, .tested p ec ∈ e → ∃ n, ∀ ec' n', .completed p ec' n' ∈ es ↔ ec' = ec ∧ n' = n) ∧
    (∀ p n, .character p n ∈ e ∨ .sent p n ∈ e → ∃ ec, .completed p ec n ∈ es ∧ ec.failed = false) ∧
    ∀ p op, x.ops p = some op → Touches x a p → op.inScope = true := by
  have hI := streamInv_run h
  refine ⟨fun p ec hy => ?_, fun p n hy => ?_, fun p op hp ht => hI.touches hs hp ht⟩
  · rcases step_reports hs hy trivial with ⟨i, b, kind, q, n, op, rfl, hk, hop, he⟩ | ⟨_, _, _, _, _, _, he | he⟩
    · obtain ⟨rfl, rfl⟩ := StreamEvent.tested.inj he
      obtain ⟨-, ec, hc⟩ := hI.calls i _ _ hk
      have hcomp := ((hI.ops p op hop).completed ec n).1 hc
      have hec := (hI.ops p op hop).tested hc fun hr => hok.test i b kind p n op ec n rfl hk hop hr hcomp
      refine ⟨n, fun ec' n' => ?_⟩
      rw [(hI.ops p op hop).completed ec' n', hcomp, hec, Option.some.injEq, Prod.mk.injEq]
      exact ⟨fun hc => ⟨hc.1.symm, hc.2.symm⟩, fun hc => ⟨hc.1.symm, hc.2.symm⟩⟩
    · cases he
    · cases he
  · have hfrom : ∃ i b kind, x.call i (x.world.cur i) = some ⟨b, kind, .tested p n true⟩ := by
      rcases hy with hy | hy <;>
      rcases step_reports hs hy trivial with ⟨_, _, _, _, _, _, -, -, -, he⟩ | ⟨i, b, kind, q, m, hk, he | he⟩ <;>
      cases he <;> exact ⟨i, b, kind, hk⟩
    obtain ⟨i, b, kind, hk⟩ := hfrom
    obtain ⟨-, ec, hc, hok⟩ := hI.calls i _ _ hk
    exact ⟨ec, hc, hok rfl⟩

/-! ### Runs that can be executed -/

theorem stepWorld_small {N : Nat} {a : Action Nat} (h : World.Small N x.world) (ha : a.thread < N)
    (hs : x.stepWorld a = some (x', e)) : World.Small N x'.world := by
  obtain ⟨⟨w, ew⟩, hw, he⟩ := Option.map_eq_some_iff.1 hs
  obtain ⟨rfl, rfl⟩ := Prod.mk.inj he
  exact h.step hw ha

theorem step_small {N : Nat} {a : StreamAction} (h : World.Small N x.world) (ha : a.thread < N)
    (hs : x.step a = some (x', e)) : World.Small N x'.world := by
  cases a with
  | base a =>
    simp only [StreamWorld.step] at hs
    split at hs
    · exact stepWorld_small h ha hs
    · cases hs
  | access b s =>
    obtain ⟨rfl, -⟩ := Prod.mk.inj (Option.some.inj hs)
    exact h
  | underflow i b =>
    simp only [StreamWorld.step] at hs
    split at hs
    · split at hs <;> (obtain ⟨rfl, -⟩ := Prod.mk.inj (Option.some.inj hs); exact h)
    · cases hs
  | overflow i b c =>
    simp only [StreamWorld.step] at hs
    split at hs
    · split at hs
      · split at hs <;> (obtain ⟨rfl, -⟩ := Prod.mk.inj (Option.some.inj hs); exact h)
      · obtain ⟨rfl, -⟩ := Prod.mk.inj (Option.some.inj hs)
        exact h
    · cases hs
  | start i t =>
    simp only [StreamWorld.step] at hs
    split at hs
    · have hx := Option.some.inj hs
      simp only [flushed] at hx
      split at hx <;> (obtain ⟨rfl, -⟩ := Prod.mk.inj hx; exact h)
    · simp only [StreamWorld.startOp, Option.bind_eq_bind, Option.bind_eq_some_iff] at hs
      obtain ⟨⟨w₁, e₁⟩, h₁, ⟨w₂, e₂⟩, h₂, he⟩ := hs
      obtain ⟨rfl, -⟩ := Prod.mk.inj (Option.some.inj he)
      exact (h.step h₁ ha).step h₂ ha
    · cases hs
  | complete i t p ec n =>
    simp only [StreamWorld.step] at hs
    split at hs
    · split at hs
      · simp only [Option.bind_eq_bind, Option.bind_eq_some_iff] at hs
        obtain ⟨⟨x₁, e₁⟩, h₁, he⟩ := hs
        obtain ⟨rfl, -⟩ := Prod.mk.inj (Option.some.inj he)
        exact stepWorld_small (x := (x.setOp p _).setHandler i (some p)) (a := .call i t (.set p _)) h ha h₁
      · cases hs
    · cases hs
  | writeEc i =>
    simp only [StreamWorld.step] at hs
    split at hs
    · split at hs
      · obtain ⟨rfl, -⟩ := Prod.mk.inj (Option.some.inj hs)
        exact h
      · cases hs
    · cases hs
  | test i =>
    simp only [StreamWorld.step] at hs
    split at hs
    · obtain ⟨op, -, he⟩ := Option.map_eq_some_iff.1 hs
      obtain ⟨rfl, -⟩ := Prod.mk.inj he
      exact h
    · cases hs
  | leave i =>
    simp only [StreamWorld.step] at hs
    split at hs
    · next b kind p n ok hk =>
      obtain ⟨op, -, he⟩ := Option.map_eq_some_iff.1 hs
      split at he
      · cases kind <;> (obtain ⟨rfl, -⟩ := Prod.mk.inj he; exact h)
      · obtain ⟨rfl, -⟩ := Prod.mk.inj he
        exact h
    · obtain ⟨op, -, he⟩ := Option.map_eq_some_iff.1 hs
      obtain ⟨rfl, -⟩ := Prod.mk.inj he
      exact h
    · cases hs

/-- The check of `Calm` on the threads below `N`. -/
def calmCheck (N : Nat) (x : StreamWorld) (e : List StreamEvent) : Bool :=
  (worldEvents e).all (fun y => !(y matches .quitted _)) && World.singleWaiterCheck N x.world &&
    (List.range N).all fun i => !x.world.currentCanceled i

theorem calmCheck_sound {N : Nat} (h : World.Small N x.world) (hc : calmCheck N x e = true) : Calm x e := by
  simp only [calmCheck, Bool.and_eq_true, List.all_eq_true, List.mem_range] at hc
  obtain ⟨⟨hq, hsingle⟩, hmark⟩ := hc
  exact ⟨fun j hj => by simpa using hq _ hj, (World.singleWaiterCheck_sound h hsingle).oneTimed,
    fun p i _ hf => h.unmarked (fun i hi => by simpa using hmark i hi) hf⟩

/-- The check of `HandlerFirst` on the threads below `N`. -/
def handlerFirstCheck (N : Nat) (x : StreamWorld) (a : StreamAction) (e : List StreamEvent) : Bool :=
  calmCheck N x e &&
    match a with
    | .test i | .leave i =>
      match x.call i (x.world.cur i) with
      | some ⟨_, _, .returned p _⟩ => (x.ops p).all fun op => !op.handler.running
      | some ⟨_, _, .tested p _ _⟩ => (x.ops p).all fun op => !op.handler.running
      | _ => true
    | _ => true

theorem handlerFirstCheck_sound {N : Nat} {a : StreamAction} (h : World.Small N x.world)
    (hc : handlerFirstCheck N x a e = true) : HandlerFirst x a e := by
  simp only [handlerFirstCheck, Bool.and_eq_true] at hc
  refine ⟨calmCheck_sound h hc.1, fun i b kind p n op ec m ha hk hop hr => ?_, fun i b kind p n ok op ha hk hop => ?_⟩
  · have := hc.2
    subst ha
    simp [hk, hop, hr] at this
  · have := hc.2
    subst ha
    simpa [hk, hop] using this

/-- Executing actions of threads below `N` that pass the check is a run. -/
theorem run_of_small (N : Nat) (ok : StreamWorld → StreamAction → List StreamEvent → Prop)
    (okb : StreamWorld → StreamAction → List StreamEvent → Bool) (f : StreamWorld → List StreamEvent → Bool)
    (as : List StreamAction) (hok : ∀ x a e, World.Small N x.world → okb x a e = true → ok x a e)
    (h : ((exec step (fun _ x a e => decide (a.thread < N) && okb x a e) [] {} as).any fun r => f r.1 r.2) = true) :
    ∃ x es, Run step (fun _ => ok) {} x es ∧ World.Small N x.world ∧ f x es = true := by
  refine run_of_exec (fun x => World.Small N x.world) (World.small_init N) (fun es x a x' e hsm hc hs => ?_)
    (fun es x a e hsm hc => ?_) h
  · simp only [Bool.and_eq_true, decide_eq_true_eq] at hc
    exact step_small hsm hc.1 hs
  · simp only [Bool.and_eq_true] at hc
    exact hok x a e hsm hc.2

/-- A receive of thread 0 fails, the handler returns on thread 1 before thread 0 goes on, and `underflow` finds the
`error_code`. -/
theorem error_codes_reach_reader_reset : ∃ (x x' : StreamWorld) (es e : List StreamEvent),
    (Run step (fun _ => HandlerFirst) {} x es ∧ x.step (.test 0) = some (x', e) ∧ HandlerFirst x (.test 0) e ∧
      .tested 0 ⟨104, 0⟩ ∈ e) ∧
    (∀ p ec, .tested p ec ∈ e → ∃ n, ∀ ec' n', .completed p ec' n' ∈ es ↔ ec' = ec ∧ n' = n) ∧
    (∀ p n, .character p n ∈ e ∨ .sent p n ∈ e → ∃ ec, .completed p ec n ∈ es ∧ ec.failed = false) ∧
    ∀ p op, x.ops p = some op → Touches x (.test 0) p → op.inScope = true := by
  obtain ⟨x, es, h, hsm, hf⟩ := run_of_small 2 HandlerFirst (handlerFirstCheck 2)
    (fun x _ => (x.step (.test 0)).any fun (r : StreamWorld × List StreamEvent) =>
      handlerFirstCheck 2 x (.test 0) r.2 && decide (.tested 0 ⟨104, 0⟩ ∈ r.2))
    [.underflow 0 0, .start 0 0, .base (.run 0 0 0 0), .base (.run 0 0 0 0), .base (.run 0 0 0 0),
      .complete 1 0 0 ⟨104, 0⟩ 0, .base (.run 1 0 0 0), .base (.run 1 0 0 0), .base (.run 1 0 0 0), .writeEc 1,
      -- thread 0 runs the `notify` and switches back
      .base (.run 0 0 0 0), .base (.run 0 0 0 0), .base (.run 0 0 0 0), .base (.run 0 0 0 0), .base (.run 0 0 0 0),
      .base (.run 0 0 0 0), .base (.run 0 0 0 0)]
    (fun x a e => handlerFirstCheck_sound) (by decide)
  simp only [Option.any_eq_true, Bool.and_eq_true, decide_eq_true_eq] at hf
  obtain ⟨⟨x', e⟩, hs, hc, he⟩ := hf
  have hok := handlerFirstCheck_sound hsm hc
  exact ⟨x, x', es, e, ⟨h, hs, hok, he⟩, error_codes_reach_reader h hs hok⟩

/-- Thread 0 gets to the locked check of its wait between the store of the handler and the write of the
`error_code`: the receive has failed, `underflow` finds a clear `error_code` and returns a character, and the
handler goes on in `set_value` of the dead promise. -/
theorem failed_receive_taken_for_success : ∃ (x : StreamWorld) (es : List StreamEvent) (op : Operation),
    Run step (fun _ x _ e => Calm x e) {} x es ∧ .completed 0 ⟨104, 0⟩ 0 ∈ es ∧ .tested 0 {} ∈ es ∧
    .character 0 0 ∈ es ∧
      x.ops 0 = some op ∧ op.inScope = false ∧ Touches x (.base (.run 1 0 0 0)) 0 ∧
      (x.step (.base (.run 1 0 0 0))).isSome = true := by
  obtain ⟨x, es, h, -, hf⟩ := run_of_small 2 (fun x _ e => Calm x e) (fun x _ e => calmCheck 2 x e)
    (fun x es => decide (.completed 0 ⟨104, 0⟩ 0 ∈ es ∧ .tested 0 {} ∈ es ∧ .character 0 0 ∈ es) &&
      decide (x.ops 0 = some { handler := .storing ⟨104, 0⟩ 0, inScope := false }) &&
      decide (x.world.cpu 1 = [.set .notify 0 (.value 0) false, .user]) && (x.step (.base (.run 1 0 0 0))).isSome)
    [.underflow 0 0, .start 0 0, .complete 1 0 0 ⟨104, 0⟩ 0, .base (.run 1 0 0 0), .base (.run 0 0 0 0), .test 0,
      .leave 0]
    (fun x a e => calmCheck_sound) (by decide)
  simp only [Bool.and_eq_true, decide_eq_true_eq] at hf
  obtain ⟨⟨⟨⟨hc, ht, hch⟩, hop⟩, hcpu⟩, hs⟩ := hf
  exact ⟨x, es, _, h, hc, ht, hch, hop, rfl,
    .inr (.inr ⟨.run 1 0 0 0, rfl, fun _ ha => (by cases ha), _, _, _, _, hcpu⟩), hs⟩

end StreamWorld

end BoostCmt
