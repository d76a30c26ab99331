import BoostCmt.Lib.Simulation
import Mathlib.Algebra.Group.Nat.Defs
import Mathlib.Data.List.Basic
import Mathlib.Data.List.Flatten
/-!
# The bytes of the socket streambuf

`basic_socket_streambuf` is a `std::streambuf` over two arrays of 512 bytes. `underflow` receives
behind the first eight bytes of `get_buffer_`, which `setg` gives to the reader as the place that
`sungetc` steps back into. `overflow` sends what is between `pbase` and `pptr`, and resets the put
area once all of it is sent.

A step is a whole call of a member of `std::streambuf` or of the class itself, with the completions
of the operations that it waits for. `asio` is outside of this file: an operation that succeeds has
transferred at least one byte and at most what it was offered, and one that fails has transferred
none. That `ec` is the one of the completion is the subject of `BoostCmt.Streambuf`.

`sent`, `received`, `written` and `dropped` record what was handed to the socket, what came from it,
the characters that `sputc` has accepted, and those that were thrown away with the put area.
-/

namespace BoostCmt.StreamBytes

open Runs

def putbackMax : Nat := 8

def bufferSize : Nat := 512

/-- `basic_socket_streambuf`. The pointers of the get area are indices into `get_buffer_`, whose `eback` is 0. -/
structure Streambuf (α : Type) where
  getBuffer : Nat → α
  gptr : Nat := putbackMax
  egptr : Nat := putbackMax
  /-- From `pbase` to `pptr`. -/
  putArea : List α := []
  /-- `epptr() - pbase()`. -/
  putSize : Nat := bufferSize
  unbuffered : Bool := false
  destroyed : Bool := false
  sent : List α := []
  received : List α := []
  written : List α := []
  dropped : List α := []

/-- How an `async_send` completes: with `bytes_transferred`, or with an error. -/
inductive Send where
  | transferred (n : Nat)
  | failed
  deriving DecidableEq, Repr

/-- What the `int_type` of `overflow` tells. -/
inductive IntType (α : Type) where
  | eof
  | notEof
  | char (c : α)
  deriving DecidableEq, Repr

inductive Act (α : Type) where
  | sputc (c : α) (sends : List Send)
  /-- `sgetc`; a receive that it waits for gives some bytes, or fails. -/
  | sgetc (receive : Option (List α))
  | sbumpc (receive : Option (List α))
  | sungetc
  | sputbackc (c : α)
  | sync (sends : List Send)
  /-- `setbuf( 0, 0 )`. -/
  | setbuf
  /-- `close()`; `ok` says that the socket has closed without an error. -/
  | close (sends : List Send) (ok : Bool)
  | connect (ok : Bool)
  | destroy (sends : List Send)
  deriving DecidableEq, Repr

/-- What the calls return; a character is `none` when it is `eof`. -/
inductive Event (α : Type) where
  | put (c : α) (r : IntType α)
  | peeked (c : Option α)
  | got (c : Option α)
  | ungot (c : Option α)
  | synced (r : IntType α)
  | closed (ok : Bool)
  | connected (ok : Bool)
  deriving DecidableEq, Repr

variable {α : Type}

/-- The loop of `overflow` over what is left of `buffer`: the bytes it hands over, and whether no send has failed.
It is `none` while a send has not completed. -/
def sendAll : List α → List Send → Option (List α × Bool)
  | [], [] => some ([], true)
  | [], _ :: _ => none
  | _ :: _, [] => none
  | c :: buffer, .transferred n :: sends =>
    if 1 ≤ n ∧ n ≤ (c :: buffer).length then
      (sendAll ((c :: buffer).drop n) sends).map fun r => ((c :: buffer).take n ++ r.1, r.2)
    else none
  | _ :: _, [.failed] => some ([], false)
  | _ :: _, .failed :: _ :: _ => none

namespace Streambuf

/-- A streambuf whose `get_buffer_` holds `cells` when it is constructed. -/
def new (cells : Nat → α) : Streambuf α := { getBuffer := cells }

def initBuffers (s : Streambuf α) : Streambuf α :=
  { s with
    gptr := putbackMax
    egptr := putbackMax
    putArea := []
    putSize := if s.unbuffered then 0 else bufferSize
    dropped := s.dropped ++ s.putArea }

/-! ## Writing -/

def overflow (s : Streambuf α) (c : Option α) (sends : List Send) : Option (Streambuf α × IntType α) :=
  if s.unbuffered then
    match c, sends with
    | none, [] => some (s, .notEof)
    | some ch, [.transferred n] => if n = 1 then some ({ s with sent := s.sent ++ [ch] }, .char ch) else none
    | some _, [.failed] => some (s, .eof)
    | _, _ => none
  else do
    let (bytes, ok) ← sendAll s.putArea sends
    let s := { s with sent := s.sent ++ bytes }
    if ok then
      let s := { s with putArea := [], putSize := bufferSize }
      match c with
      | none => return (s, .notEof)
      | some ch => return ({ s with putArea := [ch] }, .char ch)
    else return (s, .eof)

/-- `std::streambuf::sputc`. -/
def sputc (s : Streambuf α) (c : α) (sends : List Send) : Option (Streambuf α × IntType α) :=
  if s.putArea.length < s.putSize then
    if sends = [] then some ({ s with putArea := s.putArea ++ [c], written := s.written ++ [c] }, .char c) else none
  else (s.overflow (some c) sends).map fun
    | (s, .eof) => (s, .eof)
    | (s, r) => ({ s with written := s.written ++ [c] }, r)

def sync (s : Streambuf α) (sends : List Send) : Option (Streambuf α × IntType α) := s.overflow none sends

/-- `setbuf( 0, 0 )`. -/
def setbuf (s : Streambuf α) : Streambuf α :=
  if s.putArea = [] then { s with unbuffered := true, putSize := 0 } else s

/-- `close()`: it does not look at what `sync` returns. -/
def close (s : Streambuf α) (sends : List Send) (ok : Bool) : Option (Streambuf α) :=
  (s.sync sends).map fun r => if ok then r.1.initBuffers else r.1

/-! ## Reading -/

/-- `async_receive` behind the putback area. -/
def receive (s : Streambuf α) (bytes : List α) : Streambuf α :=
  { s with
    getBuffer := fun j => if j < putbackMax then s.getBuffer j else (bytes[j - putbackMax]?).getD (s.getBuffer j)
    gptr := putbackMax
    egptr := putbackMax + bytes.length
    received := s.received ++ bytes }

/-- The character at an index of `get_buffer_`. -/
def cell (s : Streambuf α) (i : Nat) : Option α := if i < bufferSize then some (s.getBuffer i) else none

/-- `underflow`: `eof` is `none`. -/
def underflow (s : Streambuf α) (receive : Option (List α)) : Option (Streambuf α × Option α) :=
  if s.gptr = s.egptr then
    match receive with
    | none => some (s, none)
    | some bytes =>
      if 1 ≤ bytes.length ∧ bytes.length ≤ bufferSize - putbackMax then
        let s := s.receive bytes
        (s.cell s.gptr).map fun c => (s, some c)
      else none
  else some (s, none)

/-- `std::streambuf::sgetc`. -/
def sgetc (s : Streambuf α) (receive : Option (List α)) : Option (Streambuf α × Option α) :=
  if s.gptr < s.egptr then
    if receive = none then (s.cell s.gptr).map fun c => (s, some c) else none
  else s.underflow receive

/-- `std::streambuf::sbumpc`, with `uflow`. -/
def sbumpc (s : Streambuf α) (receive : Option (List α)) : Option (Streambuf α × Option α) :=
  (s.sgetc receive).map fun
    | (s, none) => (s, none)
    | (s, some c) => ({ s with gptr := s.gptr + 1 }, some c)

/-- `std::streambuf::sungetc`; `pbackfail` gives `eof`. -/
def sungetc (s : Streambuf α) : Option (Streambuf α × Option α) :=
  if 0 < s.gptr then (s.cell (s.gptr - 1)).map fun c => ({ s with gptr := s.gptr - 1 }, some c)
  else some (s, none)

/-- `std::streambuf::sputbackc`. -/
def sputbackc [DecidableEq α] (s : Streambuf α) (c : α) : Option (Streambuf α × Option α) :=
  if 0 < s.gptr ∧ s.cell (s.gptr - 1) = some c then some ({ s with gptr := s.gptr - 1 }, some c)
  else some (s, none)

/-- `~basic_socket_streambuf`: it does not look at what `overflow` returns. -/
def destroy (s : Streambuf α) (sends : List Send) : Option (Streambuf α) :=
  let flushed := if s.putArea = [] then some (s, .notEof) else s.overflow none sends
  flushed.map fun r => { r.1 with putArea := [], destroyed := true, dropped := r.1.dropped ++ r.1.putArea }

def call [DecidableEq α] (s : Streambuf α) : Act α → Option (Streambuf α × List (Event α))
  | .sputc c sends => (s.sputc c sends).map fun r => (r.1, [.put c r.2])
  | .sgetc receive => (s.sgetc receive).map fun r => (r.1, [.peeked r.2])
  | .sbumpc receive => (s.sbumpc receive).map fun r => (r.1, [.got r.2])
  | .sungetc => s.sungetc.map fun r => (r.1, [.ungot r.2])
  | .sputbackc c => (s.sputbackc c).map fun r => (r.1, [.ungot r.2])
  | .sync sends => (s.sync sends).map fun r => (r.1, [.synced r.2])
  | .setbuf => some (s.setbuf, [])
  | .close sends ok => (s.close sends ok).map fun s => (s, [.closed ok])
  | .connect ok => some (s.initBuffers, [.connected ok])
  | .destroy sends => (s.destroy sends).map fun s => (s, [])

/-- One call; there is none after the destructor. -/
def step [DecidableEq α] (s : Streambuf α) (a : Act α) : Option (Streambuf α × List (Event α)) :=
  if s.destroyed then none else s.call a

end Streambuf

/-! ## What a call does -/

theorem sendAll_sends {buffer bytes : List α} {sends : List Send} {ok : Bool}
    (h : sendAll buffer sends = some (bytes, ok)) : bytes <+: buffer ∧ (ok = true → bytes = buffer) := by
  induction sends generalizing buffer bytes with
  | nil =>
    cases buffer with
    | nil =>
      obtain ⟨rfl, rfl⟩ := Prod.mk.inj (Option.some.inj h)
      exact ⟨List.prefix_rfl, fun _ => rfl⟩
    | cons c buffer => cases h
  | cons x sends ih =>
    cases buffer with
    | nil => cases h
    | cons c buffer =>
      cases x with
      | transferred n =>
        simp only [sendAll] at h
        split at h
        · obtain ⟨⟨rest, ok'⟩, hr, he⟩ := Option.map_eq_some_iff.1 h
          obtain ⟨rfl, rfl⟩ := Prod.mk.inj he
          obtain ⟨hpre, hall⟩ := ih hr
          have hsplit : (c :: buffer).take n ++ (c :: buffer).drop n = c :: buffer := List.take_append_drop ..
          refine ⟨?_, fun hok => ?_⟩
          · conv_rhs => rw [← hsplit]
            exact (List.prefix_append_right_inj _).2 hpre
          · rw [hall hok, hsplit]
        · cases h
      | failed =>
        cases sends with
        | nil =>
          obtain ⟨rfl, rfl⟩ := Prod.mk.inj (Option.some.inj h)
          exact ⟨List.nil_prefix, by simp⟩
        | cons y sends => cases h

theorem sendAll_ok {buffer bytes : List α} {sends : List Send} {ok : Bool} (hf : .failed ∉ sends)
    (h : sendAll buffer sends = some (bytes, ok)) : ok = true := by
  induction sends generalizing buffer bytes with
  | nil =>
    cases buffer with
    | nil => exact (Prod.mk.inj (Option.some.inj h)).2.symm
    | cons c buffer => cases h
  | cons x sends ih =>
    cases buffer with
    | nil => cases h
    | cons c buffer =>
      cases x with
      | transferred n =>
        simp only [sendAll] at h
        split at h
        · obtain ⟨⟨rest, ok'⟩, hr, he⟩ := Option.map_eq_some_iff.1 h
          obtain ⟨-, rfl⟩ := Prod.mk.inj he
          exact ih (List.not_mem_of_not_mem_cons hf) hr
        · cases h
      | failed => exact absurd List.mem_cons_self hf

namespace Streambuf
section Calls
variable {s s' : Streambuf α} {sends : List Send} {c : Option α} {r : IntType α} {receive : Option (List α)}

/-- What `overflow` does to a streambuf with a put area. -/
theorem overflow_buffered (hu : s.unbuffered = false) (h : s.overflow c sends = some (s', r)) :
    (∃ bytes, sendAll s.putArea sends = some (bytes, false) ∧ r = .eof ∧ s' = { s with sent := s.sent ++ bytes }) ∨
      sendAll s.putArea sends = some (s.putArea, true) ∧ r ≠ .eof ∧
        s' = { s with sent := s.sent ++ s.putArea, putSize := bufferSize, putArea := c.toList } := by
  unfold overflow at h
  rw [if_neg (by rw [hu]; exact Bool.false_ne_true), Option.bind_eq_bind] at h
  obtain ⟨⟨bytes, ok⟩, hsend, h⟩ := Option.bind_eq_some_iff.1 h
  cases ok with
  | false =>
    obtain ⟨rfl, rfl⟩ := Prod.mk.inj (Option.some.inj h)
    exact .inl ⟨bytes, hsend, rfl, rfl⟩
  | true =>
    obtain rfl := (sendAll_sends hsend).2 rfl
    cases c <;> obtain ⟨rfl, rfl⟩ := Prod.mk.inj (Option.some.inj h) <;>
      exact .inr ⟨hsend, by simp, rfl⟩

/-- What it does to an unbuffered one. -/
theorem overflow_unbuffered (hu : s.unbuffered = true) (h : s.overflow c sends = some (s', r)) :
    (∃ ch, c = some ch ∧ r = .char ch ∧ s' = { s with sent := s.sent ++ [ch] }) ∨
      s' = s ∧ (r = .eof ∨ c = none ∧ r = .notEof) := by
  unfold overflow at h
  rw [if_pos hu] at h
  split at h
  · obtain ⟨rfl, rfl⟩ := Prod.mk.inj (Option.some.inj h)
    exact .inr ⟨rfl, .inr ⟨rfl, rfl⟩⟩
  · split at h
    · obtain ⟨rfl, rfl⟩ := Prod.mk.inj (Option.some.inj h)
      exact .inl ⟨_, rfl, rfl, rfl⟩
    · cases h
  · obtain ⟨rfl, rfl⟩ := Prod.mk.inj (Option.some.inj h)
    exact .inr ⟨rfl, .inl rfl⟩
  · cases h

/-- What `sgetc` does: it reads the get area, or refills it, or the receive fails. -/
theorem sgetc_cases (h : s.sgetc receive = some (s', c)) :
    (s.gptr < s.egptr ∧ s' = s ∧ c = s.cell s.gptr ∧ c ≠ none) ∨
      (∃ bytes, s.gptr = s.egptr ∧ 1 ≤ bytes.length ∧ bytes.length ≤ bufferSize - putbackMax ∧
        s' = s.receive bytes ∧ c = bytes.head?) ∨
      s' = s ∧ c = none := by
  unfold sgetc at h
  split at h
  · next hlt =>
    split at h
    · obtain ⟨ch, hc, he⟩ := Option.map_eq_some_iff.1 h
      obtain ⟨rfl, rfl⟩ := Prod.mk.inj he
      exact .inl ⟨hlt, rfl, hc.symm, by simp⟩
    · cases h
  · unfold underflow at h
    split at h
    · next heq =>
      split at h
      · obtain ⟨rfl, rfl⟩ := Prod.mk.inj (Option.some.inj h)
        exact .inr (.inr ⟨rfl, rfl⟩)
      · next bytes =>
        split at h
        · next hlen =>
          obtain ⟨ch, hc, he⟩ := Option.map_eq_some_iff.1 h
          obtain ⟨rfl, rfl⟩ := Prod.mk.inj he
          refine .inr (.inl ⟨bytes, heq, hlen.1, hlen.2, rfl, ?_⟩)
          rw [← hc]
          cases bytes with
          | nil => simp at hlen
          | cons b bytes => rfl
        · cases h
    · obtain ⟨rfl, rfl⟩ := Prod.mk.inj (Option.some.inj h)
      exact .inr (.inr ⟨rfl, rfl⟩)

theorem sgetc_output (h : s.sgetc receive = some (s', c)) :
    (s'.putArea = s.putArea ∧ s'.putSize = s.putSize ∧ s'.unbuffered = s.unbuffered) ∧
      s'.sent = s.sent ∧ s'.written = s.written ∧ s'.dropped = s.dropped := by
  obtain ⟨-, rfl, -⟩ | ⟨bytes, -, -, -, rfl, -⟩ | ⟨rfl, -⟩ := sgetc_cases h <;>
    exact ⟨⟨rfl, rfl, rfl⟩, rfl, rfl, rfl⟩

end Calls
end Streambuf

/-- The completions of the sends that a call waits for. -/
def Act.sends : Act α → List Send
  | .sputc _ sends => sends
  | .sync sends => sends
  | .close sends _ => sends
  | .destroy sends => sends
  | _ => []

/-- The call steps back in the get area. -/
def Act.ungets : Act α → Bool
  | .sungetc => true
  | .sputbackc _ => true
  | _ => false

/-- What `overflow` has accepted of its argument when it returns. -/
def IntType.accepted (r : IntType α) (c : Option α) : List α :=
  match r with
  | .eof => []
  | _ => c.toList

/-- Everything that a call can do. -/
inductive Does (s : Streambuf α) : Act α → Streambuf α → List (Event α) → Prop
  | stored (c) : s.putArea.length < s.putSize →
      Does s (.sputc c []) { s with putArea := s.putArea ++ [c], written := s.written ++ [c] } [.put c (.char c)]
  | overflowed {c sends s₁ r} : s.overflow (some c) sends = some (s₁, r) →
      Does s (.sputc c sends) { s₁ with written := s₁.written ++ r.accepted (some c) } [.put c r]
  | peeked {receive s₁ c} : s.sgetc receive = some (s₁, c) → Does s (.sgetc receive) s₁ [.peeked c]
  | bumped {receive s₁ c} : s.sgetc receive = some (s₁, some c) →
      Does s (.sbumpc receive) { s₁ with gptr := s₁.gptr + 1 } [.got (some c)]
  | ended {receive s₁} : s.sgetc receive = some (s₁, none) → Does s (.sbumpc receive) s₁ [.got none]
  | back {a c} : a.ungets = true → 0 < s.gptr → s.cell (s.gptr - 1) = some c →
      Does s a { s with gptr := s.gptr - 1 } [.ungot (some c)]
  | stayed {a} : a.ungets = true → Does s a s [.ungot none]
  | synced {sends s₁ r} : s.overflow none sends = some (s₁, r) → Does s (.sync sends) s₁ [.synced r]
  | unbuffered : s.putArea = [] → Does s .setbuf { s with unbuffered := true, putSize := 0 } []
  | buffered : Does s .setbuf s []
  | closed {sends s₁ r} (ok) : s.overflow none sends = some (s₁, r) →
      Does s (.close sends ok) (if ok then s₁.initBuffers else s₁) [.closed ok]
  | connected (ok) : Does s (.connect ok) s.initBuffers [.connected ok]
  | destroyed {sends s₁ r} : (if s.putArea = [] then some (s, .notEof) else s.overflow none sends) = some (s₁, r) →
      Does s (.destroy sends) { s₁ with putArea := [], destroyed := true, dropped := s₁.dropped ++ s₁.putArea } []

section Does
variable [DecidableEq α] {s s' : Streambuf α} {a : Act α} {e : List (Event α)}

theorem call_does (hs : s.call a = some (s', e)) : Does s a s' e := by
  cases a with
  | sputc c sends =>
    obtain ⟨⟨s₁, r⟩, hr, he⟩ := Option.map_eq_some_iff.1 hs
    obtain ⟨rfl, rfl⟩ := Prod.mk.inj he
    unfold Streambuf.sputc at hr
    split at hr
    · next hlt =>
      split at hr
      · next hnil =>
        obtain ⟨rfl, rfl⟩ := Prod.mk.inj (Option.some.inj hr)
        exact hnil ▸ .stored c hlt
      · cases hr
    · obtain ⟨⟨s₂, r₂⟩, ho, he⟩ := Option.map_eq_some_iff.1 hr
      have hd := Does.overflowed (s := s) ho
      cases r₂ with
      | eof =>
        obtain ⟨rfl, rfl⟩ := Prod.mk.inj he
        simpa [IntType.accepted] using hd
      | notEof | char =>
        obtain ⟨rfl, rfl⟩ := Prod.mk.inj he
        exact hd
  | sgetc receive =>
    obtain ⟨⟨s₁, c⟩, hr, he⟩ := Option.map_eq_some_iff.1 hs
    obtain ⟨rfl, rfl⟩ := Prod.mk.inj he
    exact .peeked hr
  | sbumpc receive =>
    obtain ⟨⟨s₁, c⟩, hr, he⟩ := Option.map_eq_some_iff.1 hs
    obtain ⟨rfl, rfl⟩ := Prod.mk.inj he
    obtain ⟨⟨s₂, c₂⟩, hg, he⟩ := Option.map_eq_some_iff.1 hr
    cases c₂ with
    | none =>
      obtain ⟨rfl, rfl⟩ := Prod.mk.inj he
      exact .ended hg
    | some c =>
      obtain ⟨rfl, rfl⟩ := Prod.mk.inj he
      exact .bumped hg
  | sungetc =>
    obtain ⟨⟨s₁, c⟩, hr, he⟩ := Option.map_eq_some_iff.1 hs
    obtain ⟨rfl, rfl⟩ := Prod.mk.inj he
    unfold Streambuf.sungetc at hr
    split at hr
    · next hpos =>
      obtain ⟨ch, hc, he⟩ := Option.map_eq_some_iff.1 hr
      obtain ⟨rfl, rfl⟩ := Prod.mk.inj he
      exact .back rfl hpos hc
    · obtain ⟨rfl, rfl⟩ := Prod.mk.inj (Option.some.inj hr)
      exact .stayed rfl
  | sputbackc c =>
    obtain ⟨⟨s₁, c⟩, hr, he⟩ := Option.map_eq_some_iff.1 hs
    obtain ⟨rfl, rfl⟩ := Prod.mk.inj he
    unfold Streambuf.sputbackc at hr
    split at hr
    · next hpos =>
      obtain ⟨rfl, rfl⟩ := Prod.mk.inj (Option.some.inj hr)
      exact .back rfl hpos.1 hpos.2
    · obtain ⟨rfl, rfl⟩ := Prod.mk.inj (Option.some.inj hr)
      exact .stayed rfl
  | sync sends =>
    obtain ⟨⟨s₁, r⟩, hr, he⟩ := Option.map_eq_some_iff.1 hs
    obtain ⟨rfl, rfl⟩ := Prod.mk.inj he
    exact .synced hr
  | setbuf =>
    obtain ⟨rfl, rfl⟩ := Prod.mk.inj (Option.some.inj hs)
    unfold Streambuf.setbuf
    split
    · next hnil => exact .unbuffered hnil
    · exact .buffered
  | close sends ok =>
    obtain ⟨s₁, hc, he⟩ := Option.map_eq_some_iff.1 hs
    obtain ⟨rfl, rfl⟩ := Prod.mk.inj he
    obtain ⟨⟨s₂, r⟩, hr, rfl⟩ := Option.map_eq_some_iff.1 hc
    exact .closed ok hr
  | connect ok =>
    obtain ⟨rfl, rfl⟩ := Prod.mk.inj (Option.some.inj hs)
    exact .connected ok
  | destroy sends =>
    obtain ⟨s₁, hd, he⟩ := Option.map_eq_some_iff.1 hs
    obtain ⟨rfl, rfl⟩ := Prod.mk.inj he
    obtain ⟨⟨s₂, r⟩, hr, rfl⟩ := Option.map_eq_some_iff.1 hd
    exact .destroyed hr

theorem step_does (hs : s.step a = some (s', e)) : Does s a s' e := by
  unfold Streambuf.step at hs
  split at hs
  · cases hs
  · exact call_does hs

end Does

/-! ## What was sent -/

/-- `written` falls into areas. Each was sent whole, or thrown away; before that, overflows that failed have handed
over the pieces, which are prefixes of it and meet `P`. -/
inductive Account (P : List α → Prop) : (written sent dropped : List α) → Prop
  | nil : Account P [] [] []
  | flush {w s d} (area : List α) (pieces : List (List α)) : Account P w s d → (∀ b ∈ pieces, b <+: area ∧ P b) →
      Account P (w ++ area) (s ++ pieces.flatten ++ area) d
  | drop {w s d} (area : List α) (pieces : List (List α)) : Account P w s d → (∀ b ∈ pieces, b <+: area ∧ P b) →
      Account P (w ++ area) (s ++ pieces.flatten) (d ++ area)

/-- The pieces that failing overflows have handed over since the put area was empty are on top of the account. -/
structure Output (P : List α → Prop) (s : Streambuf α) : Prop where
  bound : s.putArea.length ≤ s.putSize
  size : s.putSize = if s.unbuffered then 0 else bufferSize
  account : ∃ w st pieces, Account P w st s.dropped ∧ (∀ b ∈ pieces, b <+: s.putArea ∧ P b) ∧
    s.written = w ++ s.putArea ∧ s.sent = st ++ List.flatten pieces

/-- The bytes of a failing overflow meet `P`. -/
def Fails (P : List α → Prop) (s : Streambuf α) (sends : List Send) : Prop :=
  ∀ bytes, sendAll s.putArea sends = some (bytes, false) → P bytes

section Output
variable {P : List α → Prop} {s s' : Streambuf α} {sends : List Send} {c : Option α} {r : IntType α} {a : Act α}
  {e : List (Event α)}

theorem Output.empty (h : Output P s) (hu : s.unbuffered = true) : s.putArea = [] := by
  have hb := h.bound
  rw [h.size, hu, if_pos rfl] at hb
  exact List.length_eq_zero_iff.1 (Nat.le_zero.1 hb)

/-- `sputc` finds room in the put area. -/
theorem Output.store (h : Output P s) (ch : α) (hlt : s.putArea.length < s.putSize) :
    Output P { s with putArea := s.putArea ++ [ch], written := s.written ++ [ch] } := by
  obtain ⟨w, st, pieces, hacc, hp, hw, hs⟩ := h.account
  refine ⟨by simpa using Nat.succ_le_of_lt hlt, h.size, w, st, pieces, hacc, fun b hb => ?_, ?_, hs⟩
  · exact ⟨(hp b hb).1.trans (List.prefix_append _ _), (hp b hb).2⟩
  · show s.written ++ [ch] = _
    rw [hw, List.append_assoc]

/-- An overflow fails: what it has handed over is one more piece. -/
theorem Output.failed (h : Output P s) {bytes : List α} (hb : bytes <+: s.putArea) (hP : P bytes) :
    Output P { s with sent := s.sent ++ bytes } := by
  obtain ⟨w, st, pieces, hacc, hp, hw, hs⟩ := h.account
  refine ⟨h.bound, h.size, w, st, pieces ++ [bytes], hacc, fun b hb' => ?_, hw, ?_⟩
  · rcases List.mem_append.1 hb' with hb' | hb'
    · exact hp b hb'
    · obtain rfl := List.mem_singleton.1 hb'
      exact ⟨hb, hP⟩
  · show s.sent ++ bytes = _
    rw [hs, List.flatten_append, List.flatten_singleton, List.append_assoc]

/-- An overflow sends the whole area, and `c` is the first character of the next one. -/
theorem Output.flushed (h : Output P s) (hu : s.unbuffered = false) (c : Option α) :
    Output P { s with sent := s.sent ++ s.putArea, putSize := bufferSize, putArea := c.toList,
                      written := s.written ++ c.toList } := by
  obtain ⟨w, st, pieces, hacc, hp, hw, hs⟩ := h.account
  refine ⟨?_, ?_, _, _, [], hacc.flush s.putArea pieces hp, by simp, ?_, ?_⟩
  · cases c <;> simp [bufferSize]
  · show bufferSize = _
    rw [hu]
    rfl
  · show s.written ++ _ = w ++ s.putArea ++ _
    rw [hw]
  · show s.sent ++ s.putArea = st ++ pieces.flatten ++ s.putArea ++ _
    rw [hs, List.flatten_nil, List.append_nil]

/-- An unbuffered streambuf has sent one character. -/
theorem Output.single (h : Output P s) (hu : s.unbuffered = true) (ch : α) :
    Output P { s with sent := s.sent ++ [ch], written := s.written ++ [ch] } := by
  have he := h.empty hu
  obtain ⟨w, st, pieces, hacc, hp, hw, hs⟩ := h.account
  have hacc' := (hacc.flush [] pieces (he ▸ hp)).flush [ch] [] (by simp)
  refine ⟨h.bound, h.size, _, _, [], hacc', by simp, ?_, ?_⟩
  · show s.written ++ [ch] = w ++ [] ++ [ch] ++ s.putArea
    rw [hw, he, List.append_nil, List.append_nil]
  · show s.sent ++ [ch] = _
    rw [hs]
    simp

/-- The put area is thrown away. -/
theorem Output.drop (h : Output P s) {size : Nat} (hsize : size = if s.unbuffered then 0 else bufferSize) :
    Output P { s with putArea := [], putSize := size, dropped := s.dropped ++ s.putArea } := by
  obtain ⟨w, st, pieces, hacc, hp, hw, hs⟩ := h.account
  refine ⟨Nat.zero_le _, hsize, _, _, [], hacc.drop s.putArea pieces hp, by simp, ?_, ?_⟩
  · show s.written = _
    rw [hw, List.append_nil]
  · show s.sent = _
    rw [hs, List.flatten_nil, List.append_nil]

theorem Output.overflow (h : Output P s) (hf : Fails P s sends) (ho : s.overflow c sends = some (s', r)) :
    s'.unbuffered = s.unbuffered ∧ s'.dropped = s.dropped ∧
      (r = .eof ∧ s'.written = s.written ∧ Output P s' ∨
        r ≠ .eof ∧ s'.written = s.written ∧ Output P { s' with written := s'.written ++ c.toList }) := by
  by_cases hu : s.unbuffered = true
  · obtain ⟨ch, rfl, rfl, rfl⟩ | ⟨rfl, rfl | ⟨rfl, rfl⟩⟩ := Streambuf.overflow_unbuffered hu ho
    · exact ⟨rfl, rfl, .inr ⟨by simp, rfl, h.single hu ch⟩⟩
    · exact ⟨rfl, rfl, .inl ⟨rfl, rfl, h⟩⟩
    · exact ⟨rfl, rfl, .inr ⟨by simp, rfl, by simpa using h⟩⟩
  · rw [Bool.not_eq_true] at hu
    obtain ⟨bytes, hsend, rfl, rfl⟩ | ⟨-, hr, rfl⟩ := Streambuf.overflow_buffered hu ho
    · exact ⟨rfl, rfl, .inl ⟨rfl, rfl, h.failed (sendAll_sends hsend).1 (hf bytes hsend)⟩⟩
    · exact ⟨rfl, rfl, .inr ⟨hr, rfl, h.flushed hu c⟩⟩

/-- `sync` accepts no character. -/
theorem Output.sync (h : Output P s) (hf : Fails P s sends) (ho : s.sync sends = some (s', r)) : Output P s' := by
  obtain ⟨-, -, ⟨-, -, h'⟩ | ⟨-, -, h'⟩⟩ := h.overflow hf ho
  · exact h'
  · simpa using h'

theorem Output.initBuffers (h : Output P s) : Output P s.initBuffers := by
  obtain ⟨hb, hs, hacc⟩ := h.drop (rfl : (if s.unbuffered then 0 else bufferSize) = _)
  exact ⟨hb, hs, hacc⟩

/-- A flush whose sends all succeed leaves nothing in the put area. -/
theorem Output.sync_empties {sends : List Send} {r : IntType α} (h : Output P s) (hf : .failed ∉ sends)
    (ho : s.sync sends = some (s', r)) : s'.putArea = [] := by
  by_cases hu : s.unbuffered = true
  · obtain ⟨ch, hc, -⟩ | ⟨rfl, -⟩ := Streambuf.overflow_unbuffered hu ho
    · cases hc
    · exact h.empty hu
  · obtain ⟨bytes, hsend, -⟩ | ⟨-, -, rfl⟩ := Streambuf.overflow_buffered (Bool.eq_false_iff.2 hu) ho
    · cases sendAll_ok hf hsend
    · rfl

/-- The reading calls leave the put area alone. -/
theorem Output.same (h : Output P s) (hput : s'.putArea = s.putArea ∧ s'.putSize = s.putSize ∧
    s'.unbuffered = s.unbuffered) (hrec : s'.sent = s.sent ∧ s'.written = s.written ∧ s'.dropped = s.dropped) :
    Output P s' := by
  obtain ⟨hb, hs, hacc⟩ := h
  refine ⟨?_, ?_, ?_⟩
  · rw [hput.1, hput.2.1]
    exact hb
  · rw [hput.2.1, hput.2.2]
    exact hs
  · rw [hput.1, hrec.1, hrec.2.1, hrec.2.2]
    exact hacc

theorem overflow_dropped (ho : s.overflow c sends = some (s', r)) : s'.dropped = s.dropped := by
  by_cases hu : s.unbuffered = true
  · obtain ⟨ch, -, -, rfl⟩ | ⟨rfl, -⟩ := Streambuf.overflow_unbuffered hu ho <;> rfl
  · obtain ⟨bytes, -, -, rfl⟩ | ⟨-, -, rfl⟩ := Streambuf.overflow_buffered (Bool.eq_false_iff.2 hu) ho <;> rfl

theorem overflow_sent (ho : s.overflow c sends = some (s', r)) : s.sent <+: s'.sent := by
  by_cases hu : s.unbuffered = true
  · obtain ⟨ch, -, -, rfl⟩ | ⟨rfl, -⟩ := Streambuf.overflow_unbuffered hu ho
    · exact List.prefix_append _ _
    · exact List.prefix_rfl
  · obtain ⟨bytes, -, -, rfl⟩ | ⟨-, -, rfl⟩ := Streambuf.overflow_buffered (Bool.eq_false_iff.2 hu) ho <;>
      exact List.prefix_append _ _

/-- What was sent stays sent. -/
theorem Does.sent (hd : Does s a s' e) : s.sent <+: s'.sent := by
  cases hd with
  | stored => exact List.prefix_rfl
  | overflowed ho =>
    have hsent := overflow_sent ho
    exact hsent
  | peeked hg | ended hg | bumped hg =>
    have hsent := (Streambuf.sgetc_output hg).2.1
    exact hsent ▸ List.prefix_rfl
  | synced ho => exact overflow_sent ho
  | closed ok ho =>
    have hsent := overflow_sent ho
    cases ok <;> exact hsent
  | @destroyed _ s₁ _ ho =>
    have hsent : s.sent <+: s₁.sent := by
      split at ho
      · obtain ⟨rfl, -⟩ := Prod.mk.inj (Option.some.inj ho)
        exact List.prefix_rfl
      · exact overflow_sent ho
    exact hsent
  | _ => exact List.prefix_rfl

theorem Output.does (h : Output P s) (hf : Fails P s a.sends) (hd : Does s a s' e) : Output P s' := by
  cases hd with
  | stored c hlt => exact h.store c hlt
  | overflowed ho =>
    obtain ⟨-, -, ⟨rfl, -, h'⟩ | ⟨hr, -, h'⟩⟩ := h.overflow hf ho
    · simpa [IntType.accepted] using h'
    · unfold IntType.accepted
      split
      · exact absurd rfl hr
      · exact h'
  | peeked hg => exact h.same (Streambuf.sgetc_output hg).1 (Streambuf.sgetc_output hg).2
  | bumped hg => exact h.same (Streambuf.sgetc_output hg).1 (Streambuf.sgetc_output hg).2
  | ended hg => exact h.same (Streambuf.sgetc_output hg).1 (Streambuf.sgetc_output hg).2
  | back => exact h.same ⟨rfl, rfl, rfl⟩ ⟨rfl, rfl, rfl⟩
  | stayed => exact h
  | synced ho => exact h.sync hf ho
  | unbuffered hnil => exact ⟨by simp [hnil], rfl, h.account⟩
  | buffered => exact h
  | closed ok ho =>
    cases ok with
    | true => exact (h.sync hf ho).initBuffers
    | false => exact h.sync hf ho
  | connected ok => exact h.initBuffers
  | @destroyed _ s₁ r ho =>
    have h₁ : Output P s₁ := by
      split at ho
      · obtain ⟨rfl, -⟩ := Prod.mk.inj (Option.some.inj ho)
        exact h
      · exact h.sync hf ho
    obtain ⟨hb, hs, hacc⟩ := h₁.drop h₁.size
    exact ⟨hb, hs, hacc⟩

theorem output_new (cells : Nat → α) : Output P (Streambuf.new cells) :=
  ⟨Nat.zero_le _, rfl, [], [], [], .nil, by simp, rfl, rfl⟩

theorem Account.sent_eq {w d st : List α} (h : Account (· = []) w st d) (hd : d = []) : st = w := by
  induction h with
  | nil => rfl
  | @flush w st d area pieces _ hp ih =>
    have hnil : pieces.flatten = [] := List.flatten_eq_nil_iff.2 fun b hb => (hp b hb).2
    rw [ih hd, hnil, List.append_nil]
  | @drop w st d area pieces _ hp ih =>
    obtain ⟨-, rfl⟩ := List.append_eq_nil_iff.1 hd
    have hnil : pieces.flatten = [] := List.flatten_eq_nil_iff.2 fun b hb => (hp b hb).2
    rw [ih (List.append_eq_nil_iff.1 hd).1, hnil]

/-- No send fails in this call after part of the put area was sent, and the call throws nothing away. -/
structure Unbroken (s : Streambuf α) (a : Act α) : Prop where
  whole : Fails (· = []) s a.sends
  flushes : ∀ sends, (a = .destroy sends ∨ ∃ ok, a = .close sends ok) → .failed ∉ sends
  connects : ∀ ok, a = .connect ok → s.putArea = []

/-- An unbroken call throws nothing away. -/
theorem Output.dropped_does (h : Output P s) (hok : Unbroken s a) (hd : Does s a s' e) : s'.dropped = s.dropped := by
  cases hd with
  | stored => rfl
  | overflowed ho =>
    have hd := overflow_dropped ho
    exact hd
  | peeked hg => exact (Streambuf.sgetc_output hg).2.2.2
  | bumped hg => exact (Streambuf.sgetc_output hg).2.2.2
  | ended hg => exact (Streambuf.sgetc_output hg).2.2.2
  | back => rfl
  | stayed => rfl
  | synced ho => exact overflow_dropped ho
  | unbuffered => rfl
  | buffered => rfl
  | @closed _ s₁ _ ok ho =>
    cases ok with
    | true =>
      have hnil := h.sync_empties (hok.flushes _ (.inr ⟨true, rfl⟩)) ho
      exact (congrArg (s₁.dropped ++ ·) hnil).trans ((List.append_nil _).trans (overflow_dropped ho))
    | false => exact overflow_dropped ho
  | connected ok => exact (congrArg (s.dropped ++ ·) (hok.connects ok rfl)).trans (List.append_nil _)
  | @destroyed _ s₁ _ ho =>
    have h₁ : s₁.putArea = [] ∧ s₁.dropped = s.dropped := by
      split at ho
      · next hnil =>
        obtain ⟨rfl, -⟩ := Prod.mk.inj (Option.some.inj ho)
        exact ⟨hnil, rfl⟩
      · exact ⟨h.sync_empties (hok.flushes _ (.inl rfl)) ho, overflow_dropped ho⟩
    exact (congrArg (s₁.dropped ++ ·) h₁.1).trans ((List.append_nil _).trans h₁.2)

end Output

section Runs
variable [DecidableEq α] {P : List α → Prop} {cells : Nat → α} {s : Streambuf α} {es : List (Event α)}

theorem output_run (h : Run Streambuf.step (fun _ s a _ => Fails P s a.sends) (Streambuf.new cells) s es) :
    Output P s := by
  refine h.inv (fun _ s => Output P s) (output_new cells) (fun es s a s' e hI hok hs => ?_)
  exact hI.does hok (step_does hs)

theorem unbroken_run (h : Run Streambuf.step (fun _ s a _ => Unbroken s a) (Streambuf.new cells) s es) :
    Output (· = []) s ∧ s.dropped = [] := by
  refine h.inv (fun _ s => Output (· = []) s ∧ s.dropped = []) ⟨output_new cells, rfl⟩ (fun es s a s' e hI hok hs => ?_)
  exact ⟨hI.1.does hok.whole (step_does hs), (hI.1.dropped_does hok (step_does hs)).trans hI.2⟩

/-- The check of `Unbroken`. -/
def unbrokenCheck (s : Streambuf α) (a : Act α) : Bool :=
  (match sendAll s.putArea a.sends with
    | some (bytes, false) => bytes.isEmpty
    | _ => true) &&
  match a with
  | .destroy sends => !sends.contains .failed
  | .close sends _ => !sends.contains .failed
  | .connect _ => s.putArea.isEmpty
  | _ => true

omit [DecidableEq α] in
theorem unbrokenCheck_sound {a : Act α} (h : unbrokenCheck s a = true) : Unbroken s a := by
  obtain ⟨hwhole, hrest⟩ := (Bool.and_eq_true_iff ..).1 h
  refine ⟨fun bytes hb => ?_, fun sends ha => ?_, fun ok ha => ?_⟩
  · rw [hb] at hwhole
    exact List.isEmpty_iff.1 hwhole
  · rcases ha with rfl | ⟨ok, rfl⟩ <;> simpa using hrest
  · subst ha
    exact List.isEmpty_iff.1 hrest

end Runs

/-! ## What was received -/

/-- The reader's place in the stream after an event. -/
def place : Nat → Event α → Nat
  | d, .got (some _) => d + 1
  | d, .ungot (some _) => d - 1
  | d, _ => d

/-- The character that a reader gets at the place `d` is the one of the stream. -/
def Agrees (stream : List α) (d : Nat) : Event α → Prop
  | .got (some c) => stream[d]? = some c
  | .peeked (some c) => stream[d]? = some c
  | .ungot (some c) => 1 ≤ d ∧ stream[d - 1]? = some c
  | _ => True

/-- A reader that starts at the place `d` gets what the stream holds there. -/
def Follows (stream : List α) : Nat → List (Event α) → Prop
  | _, [] => True
  | d, e :: es => Agrees stream d e ∧ Follows stream (place d e) es

/-- Between the putback area and `egptr` are the last bytes that were received; no receive has written to the putback
area itself. -/
structure Input (cells : Nat → α) (s : Streambuf α) : Prop where
  le : s.gptr ≤ s.egptr
  min : putbackMax ≤ s.egptr
  max : s.egptr ≤ bufferSize
  putback : ∀ i, i < putbackMax → s.getBuffer i = cells i
  count : s.egptr ≤ s.received.length + putbackMax
  area : ∀ i, putbackMax ≤ i → i < s.egptr → s.received[s.received.length + i - s.egptr]? = some (s.getBuffer i)

/-- The place in the stream that `gptr` stands at, unless it is in the putback area. -/
def Streambuf.place (s : Streambuf α) : Nat := s.received.length + s.gptr - s.egptr

theorem follows_append {stream : List α} {d : Nat} {es es' : List (Event α)} :
    Follows stream d (es ++ es') ↔ Follows stream d es ∧ Follows stream (es.foldl place d) es' := by
  induction es generalizing d with
  | nil => simp [Follows]
  | cons e es ih => simp only [List.cons_append, Follows, ih, List.foldl_cons, and_assoc]

theorem getElem?_of_prefix {l l' : List α} {i : Nat} {x : α} (hpre : l <+: l') (h : l[i]? = some x) :
    l'[i]? = some x := by
  obtain ⟨hlt, rfl⟩ := List.getElem?_eq_some_iff.1 h
  exact List.prefix_iff_getElem?.1 hpre i hlt

theorem Agrees.mono {stream stream' : List α} {d : Nat} {e : Event α} (hpre : stream <+: stream')
    (h : Agrees stream d e) : Agrees stream' d e := by
  cases e with
  | got c | peeked c =>
    cases c with
    | none => trivial
    | some c => exact getElem?_of_prefix hpre h
  | ungot c =>
    cases c with
    | none => trivial
    | some c => exact ⟨h.1, getElem?_of_prefix hpre h.2⟩
  | _ => trivial

theorem Follows.mono {stream stream' : List α} {d : Nat} {es : List (Event α)} (hpre : stream <+: stream')
    (h : Follows stream d es) : Follows stream' d es := by
  induction es generalizing d with
  | nil => trivial
  | cons e es ih => exact ⟨h.1.mono hpre, ih h.2⟩

section Input
variable {cells : Nat → α} {s s' : Streambuf α} {receive : Option (List α)} {c : Option α} {a : Act α}
  {e : List (Event α)}

theorem input_new (cells : Nat → α) : Input cells (Streambuf.new cells) :=
  ⟨Nat.le_refl _, Nat.le_refl _, by simp [Streambuf.new, putbackMax, bufferSize], fun _ _ => rfl, by simp [Streambuf.new],
    fun i h₁ h₂ => absurd h₂ (Nat.not_lt.2 h₁)⟩

/-- The pointers and the received bytes are the same. -/
theorem Input.same (h : Input cells s)
    (hs : s'.getBuffer = s.getBuffer ∧ s'.gptr = s.gptr ∧ s'.egptr = s.egptr ∧ s'.received = s.received) :
    Input cells s' := by
  obtain ⟨hb, hg, he, hr⟩ := hs
  refine ⟨?_, ?_, ?_, ?_, ?_, ?_⟩
  · rw [hg, he]; exact h.le
  · rw [he]; exact h.min
  · rw [he]; exact h.max
  · rw [hb]; exact h.putback
  · rw [he, hr]; exact h.count
  · rw [hb, he, hr]; exact h.area

theorem Input.initBuffers (h : Input cells s) : Input cells s.initBuffers :=
  ⟨Nat.le_refl _, Nat.le_refl _, by simp [Streambuf.initBuffers, putbackMax, bufferSize], h.putback,
    by simp [Streambuf.initBuffers], fun i h₁ h₂ => absurd h₂ (Nat.not_lt.2 h₁)⟩

/-- The pointer of the reader moves inside of the get area. -/
theorem Input.move (h : Input cells s) {g : Nat} (hg : g ≤ s.egptr) : Input cells { s with gptr := g } :=
  ⟨hg, h.min, h.max, h.putback, h.count, h.area⟩

/-- A receive fills the get area behind the putback area. -/
theorem Input.received (h : Input cells s) {bytes : List α} (hlen : bytes.length ≤ bufferSize - putbackMax) :
    Input cells (s.receive bytes) := by
  refine ⟨Nat.le_add_right _ _, Nat.le_add_right _ _, ?_, fun i hi => ?_, ?_, fun i h₁ h₂ => ?_⟩
  · show putbackMax + bytes.length ≤ bufferSize
    simp only [putbackMax, bufferSize] at hlen ⊢
    omega
  · show (if i < putbackMax then s.getBuffer i else _) = cells i
    rw [if_pos hi]
    exact h.putback i hi
  · show putbackMax + bytes.length ≤ (s.received ++ bytes).length + putbackMax
    rw [List.length_append]
    omega
  · have hi : i - putbackMax < bytes.length := by
      have : i < putbackMax + bytes.length := h₂
      omega
    have hidx : (s.received ++ bytes).length + i - (putbackMax + bytes.length) = s.received.length + (i - putbackMax) := by
      rw [List.length_append]
      omega
    show (s.received ++ bytes)[(s.received ++ bytes).length + i - (putbackMax + bytes.length)]? =
      some (if i < putbackMax then s.getBuffer i else (bytes[i - putbackMax]?).getD (s.getBuffer i))
    rw [hidx, List.getElem?_append_right (Nat.le_add_right _ _), Nat.add_sub_cancel_left, if_neg (Nat.not_lt.2 h₁),
      List.getElem?_eq_getElem hi, Option.getD_some]

/-- The cell at `i` is a byte of the stream. -/
theorem Input.cell (h : Input cells s) {i : Nat} {ch : α} (hmin : putbackMax ≤ i) (hlt : i < s.egptr)
    (hc : s.cell i = some ch) : s.received[s.received.length + i - s.egptr]? = some ch := by
  unfold Streambuf.cell at hc
  split at hc
  · rw [h.area i hmin hlt]
    exact hc
  · cases hc

/-- What a refill leaves of the invariant. -/
theorem Input.sgetc (h : Input cells s) (hg : s.sgetc receive = some (s', c)) : Input cells s' := by
  obtain ⟨-, rfl, -⟩ | ⟨bytes, -, -, hlen, rfl, -⟩ | ⟨rfl, -⟩ := Streambuf.sgetc_cases hg
  · exact h
  · exact h.received hlen
  · exact h

/-- `sgetc` gives the byte at the place of the reader, which stays there. -/
theorem Input.sgetc_place (h : Input cells s) (hmin : putbackMax ≤ s.gptr) (hg : s.sgetc receive = some (s', c)) :
    s.received <+: s'.received ∧ s'.place = s.place ∧ putbackMax ≤ s'.gptr ∧
      ∀ ch, c = some ch → s'.gptr < s'.egptr ∧ s'.received[s'.place]? = some ch := by
  obtain ⟨hlt, rfl, rfl, hc⟩ | ⟨bytes, heq, hone, hlen, rfl, rfl⟩ | ⟨rfl, rfl⟩ := Streambuf.sgetc_cases hg
  · exact ⟨List.prefix_rfl, rfl, hmin, fun ch hch => ⟨hlt, h.cell hmin hlt hch⟩⟩
  · have hplace : (s.receive bytes).place = s.received.length := by
      show (s.received ++ bytes).length + putbackMax - (putbackMax + bytes.length) = _
      rw [List.length_append]
      omega
    refine ⟨List.prefix_append _ _, ?_, Nat.le_refl _, fun ch hch => ⟨?_, ?_⟩⟩
    · rw [hplace, Streambuf.place, heq, Nat.add_sub_cancel]
    · show putbackMax < putbackMax + bytes.length
      omega
    · rw [hplace]
      show (s.received ++ bytes)[s.received.length]? = some ch
      rw [List.getElem?_append_right (Nat.le_refl _), Nat.sub_self, ← hch]
      exact (List.head?_eq_getElem? ..).symm
  · exact ⟨List.prefix_rfl, rfl, hmin, fun ch hch => by cases hch⟩

/-- The call neither closes the connection nor makes another one. -/
def Act.stays : Act α → Bool
  | .close _ _ => false
  | .connect _ => false
  | .destroy _ => false
  | _ => true

/-- The call stays on the connection, and it steps back only over what it has read of the last receive. -/
structure Within (s : Streambuf α) (a : Act α) : Prop where
  stays : a.stays = true
  unget : a.ungets = true → putbackMax < s.gptr

theorem overflow_input {sends : List Send} {r : IntType α} (ho : s.overflow c sends = some (s', r)) :
    s'.getBuffer = s.getBuffer ∧ s'.gptr = s.gptr ∧ s'.egptr = s.egptr ∧ s'.received = s.received := by
  by_cases hu : s.unbuffered = true
  · obtain ⟨ch, -, -, rfl⟩ | ⟨rfl, -⟩ := Streambuf.overflow_unbuffered hu ho <;> exact ⟨rfl, rfl, rfl, rfl⟩
  · obtain ⟨bytes, -, -, rfl⟩ | ⟨-, -, rfl⟩ := Streambuf.overflow_buffered (Bool.eq_false_iff.2 hu) ho <;>
      exact ⟨rfl, rfl, rfl, rfl⟩

theorem Input.does (h : Input cells s) (hd : Does s a s' e) : Input cells s' := by
  cases hd with
  | stored => exact h.same ⟨rfl, rfl, rfl, rfl⟩
  | overflowed ho =>
    have hsame := overflow_input ho
    exact h.same hsame
  | peeked hg => exact h.sgetc hg
  | bumped hg =>
    refine (h.sgetc hg).move ?_
    obtain ⟨hlt, rfl, -⟩ | ⟨bytes, -, hone, -, rfl, -⟩ | ⟨-, hnone⟩ := Streambuf.sgetc_cases hg
    · exact hlt
    · show putbackMax + 1 ≤ putbackMax + bytes.length
      omega
    · cases hnone
  | ended hg => exact h.sgetc hg
  | back => exact h.move (Nat.le_trans (Nat.sub_le _ _) h.le)
  | stayed => exact h
  | synced ho => exact h.same (overflow_input ho)
  | unbuffered => exact h.same ⟨rfl, rfl, rfl, rfl⟩
  | buffered => exact h
  | closed ok ho =>
    cases ok with
    | true => exact (h.same (overflow_input ho)).initBuffers
    | false => exact h.same (overflow_input ho)
  | connected => exact h.initBuffers
  | @destroyed _ s₁ _ ho =>
    have h₁ : Input cells s₁ := by
      split at ho
      · obtain ⟨rfl, -⟩ := Prod.mk.inj (Option.some.inj ho)
        exact h
      · exact h.same (overflow_input ho)
    exact h₁.same ⟨rfl, rfl, rfl, rfl⟩

/-- A call within the get area agrees with the stream at the place of the reader. -/
theorem Input.follows (h : Input cells s) (hmin : putbackMax ≤ s.gptr) (hok : Within s a) (hd : Does s a s' e) :
    s.received <+: s'.received ∧ putbackMax ≤ s'.gptr ∧ s'.place = e.foldl place s.place ∧
      Follows s'.received s.place e := by
  have hwrite : ∀ {c : Option α} {sends r}, s.overflow c sends = some (s', r) →
      s.received <+: s'.received ∧ putbackMax ≤ s'.gptr ∧ s'.place = s.place := fun ho => by
    obtain ⟨-, hg, he, hr⟩ := overflow_input ho
    exact ⟨hr ▸ List.prefix_rfl, hg ▸ hmin, by rw [Streambuf.place, hr, hg, he]; rfl⟩
  cases hd with
  | stored => exact ⟨List.prefix_rfl, hmin, rfl, trivial, trivial⟩
  | overflowed ho =>
    obtain ⟨-, hg, he, hr⟩ := overflow_input ho
    refine ⟨hr ▸ List.prefix_rfl, hg ▸ hmin, ?_, trivial, trivial⟩
    show _ + _ - _ = _ + _ - _
    rw [hr, hg, he]
  | peeked hg =>
    obtain ⟨hpre, hplace, hmin', hc⟩ := h.sgetc_place hmin hg
    refine ⟨hpre, hmin', ?_, ?_, trivial⟩
    · cases ‹Option α› <;> exact hplace
    · cases ‹Option α› with
      | none => trivial
      | some ch => exact hplace ▸ (hc ch rfl).2
  | @bumped _ s₁ ch hg =>
    obtain ⟨hpre, hplace, hmin', hc⟩ := h.sgetc_place hmin hg
    obtain ⟨hlt, hat⟩ := hc ch rfl
    have hcount := (h.sgetc hg).count
    refine ⟨hpre, Nat.le_succ_of_le hmin', ?_, hplace ▸ hat, trivial⟩
    show s₁.received.length + (s₁.gptr + 1) - s₁.egptr = s.place + 1
    rw [← hplace, Streambuf.place]
    omega
  | ended hg =>
    obtain ⟨hpre, hplace, hmin', -⟩ := h.sgetc_place hmin hg
    exact ⟨hpre, hmin', hplace, trivial, trivial⟩
  | @back _ ch ha hpos hc =>
    have hgt := hok.unget ha
    have hcount := h.count
    have hle := h.le
    have hone : 1 ≤ s.place := by
      rw [Streambuf.place]
      omega
    have hplace : s.received.length + (s.gptr - 1) - s.egptr = s.place - 1 := by
      rw [Streambuf.place]
      omega
    refine ⟨List.prefix_rfl, ?_, hplace, ⟨hone, ?_⟩, trivial⟩
    · show putbackMax ≤ s.gptr - 1
      omega
    · rw [← hplace]
      exact h.cell (by omega) (by omega) hc
  | stayed => exact ⟨List.prefix_rfl, hmin, rfl, trivial, trivial⟩
  | synced ho =>
    obtain ⟨hpre, hmin', hplace⟩ := hwrite ho
    exact ⟨hpre, hmin', hplace, trivial, trivial⟩
  | unbuffered => exact ⟨List.prefix_rfl, hmin, rfl, trivial⟩
  | buffered => exact ⟨List.prefix_rfl, hmin, rfl, trivial⟩
  | closed => cases hok.stays
  | connected => cases hok.stays
  | destroyed => cases hok.stays

end Input

section InputRuns
variable [DecidableEq α] {cells : Nat → α} {s s' : Streambuf α} {es : List (Event α)}

theorem input_run (h : Run Streambuf.step (fun _ _ _ _ => True) (Streambuf.new cells) s es) : Input cells s := by
  refine h.inv (fun _ s => Input cells s) (input_new cells) (fun es s a s' e hI _ hs => ?_)
  exact hI.does (step_does hs)

/-- The check of `Within`. -/
def withinCheck (s : Streambuf α) (a : Act α) : Bool := a.stays && (!a.ungets || decide (putbackMax < s.gptr))

omit [DecidableEq α] in
theorem withinCheck_sound {a : Act α} (h : withinCheck s a = true) : Within s a := by
  obtain ⟨hstays, hunget⟩ := (Bool.and_eq_true_iff ..).1 h
  refine ⟨hstays, fun ha => ?_⟩
  rw [ha] at hunget
  simpa using hunget

/-- A reader that steps back further gets what `get_buffer_` held when it was constructed: the putback area, which
`setg` hands out, is never filled. -/
theorem putback_area_stale (h : Run Streambuf.step (fun _ _ _ _ => True) (Streambuf.new cells) s es) {a : Act α} {c : α}
    (hs : s.step a = some (s', [.ungot (some c)])) (hg : s.gptr ≤ putbackMax) : c = cells (s.gptr - 1) := by
  cases step_does hs with
  | back _ hpos hc =>
    unfold Streambuf.cell at hc
    split at hc
    · rw [← (input_run h).putback (s.gptr - 1) (by omega)]
      exact (Option.some.inj hc).symm
    · cases hc

/-- A byte given back behind a receive is none of the stream. -/
theorem putback_area_stale_seven : ∃ (s s' : Streambuf Nat) (es : List (Event Nat)) (c : Nat),
    Run Streambuf.step (fun _ _ _ _ => True) (Streambuf.new fun i => 100 + i) s es ∧
      s.step .sungetc = some (s', [.ungot (some c)]) ∧ s.received = [1] ∧ c = 100 + (s.gptr - 1) := by
  obtain ⟨s, es, h, hs⟩ := run_of_check Streambuf.step (fun _ _ _ _ => True) (fun _ _ _ _ => true)
    (Streambuf.new fun i => 100 + i)
    (fun s _ => decide (s.received = [1] ∧ s.gptr = 8 ∧ (s.step .sungetc).map Prod.snd = some [.ungot (some 107)]))
    [.sgetc (some [1])] (fun _ _ _ _ _ => trivial) (by decide)
  obtain ⟨hrec, hg, hun⟩ := of_decide_eq_true hs
  obtain ⟨⟨s', e⟩, hs', rfl⟩ := Option.map_eq_some_iff.1 hun
  exact ⟨s, s', es, 107, h, hs', hrec, putback_area_stale h hs' (by rw [hg]; decide)⟩

end InputRuns

/-! ## Two ends of a connection -/

/-- What `tx` sends is what `rx` receives. -/
structure Connection (α : Type) where
  tx : Streambuf α
  rx : Streambuf α

/-- A step of either end. -/
inductive End (β : Type) where
  | tx (x : β)
  | rx (x : β)
  deriving DecidableEq, Repr

def End.tx? {β : Type} : End β → Option β
  | .tx x => some x
  | .rx _ => none

def End.rx? {β : Type} : End β → Option β
  | .tx _ => none
  | .rx x => some x

theorem filterMap_tx (eb : List (Event α)) : (eb.map End.tx).filterMap End.tx? = eb ∧
    (eb.map End.tx).filterMap End.rx? = [] := by
  simp [List.filterMap_map, Function.comp_def, End.tx?, End.rx?]

theorem filterMap_rx (eb : List (Event α)) : (eb.map End.rx).filterMap End.rx? = eb ∧
    (eb.map End.rx).filterMap End.tx? = [] := by
  simp [List.filterMap_map, Function.comp_def, End.tx?, End.rx?]

/-- One call on either end. The bytes that `rx` has received are the first ones that `tx` has sent. -/
def Connection.step [DecidableEq α] (c : Connection α) : End (Act α) → Option (Connection α × List (End (Event α)))
  | .tx a => (c.tx.step a).map fun r => ({ c with tx := r.1 }, r.2.map .tx)
  | .rx a =>
    match c.rx.step a with
    | some (s, e) => if s.received <+: c.tx.sent then some ({ c with rx := s }, e.map .rx) else none
    | none => none

/-- What a reader holds after an event, if `sungetc` gives the last character back. -/
def hold : List α → Event α → List α
  | taken, .got (some c) => taken ++ [c]
  | taken, .ungot (some _) => taken.dropLast
  | taken, _ => taken

/-- What the reader of `rx` has taken. -/
def taken (es : List (End (Event α))) : List α := (es.filterMap End.rx?).foldl hold []

/-- The first end stays on the connection and sends without breaks, and the reader at the second one steps back only
over what it has read of the last receive. -/
def Through (c : Connection α) : End (Act α) → Prop
  | .tx a => a.stays = true ∧ Unbroken c.tx a
  | .rx a => Within c.rx a

theorem hold_follows {stream : List α} {d : Nat} {es : List (Event α)} (hd : d ≤ stream.length)
    (h : Follows stream d es) :
    es.foldl hold (stream.take d) = stream.take (es.foldl place d) ∧ es.foldl place d ≤ stream.length := by
  induction es generalizing d with
  | nil => exact ⟨rfl, hd⟩
  | cons e es ih =>
    obtain ⟨hagree, hfol⟩ := h
    have hstep : hold (stream.take d) e = stream.take (place d e) ∧ place d e ≤ stream.length := by
      cases e with
      | got c =>
        cases c with
        | none => exact ⟨rfl, hd⟩
        | some c =>
          obtain ⟨hlt, rfl⟩ := List.getElem?_eq_some_iff.1 hagree
          exact ⟨List.take_append_getElem hlt, hlt⟩
      | ungot c =>
        cases c with
        | none => exact ⟨rfl, hd⟩
        | some c =>
          refine ⟨?_, Nat.le_trans (Nat.sub_le _ _) hd⟩
          show (stream.take d).dropLast = stream.take (d - 1)
          rw [List.dropLast_eq_take, List.take_take, List.length_take]
          congr 1
          omega
      | _ => exact ⟨rfl, hd⟩
    rw [List.foldl_cons, List.foldl_cons, hstep.1]
    exact ih hstep.2 hfol

section Connection
variable [DecidableEq α] {cells cells' : Nat → α} {c₀ c c' : Connection α} {a : End (Act α)}
  {es e : List (End (Event α))}

/-- A step is one of either end, and `rx` receives what `tx` has sent. -/
theorem connection_step (hs : c.step a = some (c', e)) :
    (∃ b eb, a = .tx b ∧ c.tx.step b = some (c'.tx, eb) ∧ c'.rx = c.rx ∧ e = eb.map .tx) ∨
      ∃ b eb, a = .rx b ∧ c.rx.step b = some (c'.rx, eb) ∧ c'.tx = c.tx ∧ e = eb.map .rx ∧
        c'.rx.received <+: c'.tx.sent := by
  cases a with
  | tx b =>
    obtain ⟨⟨s₁, eb⟩, hb, he⟩ := Option.map_eq_some_iff.1 hs
    obtain ⟨rfl, rfl⟩ := Prod.mk.inj he
    exact .inl ⟨b, eb, rfl, hb, rfl, rfl⟩
  | rx b =>
    simp only [Connection.step] at hs
    split at hs
    · next s₁ eb hb =>
      split at hs
      · next hpre' =>
        obtain ⟨rfl, rfl⟩ := Prod.mk.inj (Option.some.inj hs)
        exact .inr ⟨b, eb, rfl, hb, rfl, rfl, hpre'⟩
      · cases hs
    · cases hs

theorem connection_received (h : Run Connection.step (fun _ c a _ => Through c a) c₀ c es)
    (h0 : c₀.rx.received <+: c₀.tx.sent) : c.rx.received <+: c.tx.sent := by
  refine h.inv (fun _ c => c.rx.received <+: c.tx.sent) h0 (fun es c a c' e hI _ hs => ?_)
  obtain ⟨b, eb, -, hb, hrx, -⟩ | ⟨b, eb, -, -, -, -, hpre⟩ := connection_step hs
  · exact (hrx ▸ hI).trans (step_does hb).sent
  · exact hpre

theorem connection_tx (h : Run Connection.step (fun _ c a _ => Through c a) c₀ c es) :
    Run Streambuf.step (fun _ s a _ => Unbroken s a) c₀.tx c.tx (es.filterMap End.tx?) := by
  refine h.project (·.tx) End.tx? (fun es c a c' e hok hs => ?_)
  obtain ⟨b, eb, rfl, hb, -, rfl⟩ | ⟨b, eb, rfl, -, htx, rfl, -⟩ := connection_step hs
  · exact .inr ⟨b, by rw [(filterMap_tx eb).1]; exact hb, hok.2⟩
  · exact .inl ⟨htx, (filterMap_rx eb).2⟩

theorem connection_rx (h : Run Connection.step (fun _ c a _ => Through c a) c₀ c es) :
    Run Streambuf.step (fun _ s a _ => Within s a) c₀.rx c.rx (es.filterMap End.rx?) := by
  refine h.project (·.rx) End.rx? (fun es c a c' e hok hs => ?_)
  obtain ⟨b, eb, rfl, -, hrx, rfl⟩ | ⟨b, eb, rfl, hb, -, rfl, -⟩ := connection_step hs
  · exact .inl ⟨hrx, (filterMap_tx eb).2⟩
  · exact .inr ⟨b, by rw [(filterMap_rx eb).1]; exact hb, hok⟩

/-- The check of `Through`. -/
def throughCheck (c : Connection α) : End (Act α) → Bool
  | .tx a => a.stays && unbrokenCheck c.tx a
  | .rx a => withinCheck c.rx a

omit [DecidableEq α] in
theorem throughCheck_sound (h : throughCheck c a = true) : Through c a := by
  cases a with
  | tx a =>
    obtain ⟨hstays, hun⟩ := (Bool.and_eq_true_iff ..).1 h
    exact ⟨hstays, unbrokenCheck_sound hun⟩
  | rx a => exact withinCheck_sound h

end Connection

end BoostCmt.StreamBytes
