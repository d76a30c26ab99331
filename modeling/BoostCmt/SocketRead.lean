import BoostCmt.Lib.Runs
import Mathlib.Algebra.Group.Nat.Defs
import Mathlib.Data.List.Basic
/-!
# The read side of `asio::tcp::socket`

`detail::socket::read` and `read_some` serve a call from `read_buf` first. What is
missing they read without blocking when `available()` covers it, and put the rest of
what is available into `read_buf`; else they wait for an asynchronous read.

A step is a whole call, or the arrival of bytes. `asio` is outside of this file: a
synchronous read takes the bytes that `available()` has reported, `asio::read` fills its
buffer, and `asio::read_some` gives at least one byte. A call that would wait for ever
has no step, and no step reads outside of `read_buf`.
-/

namespace BoostCmt.SocketRead

open Runs

/-- The read side of `detail::socket`; `pending` are the bytes that have arrived and that no read has taken,
`stream` are all that have arrived. -/
structure Socket (α : Type) where
  readBuf : List α := []
  readPos : Nat := 0
  lastAvail : Nat := 0
  pending : List α := []
  stream : List α := []

inductive Act (α : Type) where
  | arrive (bytes : List α)
  /-- `read( buf, size )`: `available()` gives `avail`, and `more` arrives during an asynchronous read. -/
  | read (size avail : Nat) (more : List α)
  /-- `read_some( buf, size )`; an asynchronous read gives `got` bytes. -/
  | readSome (size avail : Nat) (more : List α) (got : Nat)
  deriving DecidableEq, Repr

/-- A call for `size` bytes has put `buffer` into its buffer and returned `r`. -/
inductive Event (α : Type) where
  | returned (size : Nat) (buffer : List α) (r : Nat)
  deriving DecidableEq, Repr

variable {α : Type}

/-- How many bytes the calls have returned. -/
def delivered : List (Event α) → Nat
  | [] => 0
  | .returned _ _ r :: es => r + delivered es

/-- The difference of two `size_t`. -/
def sizeSub (a b : Nat) : Nat := (a + 2 ^ 64 - b) % 2 ^ 64

namespace Socket

/-- `memcpy` of `n` bytes from `&read_buf[read_pos]`. -/
def copy (s : Socket α) (n : Nat) : Option (List α) :=
  if s.readPos + n ≤ s.readBuf.length then some ((s.readBuf.drop s.readPos).take n) else none

/-- The synchronous read into the buffer of the caller and into `read_buf`. -/
def scatter (s : Socket α) (size avail : Nat) : Socket α :=
  { s with
    readBuf := (s.pending.drop size).take (avail - size)
    pending := s.pending.drop avail }

/-- An asynchronous read of `n` bytes. -/
def asyncRead (s : Socket α) (n : Nat) (more : List α) : Socket α :=
  { s with
    pending := (s.pending ++ more).drop n
    stream := s.stream ++ more }

/-- The second half of `read`: `r` bytes are in the buffer, and `size` are missing. -/
def readRest (s : Socket α) (total : Nat) (bytes : List α) (r size avail : Nat) (more : List α) :
    Option (Socket α × Event α) :=
  let s := { s with lastAvail := avail }
  if size ≤ avail then some (s.scatter size avail, .returned total (bytes ++ s.pending.take size) (r + size))
  else if size ≤ (s.pending ++ more).length then
    some (s.asyncRead size more, .returned total (bytes ++ (s.pending ++ more).take size) (r + size))
  else none

/-- `detail::socket::read`. -/
def read (s : Socket α) (size avail : Nat) (more : List α) : Option (Socket α × Event α) :=
  let left := sizeSub s.readBuf.length s.readPos
  if left ≠ 0 then do
    let n := min left size
    let bytes ← s.copy n
    let s := { s with readPos := s.readPos + n }
    let s := if s.readPos = s.readBuf.length then { s with readBuf := [], readPos := 0 } else s
    if size - n = 0 then return (s, .returned size bytes n)
    s.readRest size bytes n (size - n) avail more
  else s.readRest size [] 0 size avail more

/-- The second half of `read_some`. What it returns leaves out the bytes that came from `read_buf`. -/
def readSomeRest (s : Socket α) (total : Nat) (bytes : List α) (size avail : Nat) (more : List α) (got : Nat) :
    Option (Socket α × Event α) :=
  let s := { s with lastAvail := avail }
  if size ≤ avail then
    let r := size + (avail - size)
    some ({ s.scatter size avail with lastAvail := avail - r }, .returned total (bytes ++ s.pending.take size) r)
  else if 1 ≤ got ∧ got ≤ size ∧ got ≤ (s.pending ++ more).length then
    some (s.asyncRead got more, .returned total (bytes ++ (s.pending ++ more).take got) got)
  else none

/-- `detail::socket::read_some`. -/
def readSome (s : Socket α) (size avail : Nat) (more : List α) (got : Nat) : Option (Socket α × Event α) :=
  let left := sizeSub s.readBuf.length s.readPos
  if s.readBuf.length ≠ 0 ∧ left ≠ 0 then do
    let n := min left size
    let bytes ← s.copy n
    let s := if s.readBuf.length - n ≠ 0 then { s with readPos := n } else { s with readBuf := [] }
    if size - n = 0 then return (s, .returned size bytes n)
    s.readSomeRest size bytes (size - n) avail more got
  else s.readSomeRest size [] size avail more got

/-- One step. `available()` reports no more than what has arrived, and sizes fit into an `int`. -/
def step (s : Socket α) : Act α → Option (Socket α × List (Event α))
  | .arrive bytes => some ({ s with pending := s.pending ++ bytes, stream := s.stream ++ bytes }, [])
  | .read size avail more =>
    if size < 2 ^ 31 ∧ avail < 2 ^ 31 ∧ avail ≤ s.pending.length then
      (s.read size avail more).map fun r => (r.1, [r.2])
    else none
  | .readSome size avail more got =>
    if size < 2 ^ 31 ∧ avail < 2 ^ 31 ∧ avail ≤ s.pending.length then
      (s.readSome size avail more got).map fun r => (r.1, [r.2])
    else none

end Socket

/-! ## `read` alone -/

theorem sizeSub_of_le {a b : Nat} (h : b ≤ a) (ha : a < 2 ^ 31) : sizeSub a b = a - b := by
  unfold sizeSub
  omega

theorem delivered_append (es es' : List (Event α)) : delivered (es ++ es') = delivered es + delivered es' := by
  induction es with
  | nil => simp [delivered]
  | cons x es ih =>
    cases x
    simp only [List.cons_append, delivered, ih]
    omega

namespace Socket

/-- Behind the first `d` bytes of the stream come what is left of `read_buf` and what no read has taken. -/
structure Reads (d : Nat) (s : Socket α) : Prop where
  small : s.readBuf.length < 2 ^ 31
  pos : s.readPos < s.readBuf.length ∨ (s.readPos = 0 ∧ s.readBuf = [])
  count : d ≤ s.stream.length
  rest : s.readBuf.drop s.readPos ++ s.pending = s.stream.drop d

/-- The call has delivered the `size` bytes of the stream behind the first `d`. -/
def Delivers (d size : Nat) (r : Socket α × Event α) : Prop :=
  r.2 = .returned size ((r.1.stream.drop d).take size) size ∧ Reads (d + size) r.1

section Read
variable {s s' : Socket α} {d size avail : Nat} {more : List α} {r : Socket α × Event α}

theorem Reads.init : Reads 0 ({} : Socket α) := ⟨by simp, .inr ⟨rfl, rfl⟩, by simp, rfl⟩

theorem Reads.arrive (h : Reads d s) (bytes : List α) :
    Reads d { s with pending := s.pending ++ bytes, stream := s.stream ++ bytes } := by
  refine ⟨h.small, h.pos, ?_, ?_⟩
  · simp only [List.length_append]
    exact Nat.le_add_right_of_le h.count
  · show _ ++ (s.pending ++ bytes) = (s.stream ++ bytes).drop d
    rw [List.drop_append_of_le_length h.count, ← h.rest, List.append_assoc]

theorem Reads.left (h : Reads d s) : sizeSub s.readBuf.length s.readPos = s.readBuf.length - s.readPos := by
  refine sizeSub_of_le ?_ h.small
  rcases h.pos with h | ⟨h, -⟩ <;> omega

/-- The second half of `read`, once `read_buf` is empty. -/
theorem readRest_delivers {bytes : List α} (hbuf : s.readBuf = [] ∧ s.readPos = 0) (hcount : d ≤ s.stream.length)
    (hrest : bytes ++ s.pending = s.stream.drop d) (havail : avail < 2 ^ 31 ∧ avail ≤ s.pending.length)
    (h : s.readRest (bytes.length + size) bytes bytes.length size avail more = some r) :
    Delivers d (bytes.length + size) r := by
  have hdrop : s.stream.drop (d + (bytes.length + size)) = s.pending.drop size := by
    rw [← List.drop_drop, ← hrest, List.drop_length_add_append]
  have hlen := congrArg List.length hrest
  simp only [List.length_append, List.length_drop] at hlen
  simp only [readRest] at h
  split at h
  · next hsync =>
    obtain rfl := Option.some.inj h
    refine ⟨?_, ?_, ?_, ?_, ?_⟩
    · show Event.returned _ _ _ = .returned _ ((s.stream.drop d).take _) _
      rw [← hrest, List.take_length_add_append]
    · simp only [scatter, List.length_take, List.length_drop]
      omega
    · simp only [scatter, hbuf.2, true_and]
      rw [← List.length_eq_zero_iff]
      omega
    · show d + _ ≤ s.stream.length
      omega
    · show ((s.pending.drop size).take (avail - size)).drop s.readPos ++ s.pending.drop avail = s.stream.drop _
      have : s.pending.drop avail = (s.pending.drop size).drop (avail - size) := by
        rw [List.drop_drop]
        congr 1
        omega
      rw [hbuf.2, List.drop_zero, this, List.take_append_drop, hdrop]
  · split at h
    · next harrived =>
      obtain rfl := Option.some.inj h
      have hstream : (s.stream ++ more).drop d = bytes ++ (s.pending ++ more) := by
        rw [List.drop_append_of_le_length hcount, ← hrest, List.append_assoc]
      refine ⟨?_, ?_, ?_, ?_, ?_⟩
      · show Event.returned _ _ _ = .returned _ (((s.stream ++ more).drop d).take _) _
        rw [hstream, List.take_length_add_append]
      · simp [asyncRead, hbuf.1]
      · simp [asyncRead, hbuf]
      · simp only [List.length_append] at harrived
        show d + _ ≤ (s.stream ++ more).length
        simp only [List.length_append]
        omega
      · show s.readBuf.drop s.readPos ++ (s.pending ++ more).drop size = (s.stream ++ more).drop _
        rw [hbuf.1, List.drop_nil, List.nil_append, ← List.drop_drop, hstream, List.drop_length_add_append]
    · cases h

/-- `read` delivers the next bytes of the stream. -/
theorem Reads.read (h : Reads d s) (havail : avail < 2 ^ 31 ∧ avail ≤ s.pending.length)
    (hr : s.read size avail more = some r) : Delivers d size r := by
  simp only [Socket.read, h.left] at hr
  split at hr
  · next hleft =>
    have hpos := h.pos.resolve_right (fun e => hleft (by simp [e.2]))
    have hcopy : s.copy (min (s.readBuf.length - s.readPos) size) =
        some ((s.readBuf.drop s.readPos).take (min (s.readBuf.length - s.readPos) size)) :=
      if_pos (by omega)
    rw [hcopy] at hr
    simp only [Option.bind_eq_bind, Option.bind_some] at hr
    by_cases hsize : size ≤ s.readBuf.length - s.readPos
    · -- `read_buf` has all the bytes
      rw [Nat.min_eq_right hsize, if_pos (Nat.sub_self _)] at hr
      obtain rfl := Option.some.inj hr
      have hbytes : (s.readBuf.drop s.readPos).take size = (s.stream.drop d).take size := by
        rw [← h.rest, List.take_append_of_le_length (by simpa using hsize)]
      have hlen := congrArg List.length h.rest
      simp only [List.length_append, List.length_drop] at hlen
      have hdrop : s.stream.drop (d + size) = s.readBuf.drop (s.readPos + size) ++ s.pending := by
        rw [← List.drop_drop, ← h.rest, List.drop_append_of_le_length (by simpa using hsize), List.drop_drop]
      split
      · next hend =>
        refine ⟨congrArg (Event.returned size · size) hbytes, by simp, .inr ⟨rfl, rfl⟩, ?_, ?_⟩
        · show d + size ≤ s.stream.length
          omega
        · show [] ++ s.pending = s.stream.drop (d + size)
          rw [hdrop, show s.readPos + size = s.readBuf.length from hend, List.drop_length]
      · next hend =>
        refine ⟨congrArg (Event.returned size · size) hbytes, h.small, .inl ?_, ?_, hdrop.symm⟩
        · have : s.readPos + size ≠ s.readBuf.length := hend
          show s.readPos + size < s.readBuf.length
          omega
        · show d + size ≤ s.stream.length
          omega
    · rw [Nat.min_eq_left (by omega), if_neg (by omega),
        if_pos (show s.readPos + (s.readBuf.length - s.readPos) = s.readBuf.length by omega)] at hr
      have hbytes : (s.readBuf.drop s.readPos).take (s.readBuf.length - s.readPos) = s.readBuf.drop s.readPos :=
        List.take_of_length_le (by simp)
      rw [hbytes] at hr
      have hn : (s.readBuf.drop s.readPos).length = s.readBuf.length - s.readPos := List.length_drop
      have htotal : size = (s.readBuf.drop s.readPos).length + (size - (s.readBuf.length - s.readPos)) := by omega
      rw [← hn] at hr
      rw [htotal] at hr ⊢
      simp only [Nat.add_sub_cancel_left] at hr
      exact readRest_delivers (s := { s with readBuf := [], readPos := 0 }) ⟨rfl, rfl⟩ h.count h.rest havail hr
  · next hleft =>
    obtain ⟨hpos, hbuf⟩ := h.pos.resolve_left (fun e => hleft (by omega))
    have hrest := h.rest
    rw [hbuf, List.drop_nil] at hrest
    rw [← Nat.zero_add size] at hr ⊢
    simp only [Nat.zero_add] at hr
    have hrest' : [] ++ s.pending = s.stream.drop d := hrest
    exact readRest_delivers ⟨hbuf, hpos⟩ h.count hrest' havail (by simpa using hr)

theorem readRest_returns {bytes : List α} {total n : Nat} (hmore : size ≤ s.pending.length + more.length) :
    (s.readRest total bytes n size avail more).isSome = true := by
  simp only [readRest]
  split
  · rfl
  · rw [if_pos (by simpa using hmore)]
    rfl

/-- `read` returns once the bytes that it asks for have arrived. -/
theorem Reads.read_returns (h : Reads d s)
    (hmore : size ≤ s.readBuf.length - s.readPos + s.pending.length + more.length) :
    (s.read size avail more).isSome = true := by
  simp only [Socket.read, h.left]
  split
  · next hleft =>
    have hpos := h.pos.resolve_right (fun e => hleft (by simp [e.2]))
    have hcopy : s.copy (min (s.readBuf.length - s.readPos) size) =
        some ((s.readBuf.drop s.readPos).take (min (s.readBuf.length - s.readPos) size)) :=
      if_pos (by omega)
    rw [hcopy]
    simp only [Option.bind_eq_bind, Option.bind_some]
    split
    · rfl
    · next hsize =>
      have hpending : ∀ u : Socket α, u.pending = s.pending → size - min (s.readBuf.length - s.readPos) size ≤
          u.pending.length + more.length := by
        intro u hu
        rw [hu]
        omega
      split <;> exact readRest_returns (hpending _ rfl)
  · exact readRest_returns (by omega)

end Read

/-- The call is one of `read`. -/
def readOnly : Act α → Bool
  | .readSome _ _ _ _ => false
  | _ => true

section Runs
variable {s s' : Socket α} {es e : List (Event α)}

theorem reads_run (h : Run step (fun _ _ a _ => readOnly a = true) {} s es) : Reads (delivered es) s := by
  refine h.inv (fun es s => Reads (delivered es) s) Reads.init (fun es s a s' e hI ha hs => ?_)
  rw [delivered_append]
  cases a with
  | arrive bytes =>
    obtain ⟨rfl, rfl⟩ := Prod.mk.inj (Option.some.inj hs)
    exact hI.arrive bytes
  | read size avail more =>
    simp only [step] at hs
    split at hs
    · next hsizes =>
      obtain ⟨r, hr, he⟩ := Option.map_eq_some_iff.1 hs
      obtain ⟨rfl, rfl⟩ := Prod.mk.inj he
      obtain ⟨he, hI'⟩ := hI.read hsizes.2 hr
      rw [he]
      exact hI'
    · cases hs
  | readSome => cases ha

/-- In every sequence of calls of `read`, each call returns the size it is given with the bytes of the stream that
follow those of the earlier calls, and it returns once they have arrived. -/
theorem read_exact (h : Run step (fun _ _ a _ => readOnly a = true) ({} : Socket α) s es) (size avail : Nat)
    (more : List α) :
    (∀ s' e, s.step (.read size avail more) = some (s', e) →
      e = [.returned size ((s'.stream.drop (delivered es)).take size) size] ∧
        ((s'.stream.drop (delivered es)).take size).length = size) ∧
    (size < 2 ^ 31 → avail < 2 ^ 31 → avail ≤ s.pending.length → delivered es + size ≤ (s.stream ++ more).length →
      (s.step (.read size avail more)).isSome = true) := by
  have hI := reads_run h
  refine ⟨fun s' e hs => ?_, fun hsize havail hpending hmore => ?_⟩
  · simp only [step] at hs
    split at hs
    · next hsizes =>
      obtain ⟨r, hr, he⟩ := Option.map_eq_some_iff.1 hs
      obtain ⟨rfl, rfl⟩ := Prod.mk.inj he
      obtain ⟨he, hI'⟩ := hI.read hsizes.2 hr
      refine ⟨by rw [he], ?_⟩
      have := hI'.count
      simp only [List.length_take, List.length_drop]
      omega
    · cases hs
  · simp only [step, if_pos (And.intro hsize (And.intro havail hpending)), Option.isSome_map]
    refine hI.read_returns ?_
    have hlen := congrArg List.length hI.rest
    simp only [List.length_append, List.length_drop] at hlen hmore
    omega

/-- A call is served from `read_buf` and from an asynchronous read, after a call for no bytes has filled
`read_buf`. -/
theorem read_exact_mixed : ∃ (s : Socket Nat) (es : List (Event Nat)),
    (Run step (fun _ _ a _ => readOnly a = true) {} s es ∧ es = [.returned 0 [] 0, .returned 1 [1] 1] ∧
      s.readBuf = [1, 2, 3] ∧ s.readPos = 1) ∧
    ∀ s' e, s.step (.read 4 0 [4, 5, 6]) = some (s', e) →
      e = [.returned 4 ((s'.stream.drop (delivered es)).take 4) 4] := by
  obtain ⟨s, es, hrun, hf⟩ := run_of_check step (fun _ _ a _ => readOnly a = true) (fun _ _ a _ => readOnly a)
    ({} : Socket Nat) (fun s es => es == [.returned 0 [] 0, .returned 1 [1] 1] && s.readBuf == [1, 2, 3] && s.readPos == 1)
    [.arrive [1, 2, 3], .read 0 3 [], .read 1 0 []] (fun _ _ _ _ h => h) (by decide +kernel)
  simp only [Bool.and_eq_true, beq_iff_eq] at hf
  exact ⟨s, es, ⟨hrun, hf.1.1, hf.1.2, hf.2⟩, fun s' e hs => ((read_exact hrun 4 0 [4, 5, 6]).1 s' e hs).1⟩

end Runs

/-! ## `read_some` alone -/

/-- The call is one of `read_some`, for at least one byte. -/
def readSomeOnly : Act α → Bool
  | .read _ _ _ => false
  | .readSome size _ _ _ => 0 < size
  | .arrive _ => true

/-- The call of `read_some` leaves nothing of what is available. -/
def takesAll : Act α → Bool
  | .readSome size avail _ _ => avail ≤ size
  | _ => true

/-- A call of `read_some` that has returned with `1 ≤ r ≤ size` bytes of the stream behind the first `d`. -/
def SomeDelivered (d : Nat) (s' : Socket α) (e : List (Event α)) : Prop :=
  ∃ size buffer r, e = [.returned size buffer r] ∧ 1 ≤ r ∧ r ≤ size ∧ r ≤ buffer.length ∧
    buffer.take r = (s'.stream.drop d).take r

section ReadSome
variable {s s' : Socket α} {es e : List (Event α)} {d size avail got : Nat} {more : List α}

theorem readSome_empty (hbuf : s.readBuf = []) :
    s.readSome size avail more got = s.readSomeRest size [] size avail more got := by
  simp [readSome, hbuf]

/-- With an empty `read_buf` the call is right if and only if it takes all that is available, and then `read_buf`
stays empty. -/
theorem readSomeRest_delivers {r : Socket α × Event α} (h : Reads d s) (hbuf : s.readBuf = []) (hsize : 0 < size)
    (havail : avail ≤ s.pending.length) (hr : s.readSomeRest size [] size avail more got = some r) :
    (SomeDelivered d r.1 [r.2] ↔ avail ≤ size) ∧
      (avail ≤ size → Reads (d + delivered [r.2]) r.1 ∧ r.1.readBuf = []) := by
  have hpos := (h.pos.resolve_left (by simp [hbuf])).1
  have hrest := h.rest
  rw [hbuf, List.drop_nil, List.nil_append] at hrest
  have hlen := congrArg List.length hrest
  rw [List.length_drop] at hlen
  have hcount := h.count
  simp only [readSomeRest] at hr
  split at hr
  · next hsync =>
    obtain rfl := Option.some.inj hr
    by_cases hle : avail ≤ size
    · obtain rfl : avail = size := Nat.le_antisymm hle hsync
      simp only [Nat.sub_self, Nat.add_zero, List.nil_append, hle, iff_true, forall_const]
      refine ⟨?_, ⟨?_, .inr ⟨hpos, ?_⟩, ?_, ?_⟩, ?_⟩
      · refine ⟨avail, _, _, rfl, hsize, Nat.le_refl _, by simp; omega, ?_⟩
        simp [scatter, hrest, List.take_take]
      · simp [scatter]
      · simp [scatter]
      · simp only [scatter, delivered]
        omega
      · simp [scatter, delivered, hrest]
      · simp [scatter]
    · refine ⟨iff_of_false ?_ hle, fun e => absurd e hle⟩
      rintro ⟨size', buffer, r, he, -, hr, -⟩
      obtain ⟨rfl, -, rfl⟩ := Event.returned.inj (List.cons.inj he).1
      omega
  · next hasync =>
    split at hr
    · next hgot =>
      obtain rfl := Option.some.inj hr
      have hstream : (s.stream ++ more).drop d = s.pending ++ more := by
        rw [List.drop_append_of_le_length hcount, hrest]
      simp only [List.length_append] at hgot
      refine ⟨iff_of_true ?_ (by omega), fun _ => ⟨⟨?_, .inr ⟨hpos, hbuf⟩, ?_, ?_⟩, hbuf⟩⟩
      · refine ⟨size, _, got, rfl, hgot.1, hgot.2.1, by simp; omega, ?_⟩
        simp [asyncRead, hstream, List.take_take]
      · simp [asyncRead, hbuf]
      · simp only [asyncRead, delivered, List.length_append]
        omega
      · simp only [asyncRead, delivered, Nat.add_zero, hbuf, List.drop_nil, List.nil_append]
        rw [← List.drop_drop, hstream]
    · cases hr

/-- The same for a step. -/
theorem readSome_delivers (h : Reads d s) (hbuf : s.readBuf = []) (hsize : 0 < size)
    (hs : s.step (.readSome size avail more got) = some (s', e)) :
    (SomeDelivered d s' e ↔ avail ≤ size) ∧ (avail ≤ size → Reads (d + delivered e) s' ∧ s'.readBuf = []) := by
  simp only [step, readSome_empty hbuf] at hs
  split at hs
  · next hsizes =>
    obtain ⟨r, hr, he⟩ := Option.map_eq_some_iff.1 hs
    obtain ⟨rfl, rfl⟩ := Prod.mk.inj he
    exact readSomeRest_delivers h hbuf hsize hsizes.2.2 hr
  · cases hs

theorem readSome_run (h : Run step (fun _ _ a _ => readSomeOnly a = true ∧ takesAll a = true) {} s es) :
    Reads (delivered es) s ∧ s.readBuf = [] := by
  refine h.inv (fun es s => Reads (delivered es) s ∧ s.readBuf = []) ⟨Reads.init, rfl⟩
    (fun es s a s' e hI ha hs => ?_)
  rw [delivered_append]
  cases a with
  | arrive bytes =>
    obtain ⟨rfl, rfl⟩ := Prod.mk.inj (Option.some.inj hs)
    exact ⟨hI.1.arrive bytes, hI.2⟩
  | read => cases ha.1
  | readSome size avail more got =>
    exact (readSome_delivers hI.1 hI.2 (by simpa [readSomeOnly] using ha.1) hs).2 (by simpa [takesAll] using ha.2)

/-- In every sequence of calls of `read_some` of which each takes all that is available, the next call returns
bytes of the stream that follow those of the earlier calls, no more than it is asked for, if and only if it takes
all that is available too. -/
theorem read_some_exact (h : Run step (fun _ _ a _ => readSomeOnly a = true ∧ takesAll a = true) ({} : Socket α) s es)
    {a : Act α} (hcall : ∃ size avail more got, a = .readSome size avail more got) (ha : readSomeOnly a = true)
    (hs : s.step a = some (s', e)) : SomeDelivered (delivered es) s' e ↔ takesAll a = true := by
  obtain ⟨size, avail, more, got, rfl⟩ := hcall
  obtain ⟨hI, hbuf⟩ := readSome_run h
  rw [(readSome_delivers hI hbuf (by simpa [readSomeOnly] using ha) hs).1]
  simp [takesAll]

/-- A call takes all that is available, and the next one waits for more. -/
theorem read_some_exact_two_calls : ∃ (s s' : Socket Nat) (es e : List (Event Nat)),
    (Run step (fun _ _ a _ => readSomeOnly a = true ∧ takesAll a = true) {} s es ∧ es = [.returned 2 [1, 2] 2] ∧
      s.step (.readSome 5 1 [4, 5] 2) = some (s', e) ∧ e = [.returned 5 [3, 4] 2]) ∧
    (SomeDelivered (delivered es) s' e ↔ takesAll (.readSome 5 1 [4, 5] 2 : Act Nat) = true) := by
  obtain ⟨s, es, hrun, hf⟩ := run_of_check step (fun _ _ a _ => readSomeOnly a = true ∧ takesAll a = true)
    (fun _ _ a _ => readSomeOnly a && takesAll a) ({} : Socket Nat)
    (fun s es => es == [.returned 2 [1, 2] 2] &&
      ((s.step (.readSome 5 1 [4, 5] 2)).map Prod.snd) == some [.returned 5 [3, 4] 2])
    [.arrive [1, 2], .readSome 2 2 [] 0, .arrive [3]] (fun _ _ _ _ h => by simpa using h) (by decide +kernel)
  simp only [Bool.and_eq_true, beq_iff_eq] at hf
  obtain ⟨⟨s', e⟩, hs, he⟩ := Option.map_eq_some_iff.1 hf.2
  exact ⟨s, s', es, e, ⟨hrun, hf.1, hs, he⟩, read_some_exact hrun ⟨_, _, _, _, rfl⟩ rfl hs⟩

/-- A call for one byte returns three. -/
theorem read_some_overruns : ∃ (s s' : Socket Nat) (es e : List (Event Nat)),
    Run step (fun _ _ a _ => readSomeOnly a = true) {} s es ∧ s.step (.readSome 1 3 [] 0) = some (s', e) ∧
      e = [.returned 1 [1] 3] ∧ ¬ SomeDelivered (delivered es) s' e := by
  obtain ⟨s, es, hrun, hf⟩ := run_of_check step (fun _ _ a _ => readSomeOnly a = true)
    (fun _ _ a _ => readSomeOnly a) ({} : Socket Nat)
    (fun s _ => ((s.step (.readSome 1 3 [] 0)).map Prod.snd) == some [.returned 1 [1] 3])
    [.arrive [1, 2, 3]] (fun _ _ _ _ h => h) (by decide +kernel)
  obtain ⟨⟨s', e⟩, hs, he⟩ := Option.map_eq_some_iff.1 (beq_iff_eq.1 hf)
  obtain rfl : e = _ := he
  refine ⟨s, s', es, _, hrun, hs, rfl, ?_⟩
  rintro ⟨size, buffer, r, he, -, hle, -⟩
  obtain ⟨rfl, -, rfl⟩ := Event.returned.inj (List.cons.inj he).1
  omega

end ReadSome

/-! ## The indices -/

/-- What `read_buf.size() - read_pos` and `memcpy` from `&read_buf[read_pos]` rely on. -/
def InBounds (s : Socket α) : Prop := s.readPos ≤ s.readBuf.length

instance (s : Socket α) : Decidable (InBounds s) := inferInstanceAs (Decidable (_ ≤ _))

/-- `resize` does not cut `read_buf` off before `read_pos`, which neither call has set back to 0: `read` does that
when it has emptied `read_buf`, `read_some` does not unless it took all of `read_buf` at once. -/
def KeepsBounds (s : Socket α) : Act α → Prop
  | .arrive _ => True
  | .read size avail _ =>
    s.readPos = s.readBuf.length → size ≤ avail → s.readPos + size ≤ avail
  | .readSome size avail _ _ =>
    (s.readPos = s.readBuf.length → size ≤ avail → s.readPos + size ≤ avail) ∧
    (0 < s.readPos → s.readPos < s.readBuf.length → s.readBuf.length < s.readPos + size →
      s.readPos + size ≤ s.readBuf.length + avail → size ≤ avail)

instance (s : Socket α) (a : Act α) : Decidable (KeepsBounds s a) := by
  cases a <;> unfold KeepsBounds <;> infer_instance

section Bounds
variable {s s' : Socket α} {es e : List (Event α)} {a : Act α} {r : Socket α × Event α}
  {total n size avail got : Nat} {bytes more : List α}

theorem readRest_bounds (havail : avail ≤ s.pending.length)
    (h : s.readRest total bytes n size avail more = some r) :
    r.1.readPos = s.readPos ∧ r.1.readBuf.length = if size ≤ avail then avail - size else s.readBuf.length := by
  simp only [readRest] at h
  split at h
  · next hsync =>
    obtain rfl := Option.some.inj h
    refine ⟨rfl, ?_⟩
    rw [if_pos hsync]
    simp only [scatter, List.length_take, List.length_drop]
    omega
  · next hsync =>
    split at h
    · obtain rfl := Option.some.inj h
      exact ⟨rfl, (if_neg hsync).symm⟩
    · cases h

theorem readSomeRest_bounds (havail : avail ≤ s.pending.length)
    (h : s.readSomeRest total bytes size avail more got = some r) :
    r.1.readPos = s.readPos ∧ r.1.readBuf.length = if size ≤ avail then avail - size else s.readBuf.length := by
  simp only [readSomeRest] at h
  split at h
  · next hsync =>
    obtain rfl := Option.some.inj h
    refine ⟨rfl, ?_⟩
    rw [if_pos hsync]
    simp only [scatter, List.length_take, List.length_drop]
    omega
  · next hsync =>
    split at h
    · obtain rfl := Option.some.inj h
      exact ⟨rfl, (if_neg hsync).symm⟩
    · cases h

theorem copy_inBounds (h : InBounds s) {n : Nat} (hn : n ≤ s.readBuf.length - s.readPos) :
    s.copy n = some ((s.readBuf.drop s.readPos).take n) :=
  if_pos (by unfold InBounds at h; omega)

/-- Where `read` leaves `read_pos`. -/
theorem read_bounds (h : InBounds s) (hsmall : s.readBuf.length < 2 ^ 31)
    (havail : avail < 2 ^ 31 ∧ avail ≤ s.pending.length) (hr : s.read size avail more = some r) :
    (InBounds r.1 ↔ KeepsBounds s (.read size avail more)) ∧ r.1.readBuf.length < 2 ^ 31 := by
  have hpos : s.readPos ≤ s.readBuf.length := h
  simp only [Socket.read, sizeSub_of_le hpos hsmall] at hr
  simp only [InBounds, KeepsBounds]
  split at hr
  · next hleft =>
    rw [copy_inBounds h (Nat.min_le_left _ _)] at hr
    simp only [Option.bind_eq_bind, Option.bind_some] at hr
    split at hr
    · obtain rfl := Option.some.inj hr
      constructor
      · split <;> simp_all <;> omega
      · split <;> simp_all
    · next hsize =>
      rw [if_pos (by omega)] at hr
      obtain ⟨hp, hl⟩ := readRest_bounds (s := { s with readBuf := [], readPos := 0 }) havail.2 hr
      rw [hp, hl]
      constructor
      · constructor
        · intro _ heq; omega
        · intro _; exact Nat.zero_le _
      · split
        · omega
        · show 0 < _; omega
  · next hleft =>
    obtain ⟨hp, hl⟩ := readRest_bounds havail.2 hr
    rw [hp, hl]
    constructor
    · split <;> omega
    · split <;> omega

/-- Where `read_some` leaves `read_pos`. -/
theorem readSome_bounds (h : InBounds s) (hsmall : s.readBuf.length < 2 ^ 31)
    (havail : avail < 2 ^ 31 ∧ avail ≤ s.pending.length) (hr : s.readSome size avail more got = some r) :
    (InBounds r.1 ↔ KeepsBounds s (.readSome size avail more got)) ∧ r.1.readBuf.length < 2 ^ 31 := by
  have hpos : s.readPos ≤ s.readBuf.length := h
  simp only [Socket.readSome, sizeSub_of_le hpos hsmall] at hr
  simp only [InBounds, KeepsBounds]
  split at hr
  · next hleft =>
    rw [copy_inBounds h (Nat.min_le_left _ _)] at hr
    simp only [Option.bind_eq_bind, Option.bind_some] at hr
    split at hr
    · next hdone =>
      obtain rfl := Option.some.inj hr
      split
      · exact ⟨by show min _ size ≤ s.readBuf.length ↔ _; omega, hsmall⟩
      · exact ⟨by show s.readPos ≤ 0 ↔ _; omega, by show 0 < _; omega⟩
    · next hsize =>
      split at hr
      · next hkeep =>
        obtain ⟨hp, hl⟩ := readSomeRest_bounds (s := { s with readPos := min (s.readBuf.length - s.readPos) size })
          havail.2 hr
        dsimp only at hp hl
        rw [hp, hl]
        constructor
        · split <;> omega
        · split
          · omega
          · exact hsmall
      · next hkeep =>
        obtain ⟨hp, hl⟩ := readSomeRest_bounds (s := { s with readBuf := [] }) havail.2 hr
        rw [List.length_nil] at hl
        dsimp only at hp
        rw [hp, hl]
        constructor
        · split <;> omega
        · split <;> omega
  · next hleft =>
    obtain ⟨hp, hl⟩ := readSomeRest_bounds havail.2 hr
    rw [hp, hl]
    constructor
    · split <;> omega
    · split <;> omega

theorem step_bounds (h : InBounds s) (hsmall : s.readBuf.length < 2 ^ 31) (hs : s.step a = some (s', e)) :
    (InBounds s' ↔ KeepsBounds s a) ∧ s'.readBuf.length < 2 ^ 31 := by
  cases a with
  | arrive bytes =>
    obtain ⟨rfl, -⟩ := Prod.mk.inj (Option.some.inj hs)
    exact ⟨iff_of_true h trivial, hsmall⟩
  | read size avail more =>
    simp only [step] at hs
    split at hs
    · next hsizes =>
      obtain ⟨r, hr, he⟩ := Option.map_eq_some_iff.1 hs
      obtain ⟨rfl, -⟩ := Prod.mk.inj he
      exact read_bounds h hsmall hsizes.2 hr
    · cases hs
  | readSome size avail more got =>
    simp only [step] at hs
    split at hs
    · next hsizes =>
      obtain ⟨r, hr, he⟩ := Option.map_eq_some_iff.1 hs
      obtain ⟨rfl, -⟩ := Prod.mk.inj he
      exact readSome_bounds h hsmall hsizes.2 hr
    · cases hs

/-- Both indices and both calls in a state of a run: `read_pos` is inside of `read_buf`. -/
theorem bounds_run (h : Run step (fun _ s a _ => KeepsBounds s a) {} s es) :
    InBounds s ∧ s.readBuf.length < 2 ^ 31 := by
  refine h.inv (fun _ s => InBounds s ∧ s.readBuf.length < 2 ^ 31)
    ⟨by simp [InBounds], by simp⟩ (fun _ s a s' e hI ha hs => ?_)
  obtain ⟨hiff, hsmall⟩ := step_bounds hI.1 hI.2 hs
  exact ⟨hiff.2 ha, hsmall⟩

/-- In every run whose calls keep `read_pos` inside of `read_buf` so far, the difference of the two does not wrap
and every `memcpy` stays inside of `read_buf`, and the next call keeps `read_pos` inside if and only if the
condition holds. -/
theorem indices_in_bounds (h : Run step (fun _ s a _ => KeepsBounds s a) ({} : Socket α) s es) :
    InBounds s ∧ sizeSub s.readBuf.length s.readPos = s.readBuf.length - s.readPos ∧
      (∀ n, n ≤ sizeSub s.readBuf.length s.readPos → s.readPos + n ≤ s.readBuf.length) ∧
      ∀ a s' e, s.step a = some (s', e) → (InBounds s' ↔ KeepsBounds s a) := by
  obtain ⟨hb, hsmall⟩ := bounds_run h
  have hsub := sizeSub_of_le hb hsmall
  refine ⟨hb, hsub, fun n hn => ?_, fun a s' e hs => (step_bounds hb hsmall hs).1⟩
  rw [hsub] at hn
  unfold InBounds at hb
  omega

/-- Calls of both functions, the last of which goes on to the socket with all of `read_buf` taken. -/
theorem indices_in_bounds_mixed : ∃ (s : Socket Nat) (es : List (Event Nat)),
    (Run step (fun _ s a _ => KeepsBounds s a) {} s es ∧
      es = [.returned 1 [1] 3, .returned 1 [2] 1, .returned 1 [3] 1, .returned 2 [4, 5] 3] ∧ s.readBuf = [6]) ∧
    (InBounds s ∧ sizeSub s.readBuf.length s.readPos = s.readBuf.length - s.readPos ∧
      (∀ n, n ≤ sizeSub s.readBuf.length s.readPos → s.readPos + n ≤ s.readBuf.length) ∧
      ∀ a s' e, s.step a = some (s', e) → (InBounds s' ↔ KeepsBounds s a)) := by
  obtain ⟨s, es, hrun, hf⟩ := run_of_check step (fun _ s a _ => KeepsBounds s a)
    (fun _ s a _ => decide (KeepsBounds s a)) ({} : Socket Nat)
    (fun s es => es == [.returned 1 [1] 3, .returned 1 [2] 1, .returned 1 [3] 1, .returned 2 [4, 5] 3] &&
      s.readBuf == [6])
    [.arrive [1, 2, 3], .readSome 1 3 [] 0, .readSome 1 0 [] 0, .read 1 0 [], .arrive [4, 5, 6], .readSome 2 3 [] 0]
    (fun _ _ _ _ h => of_decide_eq_true h) (by decide +kernel)
  simp only [Bool.and_eq_true, beq_iff_eq] at hf
  exact ⟨s, es, ⟨hrun, hf.1, hf.2⟩, indices_in_bounds hrun⟩

/-- `read_some` takes the second half of `read_buf` and refills it with nothing. `read_pos` stays at 1, the
difference wraps, and the next `read` copies from outside of `read_buf`. -/
theorem read_pos_past_end : ∃ (s : Socket Nat) (es : List (Event Nat)),
    Run step (fun _ _ _ _ => True) {} s es ∧ ¬ InBounds s ∧ sizeSub s.readBuf.length s.readPos = 2 ^ 64 - 1 ∧
      s.copy 1 = none := by
  obtain ⟨s, es, hrun, hf⟩ := run_of_check step (fun _ _ _ _ => True) (fun _ _ _ _ => true) ({} : Socket Nat)
    (fun s _ => !decide (InBounds s) && sizeSub s.readBuf.length s.readPos == 2 ^ 64 - 1 && s.copy 1 == none)
    [.arrive [1, 2, 3], .readSome 1 3 [] 0, .readSome 1 0 [] 0, .arrive [4], .readSome 2 1 [] 0]
    (fun _ _ _ _ _ => trivial) (by decide +kernel)
  simp only [Bool.and_eq_true, Bool.not_eq_true', decide_eq_false_iff_not, beq_iff_eq] at hf
  exact ⟨s, es, hrun, hf.1.1, hf.1.2, hf.2⟩

end Bounds

end Socket

end BoostCmt.SocketRead
