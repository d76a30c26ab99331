import BoostCmt.SocketRead
import BoostCmt.Types
/-!
# Reads that fail

`detail::socket::read` where `asio` throws, and `socket::iterator`, which reads one
byte at a time. `read` empties `read_buf` into the buffer of the caller before it calls
`asio`, so a call that throws has taken bytes that no later call returns.

The iterators are numbered in the order of their construction. The end iterator has no
socket; it is not one of them. A context that is woken while its asynchronous read still
goes on is outside of this file.
-/

namespace BoostCmt.SocketErrors

open Runs
open SocketRead (Socket sizeSub)
open SocketRead.Socket (Reads Delivers)

/-- How `asio` fails in a call of `read`: the `n` bytes that it moves before it throws are in its buffers. -/
inductive Failure (α : Type) where
  /-- `available()` throws. -/
  | available
  /-- `available()` gives `avail`, and the synchronous read throws. -/
  | sync (avail n : Nat)
  /-- `available()` gives `avail`, `more` arrives, and the asynchronous read fails. -/
  | async (avail : Nat) (more : List α) (n : Nat)
  deriving DecidableEq, Repr

/-- `socket::iterator`: its `value`, once it is set, and whether `s` is not `NULL`. -/
structure Iterator (α : Type) where
  value : Option α := none
  valid : Bool := true
  deriving DecidableEq, Repr

/-- A socket and the iterators over it. -/
structure Reader (α : Type) where
  socket : Socket α := {}
  iterators : List (Iterator α) := []

inductive Act (α : Type) where
  | arrive (bytes : List α)
  /-- `read( buf, size )` where `asio` does not throw, as in `SocketRead`. -/
  | read (size avail : Nat) (more : List α)
  | readThrows (size : Nat) (f : Failure α) (e : Error)
  /-- `iterator( &s )`. -/
  | construct (avail : Nat) (more : List α)
  | constructThrows (f : Failure α) (e : Error)
  /-- `++` on iterator `i`. -/
  | increment (i avail : Nat) (more : List α)
  | incrementThrows (i : Nat) (f : Failure α) (e : Error)
  /-- `i++`, which gives a copy of the iterator as it was. -/
  | postIncrement (i avail : Nat) (more : List α)
  deriving DecidableEq, Repr

/-- A call for `size` bytes has put `buffer` into its buffer, and has returned `r` or thrown. -/
inductive Event (α : Type) where
  | returned (size : Nat) (buffer : List α) (r : Nat)
  | threw (size : Nat) (buffer : List α) (e : Error)
  deriving DecidableEq, Repr

variable {α : Type}

def Event.size : Event α → Nat
  | .returned size _ _ => size
  | .threw size _ _ => size

def Event.buffer : Event α → List α
  | .returned _ buffer _ => buffer
  | .threw _ buffer _ => buffer

/-- The bytes that the calls have put into their buffers, in the order of the calls. -/
def taken (es : List (Event α)) : List α := es.flatMap Event.buffer

/-- An event of a call that returns. -/
def ofRead : SocketRead.Event α → Event α
  | .returned size buffer r => .returned size buffer r

section Steps
variable [Inhabited α]

/-- The second half of `read` where `asio` throws: `size` bytes are missing behind `bytes`. -/
def readRestThrows (s : Socket α) (bytes : List α) (size : Nat) : Failure α → Option (Socket α × List α)
  | .available => some (s, bytes)
  | .sync avail n =>
    if size ≤ avail ∧ n < avail ∧ avail < 2 ^ 31 ∧ avail ≤ s.pending.length then
      -- `resize` has filled `read_buf` with zeros
      some ({ s with
          lastAvail := avail
          readBuf := (s.pending.drop size).take (n - size) ++ List.replicate (avail - size - (n - size)) default
          pending := s.pending.drop n },
        bytes ++ s.pending.take (min n size))
    else none
  | .async avail more n =>
    if avail < size ∧ n < size ∧ n ≤ (s.pending ++ more).length ∧ avail ≤ s.pending.length then
      some ({ s with lastAvail := avail }.asyncRead n more, bytes ++ (s.pending ++ more).take n)
    else none

/-- `detail::socket::read` where `asio` throws: the bytes that are in the buffer then. -/
def readThrows (s : Socket α) (size : Nat) (f : Failure α) : Option (Socket α × List α) :=
  let left := sizeSub s.readBuf.length s.readPos
  if left ≠ 0 then do
    let n := min left size
    let bytes ← s.copy n
    let s := { s with readPos := s.readPos + n }
    let s := if s.readPos = s.readBuf.length then { s with readBuf := [], readPos := 0 } else s
    if size - n = 0 then none
    else readRestThrows s bytes (size - n) f
  else readRestThrows s [] size f

/-- `++*this`: `1 != s->read( &value, 1 )` would end the iterator. -/
def advance (it : Iterator α) : SocketRead.Event α → Iterator α
  | .returned _ buffer r => { value := buffer.head? <|> it.value, valid := it.valid && r == 1 }

/-- A call of `read` that returns. -/
def read (s : Socket α) (size avail : Nat) (more : List α) : Option (Socket α × SocketRead.Event α) :=
  if size < 2 ^ 31 ∧ avail < 2 ^ 31 ∧ avail ≤ s.pending.length then s.read size avail more else none

/-- A call of `read` that throws. -/
def throws (r : Reader α) (size : Nat) (f : Failure α) (e : Error) : Option (Reader α × List (Event α)) :=
  if size < 2 ^ 31 then
    (readThrows r.socket size f).map fun u => ({ r with socket := u.1 }, [.threw size u.2 e])
  else none

/-- `++` on an iterator that has a socket. -/
def increment (r : Reader α) (i avail : Nat) (more : List α) : Option (Reader α × SocketRead.Event α) :=
  match r.iterators[i]? with
  | some it =>
    if it.valid then
      (read r.socket 1 avail more).map fun u =>
        ({ socket := u.1, iterators := r.iterators.set i (advance it u.2) }, u.2)
    else none
  | none => none

/-- One step. -/
def step (r : Reader α) : Act α → Option (Reader α × List (Event α))
  | .arrive bytes =>
    some ({ r with socket.pending := r.socket.pending ++ bytes, socket.stream := r.socket.stream ++ bytes }, [])
  | .read size avail more =>
    (read r.socket size avail more).map fun u => ({ r with socket := u.1 }, [ofRead u.2])
  | .readThrows size f e => throws r size f e
  | .construct avail more =>
    (read r.socket 1 avail more).map fun u =>
      ({ socket := u.1, iterators := r.iterators ++ [advance {} u.2] }, [ofRead u.2])
  | .constructThrows f e => throws r 1 f e
  | .increment i avail more => (increment r i avail more).map fun u => (u.1, [ofRead u.2])
  | .incrementThrows i f e => if (r.iterators[i]?.any (·.valid)) then throws r 1 f e else none
  | .postIncrement i avail more =>
    match r.iterators[i]? with
    | some tmp =>
      (increment r i avail more).map fun u => ({ u.1 with iterators := u.1.iterators ++ [tmp] }, [ofRead u.2])
    | none => none

/-- No synchronous read throws that had more than the missing bytes to fetch. -/
def clean (s : Socket α) (size : Nat) : Failure α → Bool
  | .sync avail _ => avail ≤ size - (s.readBuf.length - s.readPos)
  | _ => true

/-- The calls of this action are `clean`. -/
def cleanStep (r : Reader α) : Act α → Bool
  | .readThrows size f _ => clean r.socket size f
  | .constructThrows f _ => clean r.socket 1 f
  | .incrementThrows _ f _ => clean r.socket 1 f
  | _ => true

end Steps

/-! ## A call that throws -/

/-- What a call of `read` for `size` bytes leaves that throws: `bytes` are the bytes of the stream behind the first
`d`. -/
structure Took (d size : Nat) (s s' : Socket α) (bytes : List α) : Prop where
  grows : s.stream <+: s'.stream
  next : bytes = (s'.stream.drop d).take bytes.length
  short : bytes.length < max size 1
  reads : Reads (d + bytes.length) s'

section Throws
variable {s s' : Socket α} {d size : Nat} {bytes b more : List α} {f : Failure α}

/-- `read_buf` is empty, and `n` of the missing bytes are taken. -/
theorem took_missing {n : Nat} (hbuf : s'.readBuf = [] ∧ s'.readPos = 0) (hcount : d ≤ s.stream.length)
    (hrest : bytes ++ s.pending = s.stream.drop d) (hn : bytes.length + n < max (bytes.length + size) 1 ∧ n ≤ (s.pending ++ more).length)
    (hpending : s'.pending = (s.pending ++ more).drop n) (hstream : s'.stream = s.stream ++ more) :
    Took d (bytes.length + size) s s' (bytes ++ (s.pending ++ more).take n) := by
  have hdrop : s'.stream.drop d = bytes ++ (s.pending ++ more) := by
    rw [hstream, List.drop_append_of_le_length hcount, ← hrest, List.append_assoc]
  have hlen : (bytes ++ (s.pending ++ more).take n).length = bytes.length + n := by
    rw [List.length_append, List.length_take, Nat.min_eq_left hn.2]
  refine ⟨⟨more, hstream.symm⟩, ?_, ?_, ?_⟩
  · rw [hlen, hdrop, List.take_length_add_append]
  · rw [hlen]
    exact hn.1
  · rw [hlen]
    have hle := congrArg List.length hdrop
    have hlen' := congrArg List.length hstream
    simp only [List.length_drop, List.length_append] at hle hlen' hn
    refine ⟨by simp [hbuf.1], .inr ⟨hbuf.2, hbuf.1⟩, by omega, ?_⟩
    rw [hbuf.1, List.drop_nil, List.nil_append, hpending, ← List.drop_drop, hdrop, List.drop_length_add_append]

variable [Inhabited α]

theorem readRestThrows_took (hbuf : s.readBuf = [] ∧ s.readPos = 0) (hcount : d ≤ s.stream.length)
    (hrest : bytes ++ s.pending = s.stream.drop d) (hsize : 0 < size ∨ bytes = [])
    (hclean : ∀ avail n, f = .sync avail n → avail ≤ size) (h : readRestThrows s bytes size f = some (s', b)) :
    Took d (bytes.length + size) s s' b := by
  cases f with
  | available =>
    obtain ⟨rfl, rfl⟩ := Prod.mk.inj (Option.some.inj h)
    have hshort : bytes.length + 0 < max (bytes.length + size) 1 := by
      rcases hsize with h | rfl
      · omega
      · rw [List.length_nil]
        omega
    have htook : Took d (bytes.length + size) s s (bytes ++ (s.pending ++ []).take 0) :=
      took_missing hbuf hcount hrest ⟨hshort, Nat.zero_le _⟩ (by simp) (by simp)
    simpa using htook
  | sync avail n =>
    simp only [readRestThrows] at h
    split at h
    · next hn =>
      obtain ⟨rfl, rfl⟩ := Prod.mk.inj (Option.some.inj h)
      have havail := hclean avail n rfl
      have hnil : (s.pending.drop size).take (n - size) ++ List.replicate (avail - size - (n - size)) default = [] := by
        rw [show n - size = 0 by omega, show avail - size - 0 = 0 by omega]
        rfl
      rw [Nat.min_eq_left (by omega : n ≤ size)]
      have htook : Took d (bytes.length + size) s { s with
          lastAvail := avail
          readBuf := (s.pending.drop size).take (n - size) ++ List.replicate (avail - size - (n - size)) default
          pending := s.pending.drop n } (bytes ++ (s.pending ++ []).take n) :=
        took_missing ⟨hnil, hbuf.2⟩ hcount hrest ⟨by omega, by simp only [List.append_nil]; omega⟩ (by simp) (by simp)
      simpa using htook
    · cases h
  | async avail more n =>
    simp only [readRestThrows] at h
    split at h
    · next hn =>
      obtain ⟨rfl, rfl⟩ := Prod.mk.inj (Option.some.inj h)
      exact took_missing hbuf hcount hrest ⟨by omega, hn.2.2.1⟩ rfl rfl
    · cases h

/-- A call that throws has taken what was left of `read_buf`. -/
theorem readThrows_took (h : Reads d s) (hclean : clean s size f = true)
    (hr : readThrows s size f = some (s', b)) : Took d size s s' b := by
  simp only [readThrows, h.left] at hr
  split at hr
  · next hleft =>
    have hpos := h.pos.resolve_right (fun e => hleft (by simp [e.2]))
    have hcopy : s.copy (min (s.readBuf.length - s.readPos) size) =
        some ((s.readBuf.drop s.readPos).take (min (s.readBuf.length - s.readPos) size)) :=
      if_pos (by omega)
    rw [hcopy] at hr
    simp only [Option.bind_eq_bind, Option.bind_some] at hr
    split at hr
    · cases hr
    · next hmissing =>
      rw [Nat.min_eq_left (by omega), if_pos (show s.readPos + (s.readBuf.length - s.readPos) = s.readBuf.length by omega),
        List.take_of_length_le (by simp)] at hr
      have htotal : size = (s.readBuf.drop s.readPos).length + (size - (s.readBuf.length - s.readPos)) := by
        rw [List.length_drop]
        omega
      rw [htotal]
      have htook := readRestThrows_took (s := { s with readBuf := [], readPos := 0 }) ⟨rfl, rfl⟩ h.count h.rest
        (.inl (by omega)) (fun avail n hf => by rw [hf] at hclean; exact of_decide_eq_true hclean) hr
      exact ⟨htook.grows, htook.next, htook.short, htook.reads⟩
  · next hleft =>
    obtain ⟨hpos, hbuf⟩ := h.pos.resolve_left (fun e => hleft (by omega))
    have hrest := h.rest
    rw [hbuf, List.drop_nil] at hrest
    have htook := readRestThrows_took ⟨hbuf, hpos⟩ h.count hrest (.inr rfl)
      (fun avail n hf => by rw [hf] at hclean; simpa [clean, hbuf] using hclean) hr
    simpa using htook

end Throws

/-! ## A call that returns -/

section Returns
variable {s s' : Socket α} {d size avail : Nat} {more : List α}

theorem readRest_stream {total n : Nat} {bytes : List α} {r : Socket α × SocketRead.Event α}
    (h : s.readRest total bytes n size avail more = some r) :
    r.1.stream = s.stream ∨ r.1.stream = s.stream ++ more := by
  simp only [Socket.readRest] at h
  split at h
  · obtain rfl := Option.some.inj h
    exact .inl rfl
  · split at h
    · obtain rfl := Option.some.inj h
      exact .inr rfl
    · cases h

theorem skip_stream (n : Nat) : (if s.readPos + n = s.readBuf.length then
    { s with readPos := 0, readBuf := [] } else { s with readPos := s.readPos + n }).stream = s.stream := by
  split <;> rfl

/-- A call of `read` takes nothing out of the stream again. -/
theorem read_stream {r : Socket α × SocketRead.Event α} (h : s.read size avail more = some r) :
    r.1.stream = s.stream ∨ r.1.stream = s.stream ++ more := by
  unfold Socket.read at h
  generalize sizeSub s.readBuf.length s.readPos = left at h
  dsimp only at h
  split at h
  · obtain ⟨bytes, -, hr⟩ := Option.bind_eq_some_iff.1 h
    split at hr
    · obtain rfl := Option.some.inj hr
      exact .inl (skip_stream _)
    · have hstream := readRest_stream hr
      rwa [skip_stream] at hstream
  · exact readRest_stream h

theorem read_grows {r : Socket α × SocketRead.Event α} (h : s.read size avail more = some r) :
    s.stream <+: r.1.stream := by
  rcases read_stream h with hr | hr
  · exact hr ▸ List.prefix_rfl
  · exact hr ▸ List.prefix_append _ _

end Returns

/-! ## Runs -/

/-- A call that returns has filled its buffer, and one that throws has not. -/
def Event.exact : Event α → Prop
  | .returned size buffer r => r = size ∧ buffer.length = size
  | .threw size buffer _ => buffer.length < max size 1

/-- The calls have cut the stream into their buffers. -/
structure Books (es : List (Event α)) (s : Socket α) : Prop where
  cut : taken es = s.stream.take (taken es).length
  reads : Reads (taken es).length s
  exact : ∀ ev ∈ es, ev.exact

theorem taken_append (es es' : List (Event α)) : taken (es ++ es') = taken es ++ taken es' :=
  List.flatMap_append

theorem taken_single (ev : Event α) : taken [ev] = ev.buffer := List.append_nil _

section Books
variable {s s' : Socket α} {es : List (Event α)} {ev : Event α}

theorem Books.init : Books [] ({} : Socket α) := ⟨rfl, Reads.init, fun _ h => by cases h⟩

/-- A call has taken the next bytes of the stream. -/
theorem Books.call (h : Books es s) (hgrows : s.stream <+: s'.stream)
    (hnext : ev.buffer = (s'.stream.drop (taken es).length).take ev.buffer.length) (hexact : ev.exact)
    (hreads : Reads ((taken es).length + ev.buffer.length) s') : Books (es ++ [ev]) s' := by
  have htake : s.stream.take (taken es).length = s'.stream.take (taken es).length := by
    obtain ⟨more, hmore⟩ := hgrows
    rw [← hmore, List.take_append_of_le_length h.reads.count]
  refine ⟨?_, ?_, fun ev' hev => ?_⟩
  · rw [taken_append, taken_single, List.length_append, List.take_add, ← hnext, ← htake, ← h.cut]
  · rw [taken_append, taken_single, List.length_append]
    exact hreads
  · rcases List.mem_append.1 hev with hev | hev
    · exact h.exact ev' hev
    · obtain rfl := List.mem_singleton.1 hev
      exact hexact

theorem Books.rest (h : Books es s) : s.stream = taken es ++ (s.readBuf.drop s.readPos ++ s.pending) := by
  rw [h.reads.rest]
  nth_rewrite 1 [h.cut]
  exact (List.take_append_drop _ _).symm

variable {size avail : Nat} {more : List α} {u : Socket α × SocketRead.Event α}

theorem Books.read (h : Books es s) (hr : SocketErrors.read s size avail more = some u) :
    Books (es ++ [ofRead u.2]) u.1 ∧ ∃ buffer, u.2 = .returned size buffer size ∧ buffer.length = size ∧
      buffer = (u.1.stream.drop (taken es).length).take size := by
  simp only [SocketErrors.read] at hr
  split at hr
  · next hsizes =>
    obtain ⟨he, hreads⟩ := h.reads.read hsizes.2 hr
    have hlen : ((u.1.stream.drop (taken es).length).take size).length = size := by
      have := hreads.count
      rw [List.length_take, List.length_drop]
      omega
    refine ⟨?_, _, he, hlen, rfl⟩
    rw [he]
    refine h.call (read_grows hr) ?_ ⟨rfl, hlen⟩ ?_
    · simp only [ofRead, Event.buffer, hlen]
    · simp only [ofRead, Event.buffer, hlen]
      exact hreads
  · cases hr

variable [Inhabited α] {r r' : Reader α} {a : Act α} {e : List (Event α)}

theorem Books.throws {f : Failure α} {er : Error} (h : Books es r.socket) (hclean : clean r.socket size f = true)
    (hs : throws r size f er = some (r', e)) : Books (es ++ e) r'.socket ∧ r'.iterators = r.iterators ∧
      (taken e).length < max size 1 := by
  simp only [SocketErrors.throws] at hs
  split at hs
  · obtain ⟨u, hu, he⟩ := Option.map_eq_some_iff.1 hs
    obtain ⟨rfl, rfl⟩ := Prod.mk.inj he
    have htook := readThrows_took h.reads hclean hu
    rw [taken_single]
    exact ⟨h.call htook.grows htook.next htook.short htook.reads, rfl, htook.short⟩
  · cases hs

omit [Inhabited α] in
/-- `++` gives the iterator the next byte of the stream. -/
theorem Books.increment {i : Nat} {w : Reader α × SocketRead.Event α} (h : Books es r.socket)
    (hs : increment r i avail more = some w) : Books (es ++ [ofRead w.2]) w.1.socket ∧
      ∃ c, w.2 = .returned 1 [c] 1 ∧ w.1.socket.stream[(taken es).length]? = some c ∧
        w.1.iterators = r.iterators.set i ⟨some c, true⟩ := by
  simp only [SocketErrors.increment] at hs
  split at hs
  · next it hit =>
    split at hs
    · next hvalid =>
      obtain ⟨u, hu, rfl⟩ := Option.map_eq_some_iff.1 hs
      obtain ⟨hbooks, buffer, he, hlen, hnext⟩ := h.read hu
      obtain ⟨c, rfl⟩ := List.length_eq_one_iff.1 hlen
      refine ⟨hbooks, c, he, ?_, ?_⟩
      · have hget := congrArg (·[0]?) hnext
        simpa using hget.symm
      · simp only [he, advance, hvalid]
        rfl
    · cases hs
  · cases hs

theorem Books.step (h : Books es r.socket) (hclean : cleanStep r a = true) (hs : step r a = some (r', e)) :
    Books (es ++ e) r'.socket := by
  cases a with
  | arrive bytes =>
    obtain ⟨rfl, rfl⟩ := Prod.mk.inj (Option.some.inj hs)
    rw [List.append_nil]
    refine ⟨?_, h.reads.arrive bytes, h.exact⟩
    rw [List.take_append_of_le_length h.reads.count]
    exact h.cut
  | read size avail more =>
    simp only [SocketErrors.step] at hs
    obtain ⟨u, hu, he⟩ := Option.map_eq_some_iff.1 hs
    obtain ⟨rfl, rfl⟩ := Prod.mk.inj he
    exact (h.read hu).1
  | readThrows size f er => exact (h.throws hclean hs).1
  | construct avail more =>
    simp only [SocketErrors.step] at hs
    obtain ⟨u, hu, he⟩ := Option.map_eq_some_iff.1 hs
    obtain ⟨rfl, rfl⟩ := Prod.mk.inj he
    exact (h.read hu).1
  | constructThrows f er => exact (h.throws hclean hs).1
  | increment i avail more =>
    simp only [SocketErrors.step] at hs
    obtain ⟨u, hu, he⟩ := Option.map_eq_some_iff.1 hs
    obtain ⟨rfl, rfl⟩ := Prod.mk.inj he
    exact (h.increment hu).1
  | incrementThrows i f er =>
    simp only [SocketErrors.step] at hs
    split at hs
    · exact (h.throws hclean hs).1
    · cases hs
  | postIncrement i avail more =>
    simp only [SocketErrors.step] at hs
    split at hs
    · obtain ⟨u, hu, he⟩ := Option.map_eq_some_iff.1 hs
      obtain ⟨rfl, rfl⟩ := Prod.mk.inj he
      exact (h.increment hu).1
    · cases hs

/-- The iterators have a socket and a byte that was taken. -/
def Alive (es : List (Event α)) (r : Reader α) : Prop :=
  ∀ it ∈ r.iterators, it.valid = true ∧ ∃ c ∈ taken es, it.value = some c

omit [Inhabited α] in
theorem Alive.mono (h : Alive es r) (e : List (Event α)) (hi : r'.iterators = r.iterators) : Alive (es ++ e) r' := by
  intro it hit
  rw [hi] at hit
  obtain ⟨hv, c, hc, he⟩ := h it hit
  exact ⟨hv, c, by rw [taken_append]; exact List.mem_append_left _ hc, he⟩

omit [Inhabited α] in
theorem Alive.increment {i : Nat} {w : Reader α × SocketRead.Event α} (h : Alive es r) (hb : Books es r.socket)
    (hs : SocketErrors.increment r i avail more = some w) : Alive (es ++ [ofRead w.2]) w.1 := by
  obtain ⟨-, c, he, -, hi⟩ := hb.increment hs
  intro it hit
  rw [hi] at hit
  rcases List.mem_or_eq_of_mem_set hit with hit | rfl
  · have hmono : Alive (es ++ [ofRead w.2]) r := h.mono _ rfl
    exact hmono it hit
  · refine ⟨rfl, c, ?_, rfl⟩
    rw [taken_append, he]
    exact List.mem_append_right _ (List.mem_singleton.2 rfl)

theorem Alive.step (h : Alive es r) (hb : Books es r.socket) (hclean : cleanStep r a = true)
    (hs : SocketErrors.step r a = some (r', e)) : Alive (es ++ e) r' := by
  cases a with
  | arrive bytes =>
    obtain ⟨rfl, rfl⟩ := Prod.mk.inj (Option.some.inj hs)
    exact h.mono [] rfl
  | read size avail more =>
    simp only [SocketErrors.step] at hs
    obtain ⟨u, hu, he⟩ := Option.map_eq_some_iff.1 hs
    obtain ⟨rfl, rfl⟩ := Prod.mk.inj he
    exact h.mono _ rfl
  | readThrows size f er => exact h.mono _ (hb.throws hclean hs).2.1
  | construct avail more =>
    simp only [SocketErrors.step] at hs
    obtain ⟨u, hu, he⟩ := Option.map_eq_some_iff.1 hs
    obtain ⟨rfl, rfl⟩ := Prod.mk.inj he
    obtain ⟨-, buffer, hev, hlen, -⟩ := hb.read hu
    obtain ⟨c, rfl⟩ := List.length_eq_one_iff.1 hlen
    intro it hit
    rcases List.mem_append.1 hit with hit | hit
    · have hmono : Alive (es ++ [ofRead u.2]) r := h.mono _ rfl
      exact hmono it hit
    · obtain rfl := List.mem_singleton.1 hit
      rw [hev]
      refine ⟨rfl, c, ?_, rfl⟩
      rw [taken_append]
      exact List.mem_append_right _ (List.mem_singleton.2 rfl)
  | constructThrows f er => exact h.mono _ (hb.throws hclean hs).2.1
  | increment i avail more =>
    simp only [SocketErrors.step] at hs
    obtain ⟨u, hu, he⟩ := Option.map_eq_some_iff.1 hs
    obtain ⟨rfl, rfl⟩ := Prod.mk.inj he
    exact h.increment hb hu
  | incrementThrows i f er =>
    simp only [SocketErrors.step] at hs
    split at hs
    · exact h.mono _ (hb.throws hclean hs).2.1
    · cases hs
  | postIncrement i avail more =>
    simp only [SocketErrors.step] at hs
    split at hs
    · next tmp htmp =>
      obtain ⟨u, hu, he⟩ := Option.map_eq_some_iff.1 hs
      obtain ⟨rfl, rfl⟩ := Prod.mk.inj he
      intro it hit
      rcases List.mem_append.1 hit with hit | hit
      · exact h.increment hb hu it hit
      · obtain rfl := List.mem_singleton.1 hit
        have hmono : Alive (es ++ [ofRead u.2]) r := h.mono _ rfl
        exact hmono it (List.mem_of_getElem? htmp)
    · cases hs

theorem books_run (h : Run SocketErrors.step (fun _ r a _ => cleanStep r a = true) {} r es) :
    Books es r.socket ∧ Alive es r := by
  refine h.inv (fun es r => Books es r.socket ∧ Alive es r) ⟨Books.init, fun _ hit => by cases hit⟩
    (fun es r a r' e hI hclean hs => ?_)
  exact ⟨hI.1.step hclean hs, hI.2.step hI.1 hclean hs⟩

/-- Calls of `read`, of which some throw, cut the stream into their buffers in the order of the calls: a call that
returns has filled its buffer, and one that throws has lost the bytes that are in its buffer. -/
theorem failed_reads_accounted (h : Run SocketErrors.step (fun _ r a _ => cleanStep r a = true) {} r es) :
    r.socket.stream = taken es ++ (r.socket.readBuf.drop r.socket.readPos ++ r.socket.pending) ∧
      ∀ ev ∈ es, ev.exact :=
  ⟨(books_run h).1.rest, (books_run h).1.exact⟩

/-- Three bytes of `read_buf` and one of the asynchronous read are lost with the call that throws, and an iterator goes
on behind them. -/
theorem failed_reads_accounted_lost : ∃ (r : Reader Nat) (es : List (Event Nat)),
    (Run SocketErrors.step (fun _ r a _ => cleanStep r a = true) {} r es ∧
      es = [.returned 1 [1] 1, .threw 5 [2, 3, 4, 5] (.other 0), .returned 1 [6] 1]) ∧
    r.socket.stream = taken es ++ (r.socket.readBuf.drop r.socket.readPos ++ r.socket.pending) := by
  obtain ⟨r, es, hrun, hf⟩ := run_of_check SocketErrors.step (fun _ r a _ => cleanStep r a = true)
    (fun _ r a _ => cleanStep r a) ({} : Reader Nat)
    (fun _ es => es == [.returned 1 [1] 1, .threw 5 [2, 3, 4, 5] (.other 0), .returned 1 [6] 1])
    [.arrive [1, 2, 3, 4], .read 1 4 [], .readThrows 5 (.async 0 [5] 1) (.other 0), .construct 0 [6]]
    (fun _ _ _ _ h => h) (by decide +kernel)
  exact ⟨r, es, ⟨hrun, eq_of_beq hf⟩, (failed_reads_accounted hrun).1⟩

/-- The iterators over one socket share the stream: each successful `++` gives its iterator the byte behind all that
the calls have taken, a `++` that throws takes no byte and leaves the iterators alone, and a byte that has arrived is
there for the next `++`. None of them ever loses its socket, so none equals the end iterator. -/
theorem iterators_share_stream {i : Nat} (h : Run SocketErrors.step (fun _ r a _ => cleanStep r a = true) {} r es)
    (hi : i < r.iterators.length) :
    (∀ it ∈ r.iterators, it.valid = true ∧ ∃ c ∈ taken es, it.value = some c) ∧
      (∀ avail more r' e, SocketErrors.step r (.increment i avail more) = some (r', e) →
        ∃ c, e = [.returned 1 [c] 1] ∧ r'.socket.stream[(taken es).length]? = some c ∧
          r'.iterators = r.iterators.set i ⟨some c, true⟩) ∧
      (∀ f er r' e, clean r.socket 1 f = true → SocketErrors.step r (.incrementThrows i f er) = some (r', e) →
        taken e = [] ∧ r'.iterators = r.iterators) ∧
      (∀ more, (taken es).length < (r.socket.stream ++ more).length →
        (SocketErrors.step r (.increment i 0 more)).isSome = true) := by
  obtain ⟨hb, ha⟩ := books_run h
  refine ⟨ha, fun avail more r' e hs => ?_, fun f er r' e hclean hs => ?_, fun more hmore => ?_⟩
  · simp only [SocketErrors.step] at hs
    obtain ⟨u, hu, he⟩ := Option.map_eq_some_iff.1 hs
    obtain ⟨rfl, rfl⟩ := Prod.mk.inj he
    obtain ⟨-, c, hev, hnext, hset⟩ := hb.increment hu
    exact ⟨c, by rw [hev]; rfl, hnext, hset⟩
  · simp only [SocketErrors.step] at hs
    split at hs
    · obtain ⟨-, hset, hlen⟩ := hb.throws hclean hs
      exact ⟨List.length_eq_zero_iff.1 (by omega), hset⟩
    · cases hs
  · have hit : r.iterators[i]? = some (r.iterators[i]) := List.getElem?_eq_getElem hi
    have hlen := congrArg List.length hb.rest
    simp only [List.length_append, List.length_drop] at hlen hmore
    have hread : (r.socket.read 1 0 more).isSome = true := hb.reads.read_returns (by omega)
    simp only [SocketErrors.step, SocketErrors.increment, hit, (ha _ (List.getElem_mem hi)).1, if_true,
      Option.isSome_map, SocketErrors.read]
    rw [if_pos ⟨by omega, by omega, Nat.zero_le _⟩]
    exact hread

/-- The copy that `it++` gives keeps the old byte, and the iterator goes on to the third one. -/
theorem iterators_share_stream_copy : ∃ (r : Reader Nat) (es : List (Event Nat)),
    (Run SocketErrors.step (fun _ r a _ => cleanStep r a = true) {} r es ∧
      r.iterators = [⟨some 2, true⟩, ⟨some 1, true⟩]) ∧
    ∀ avail more r' e, SocketErrors.step r (.increment 0 avail more) = some (r', e) →
      ∃ c, e = [.returned 1 [c] 1] ∧ r'.socket.stream[(taken es).length]? = some c ∧
        r'.iterators = r.iterators.set 0 ⟨some c, true⟩ := by
  obtain ⟨r, es, hrun, hf⟩ := run_of_check SocketErrors.step (fun _ r a _ => cleanStep r a = true)
    (fun _ r a _ => cleanStep r a) ({} : Reader Nat) (fun r _ => r.iterators == [⟨some 2, true⟩, ⟨some 1, true⟩])
    [.arrive [1, 2, 3], .construct 1 [], .postIncrement 0 1 [], .incrementThrows 0 (.async 0 [] 0) (.other 0)]
    (fun _ _ _ _ h => h) (by decide +kernel)
  have hit := eq_of_beq hf
  exact ⟨r, es, ⟨hrun, hit⟩, (iterators_share_stream (i := 0) hrun (by rw [hit]; decide)).2.1⟩

/-- The synchronous read has moved bytes into the buffer of the caller only. -/
theorem readThrows_zeros {d n : Nat} {b : List α} (h : Reads d s)
    (hr : readThrows s size (.sync avail n) = some (s', b)) (hn : n + (s.readBuf.length - s.readPos) ≤ size) :
    s'.readPos = 0 ∧ s'.readBuf = List.replicate (avail + (s.readBuf.length - s.readPos) - size) default ∧
      s'.readBuf.length < 2 ^ 31 := by
  have hrest : ∀ (u : Socket α) bytes left, left ≤ size → n ≤ size - left → u.readPos = 0 →
      readRestThrows u bytes (size - left) (.sync avail n) = some (s', b) →
      s'.readPos = 0 ∧ s'.readBuf = List.replicate (avail + left - size) default ∧ s'.readBuf.length < 2 ^ 31 := by
    intro u bytes left hleft hn hpos hr
    simp only [readRestThrows] at hr
    split at hr
    · next hsync =>
      obtain ⟨rfl, rfl⟩ := Prod.mk.inj (Option.some.inj hr)
      have hbuf : (u.pending.drop (size - left)).take (n - (size - left)) ++
          List.replicate (avail - (size - left) - (n - (size - left))) default =
            List.replicate (avail + left - size) (default : α) := by
        rw [show n - (size - left) = 0 by omega, List.take_zero, List.nil_append]
        congr 1
        omega
      refine ⟨hpos, hbuf, ?_⟩
      simp only [hbuf, List.length_replicate]
      omega
    · cases hr
  simp only [readThrows, h.left] at hr
  split at hr
  · next hleft =>
    have hpos := h.pos.resolve_right (fun e => hleft (by simp [e.2]))
    obtain ⟨bytes, -, hr⟩ := Option.bind_eq_some_iff.1 hr
    rw [Nat.min_eq_left (by omega)] at hr
    split at hr
    · cases hr
    · rw [if_pos (show s.readPos + (s.readBuf.length - s.readPos) = s.readBuf.length by omega)] at hr
      exact hrest _ bytes _ (by omega) (by omega) rfl hr
  · next hleft =>
    have hpos := (h.pos.resolve_left (by omega)).1
    have hr' := hrest s [] 0 (Nat.zero_le _) (by omega) hpos hr
    rwa [show s.readBuf.length - s.readPos = 0 by omega]

omit [Inhabited α] in
/-- `read_buf` has all that the call asks for. -/
theorem read_from_buf {m : Nat} (hpos : s.readPos = 0) (hm : 0 < m ∧ m ≤ s.readBuf.length)
    (hlen : s.readBuf.length < 2 ^ 31) (hr : SocketErrors.read s m avail more = some u) :
    u.2 = .returned m (s.readBuf.take m) m ∧ u.1.pending = s.pending := by
  simp only [SocketErrors.read] at hr
  split at hr
  · have hleft : sizeSub s.readBuf.length s.readPos = s.readBuf.length := by
      rw [hpos]
      exact SocketRead.sizeSub_of_le (Nat.zero_le _) hlen
    simp only [Socket.read, hleft] at hr
    rw [if_pos (by omega), Nat.min_eq_right hm.2] at hr
    have hcopy : s.copy m = some (s.readBuf.take m) := by
      rw [Socket.copy, hpos, Nat.zero_add, if_pos hm.2, List.drop_zero]
    rw [hcopy] at hr
    simp only [Option.bind_eq_bind, Option.bind_some, Nat.sub_self, if_true] at hr
    obtain rfl := Option.some.inj hr
    refine ⟨rfl, ?_⟩
    split <;> rfl
  · cases hr

/-- A synchronous read throws that had more than the missing bytes to fetch, before it has filled the buffer of the
caller: `resize` has put zeros into `read_buf` that the next calls return, and nothing of what has arrived. -/
theorem failed_sync_read_zeros {n m : Nat} {er : Error} {e' : List (Event α)} {r'' : Reader α}
    (h : Run SocketErrors.step (fun _ r a _ => cleanStep r a = true) {} r es)
    (hs : SocketErrors.step r (.readThrows size (.sync avail n) er) = some (r', e))
    (hn : n + (r.socket.readBuf.length - r.socket.readPos) ≤ size)
    (hm : 0 < m ∧ m + size ≤ avail + (r.socket.readBuf.length - r.socket.readPos)) {avail' : Nat}
    (hs' : SocketErrors.step r' (.read m avail' more) = some (r'', e')) :
    e' = [.returned m (List.replicate m default) m] ∧ r''.socket.pending = r'.socket.pending := by
  simp only [SocketErrors.step, SocketErrors.throws] at hs
  split at hs
  · obtain ⟨u, hu, he⟩ := Option.map_eq_some_iff.1 hs
    obtain ⟨rfl, rfl⟩ := Prod.mk.inj he
    obtain ⟨hpos, hbuf, hlen⟩ := readThrows_zeros (books_run h).1.reads hu hn
    simp only [SocketErrors.step] at hs'
    obtain ⟨w, hw, he'⟩ := Option.map_eq_some_iff.1 hs'
    obtain ⟨rfl, rfl⟩ := Prod.mk.inj he'
    have hle : m ≤ u.1.readBuf.length := by
      rw [hbuf, List.length_replicate]
      omega
    obtain ⟨hev, hpending⟩ := read_from_buf hpos ⟨hm.1, hle⟩ hlen hw
    rw [hbuf, List.take_replicate, Nat.min_eq_left (by omega)] at hev
    exact ⟨by rw [hev]; rfl, hpending⟩
  · cases hs

/-- Two zeros for a socket on which nothing but ones has arrived. -/
theorem failed_sync_read_zeros_ones : ∃ (r : Reader Nat) (es : List (Event Nat)),
    (Run SocketErrors.step (fun _ r a _ => cleanStep r a = true) {} r es ∧ r.socket.stream = [1, 1, 1]) ∧
    ∃ r' e r'' e', SocketErrors.step r (.readThrows 1 (.sync 3 1) (.other 0)) = some (r', e) ∧
      SocketErrors.step r' (.read 2 0 []) = some (r'', e') ∧
      e' = [.returned 2 (List.replicate 2 default) 2] ∧ r''.socket.pending = r'.socket.pending := by
  obtain ⟨r, es, hrun, hf⟩ := run_of_check SocketErrors.step (fun _ r a _ => cleanStep r a = true)
    (fun _ r a _ => cleanStep r a) ({} : Reader Nat)
    (fun r _ => r.socket.stream == [1, 1, 1] && r.socket.readBuf == [] &&
      ((SocketErrors.step r (.readThrows 1 (.sync 3 1) (.other 0))).any fun u =>
        (SocketErrors.step u.1 (.read 2 0 [])).isSome))
    [.arrive [1, 1, 1]] (fun _ _ _ _ h => h) (by decide +kernel)
  simp only [Bool.and_eq_true, beq_iff_eq] at hf
  obtain ⟨⟨hstream, hbuf⟩, hsteps⟩ := hf
  obtain ⟨⟨r', e⟩, hs, hs'⟩ := (Option.any_eq_true _ _).1 hsteps
  obtain ⟨⟨r'', e'⟩, hs'⟩ := Option.isSome_iff_exists.1 hs'
  exact ⟨r, es, ⟨hrun, hstream⟩, r', e, r'', e', hs, hs',
    failed_sync_read_zeros hrun hs (by rw [hbuf]; simp) (by rw [hbuf]; simp) hs'⟩

end Books

end BoostCmt.SocketErrors
