import BoostCmt.SocketErrors
import BoostCmt.SocketWrite
/-!
# Two connected sockets

Two ends of one connection, each with the write side of `SocketWrite` and the read side
of `SocketErrors`. Calls, loops and failures of both ends interleave freely. TCP stands
between them: what has arrived at one end is at all times a beginning of what the other
end has handed over.

The last part is `~socket`, which waits for the write loop of its socket and frees the
buffers that the loop sends from.
-/

namespace BoostCmt.SocketConnection

open Runs
open SocketErrors (Reader Books taken clean cleanStep)
open SocketWrite.Socket (Barrier stepMarked)

/-- One end: its write side with the marks of the blocked calls of `flush`, and its read side. -/
structure Peer (α : Type) where
  tx : SocketWrite.Socket α := {}
  marks : List (List α) := []
  rx : Reader α := {}

/-- A connection. -/
structure Connection (α : Type) where
  peer : Fin 2 → Peer α := fun _ => {}

/-- A step of the write side or of the read side of end `i`. -/
inductive Act (α : Type) where
  | write (i : Fin 2) (a : SocketWrite.Act α)
  | read (i : Fin 2) (a : SocketErrors.Act α)
  deriving DecidableEq, Repr

inductive Event (α : Type) where
  | write (i : Fin 2) (e : SocketWrite.Event)
  | read (i : Fin 2) (e : SocketErrors.Event α)
  deriving DecidableEq, Repr

variable {α : Type}

/-- An event of a read at end `i`. -/
def Event.readAt? (i : Fin 2) : Event α → Option (SocketErrors.Event α)
  | .read j e => if j = i then some e else none
  | .write _ _ => none

/-- The bytes that the reads at end `i` have taken. -/
def received (i : Fin 2) (es : List (Event α)) : List α := taken (es.filterMap (Event.readAt? i))

namespace Connection

def setPeer (c : Connection α) (i : Fin 2) (p : Peer α) : Connection α :=
  { peer := fun j => if j = i then p else c.peer j }

@[simp] theorem setPeer_peer (c : Connection α) (i j : Fin 2) (p : Peer α) :
    (c.setPeer i p).peer j = if j = i then p else c.peer j := rfl

section Step
variable [DecidableEq α] [Inhabited α]

/-- One step. -/
def step (c : Connection α) : Act α → Option (Connection α × List (Event α))
  | .write i a =>
    let p := c.peer i
    (stepMarked (p.tx, p.marks) a).map fun r =>
      (c.setPeer i { p with tx := r.1.1, marks := r.1.2 }, r.2.map (.write i))
  | .read i a =>
    let p := c.peer i
    match SocketErrors.step p.rx a with
    | some (rx, e) =>
      if rx.socket.stream <+: (c.peer i.rev).tx.sent then
        some (c.setPeer i { p with rx := rx }, e.map (.read i))
      else none
    | none => none

/-- No synchronous read throws that had more than the missing bytes to fetch. -/
def cleanReads (c : Connection α) : Act α → Bool
  | .write _ _ => true
  | .read i a => cleanStep (c.peer i).rx a

end Step

/-! ## The two ends -/

/-- What holds of both ends and of what is between them. -/
structure Joined (es : List (Event α)) (c : Connection α) : Prop where
  barrier : ∀ i, Barrier (c.peer i).tx (c.peer i).marks
  books : ∀ i, Books (es.filterMap (Event.readAt? i)) (c.peer i).rx.socket
  arrived : ∀ i, (c.peer i).rx.socket.stream <+: (c.peer i.rev).tx.sent

section Runs
variable {c c' : Connection α} {es e : List (Event α)} {a : Act α} {i : Fin 2}

theorem filterMap_write (i j : Fin 2) (e : List SocketWrite.Event) :
    ((e.map (Event.write (α := α) j)).filterMap (Event.readAt? i)) = [] := by
  simp [List.filterMap_map, Function.comp_def, Event.readAt?]

theorem filterMap_read (i j : Fin 2) (e : List (SocketErrors.Event α)) :
    (e.map (Event.read j)).filterMap (Event.readAt? i) = if j = i then e else [] := by
  by_cases h : j = i <;> simp [List.filterMap_map, Function.comp_def, Event.readAt?, h]

theorem Joined.init : Joined [] ({} : Connection α) :=
  ⟨fun _ => SocketWrite.Socket.barrier_init, fun _ => Books.init, fun _ => List.prefix_rfl⟩

/-- All that is written is ahead of what is sent. -/
theorem Joined.sent (h : Joined es c) (i : Fin 2) : (c.peer i).tx.sent <+: (c.peer i).tx.written :=
  (h.barrier i).state.elim (fun h => h.in_order) (fun h => h.sent)

variable [DecidableEq α] [Inhabited α]

theorem Joined.write {b : SocketWrite.Act α} (h : Joined es c) (hs : c.step (.write i b) = some (c', e)) :
    Joined (es ++ e) c' := by
  obtain ⟨r, hr, he⟩ := Option.map_eq_some_iff.1 hs
  obtain ⟨rfl, rfl⟩ := Prod.mk.inj he
  obtain ⟨u, hu, rfl⟩ := Option.map_eq_some_iff.1 hr
  have hbarrier := (h.barrier i).step hu
  have hsent := (SocketWrite.Socket.advances (h.barrier i).state hu).1.sent
  refine ⟨fun j => ?_, fun j => ?_, fun j => ?_⟩
  · rw [setPeer_peer]
    split
    · exact hbarrier
    · exact h.barrier j
  · rw [List.filterMap_append, filterMap_write, List.append_nil, setPeer_peer]
    split
    · next hj => exact hj ▸ h.books j
    · exact h.books j
  · have hrx : ((c.setPeer i { c.peer i with tx := u.1, marks := (c.peer i).tx.marksAfter (c.peer i).marks b }).peer j).rx =
        (c.peer j).rx := by
      rw [setPeer_peer]
      split
      · next hj => rw [hj]
      · rfl
    rw [hrx]
    refine (h.arrived j).trans ?_
    rw [setPeer_peer]
    split
    · next hj =>
      rw [hj]
      exact hsent
    · exact List.prefix_rfl

theorem Joined.read {b : SocketErrors.Act α} (h : Joined es c) (hclean : cleanStep (c.peer i).rx b = true)
    (hs : c.step (.read i b) = some (c', e)) : Joined (es ++ e) c' := by
  simp only [step] at hs
  split at hs
  · next rx ev hr =>
    split at hs
    · next harrived =>
      obtain ⟨rfl, rfl⟩ := Prod.mk.inj (Option.some.inj hs)
      have hbooks := (h.books i).step hclean hr
      have htx : ∀ j, ((c.setPeer i { c.peer i with rx := rx }).peer j).tx = (c.peer j).tx ∧
          ((c.setPeer i { c.peer i with rx := rx }).peer j).marks = (c.peer j).marks := by
        intro j
        rw [setPeer_peer]
        split
        · next hj => exact hj ▸ ⟨rfl, rfl⟩
        · exact ⟨rfl, rfl⟩
      refine ⟨fun j => ?_, fun j => ?_, fun j => ?_⟩
      · rw [(htx j).1, (htx j).2]
        exact h.barrier j
      · rw [List.filterMap_append, filterMap_read, setPeer_peer]
        by_cases hj : j = i
        · subst hj
          rw [if_pos rfl, if_pos rfl]
          exact hbooks
        · rw [if_neg hj, if_neg (Ne.symm hj), List.append_nil]
          exact h.books j
      · rw [(htx j.rev).1, setPeer_peer]
        split
        · next hj => exact hj ▸ harrived
        · exact h.arrived j
    · cases hs
  · cases hs

theorem joined_run (h : Run step (fun _ c a _ => c.cleanReads a = true) {} c es) : Joined es c := by
  refine h.inv Joined Joined.init (fun es c a c' e hI hclean hs => ?_)
  cases a with
  | write i b => exact hI.write hs
  | read i b => exact hI.read hclean hs

/-- A call of `read` at end `i` for any number of the bytes of `m` that are not read yet returns them. -/
def Readable (i : Fin 2) (c : Connection α) (done m : List α) : Prop :=
  ∀ size, size < 2 ^ 31 → done.length + size ≤ m.length → ∃ more c',
    c.step (.read i (.read size 0 more)) =
      some (c', [.read i (.returned size ((m.drop done.length).take size) size)])

omit [DecidableEq α] [Inhabited α] in
theorem take_drop_of_beginning {l m : List α} {n size : Nat} (h : m <+: l) (hle : n + size ≤ m.length) :
    (m.drop n).take size = (l.drop n).take size := by
  obtain ⟨t, rfl⟩ := h
  rw [List.drop_append_of_le_length (by omega), List.take_append_of_le_length (by rw [List.length_drop]; omega)]

/-- What is handed over can be read. -/
theorem Joined.readable {m : List α} (h : Joined es c) (hm : m <+: (c.peer i.rev).tx.sent) :
    Readable i c (received i es) m := by
  intro size hsize hle
  obtain ⟨more, hmore⟩ := h.arrived i
  have hbooks := h.books i
  have hlen := congrArg List.length hbooks.rest
  have hlen' := congrArg List.length hmore
  have hmlen := hm.length_le
  simp only [List.length_append, List.length_drop] at hlen hlen'
  simp only [received] at hle
  have hreturns : ((c.peer i).rx.socket.read size 0 more).isSome = true := hbooks.reads.read_returns (by omega)
  obtain ⟨u, hu⟩ := Option.isSome_iff_exists.1 hreturns
  have hread : SocketErrors.read (c.peer i).rx.socket size 0 more = some u := by
    rw [SocketErrors.read, if_pos ⟨hsize, by omega, Nat.zero_le _⟩]
    exact hu
  obtain ⟨hbooks', buffer, hev, hbuf, hnext⟩ := hbooks.read hread
  have harrived : u.1.stream <+: (c.peer i.rev).tx.sent := by
    rcases SocketErrors.read_stream hu with hs | hs <;> rw [hs]
    · exact h.arrived i
    · exact hmore ▸ List.prefix_rfl
  have hcount := hbooks'.reads.count
  rw [hev, SocketErrors.taken_append, SocketErrors.taken_single, List.length_append] at hcount
  have hcount' : (taken (es.filterMap (Event.readAt? i))).length + size ≤ u.1.stream.length := by
    rw [← hbuf]
    exact hcount
  refine ⟨more, c.setPeer i { c.peer i with rx.socket := u.1 }, ?_⟩
  simp only [step, SocketErrors.step, hread, Option.map_some, if_pos harrived]
  rw [hev]
  simp only [SocketErrors.ofRead, List.map_cons, List.map_nil, received, hnext]
  rw [take_drop_of_beginning harrived hcount', take_drop_of_beginning hm hle]

omit [DecidableEq α] [Inhabited α] in
/-- A `flush` that does not block returns once everything is sent. -/
theorem barrier_flush {s s' : SocketWrite.Socket α} {marks : List (List α)} (h : Barrier s marks)
    (hs : s.step .flush = some (s', [.flushed])) : s'.sent = s.written := by
  simp only [SocketWrite.Socket.step] at hs
  split at hs
  · next hc =>
    obtain ⟨rfl, -⟩ := Prod.mk.inj (Option.some.inj hs)
    exact (h.fresh hc).bytes.symm
  · next p hc =>
    split at hs <;> obtain ⟨rfl, he⟩ := Prod.mk.inj (Option.some.inj hs)
    · cases he
    · next v hv => exact ((h.complete p hc).2 (by rw [hv]; rfl)).bytes.symm
    · cases he

omit [DecidableEq α] [Inhabited α] in
/-- A blocked `flush` goes on once the bytes are sent that it has found. -/
theorem barrier_resume {s s' : SocketWrite.Socket α} {marks : List (List α)} {j : Nat} (h : Barrier s marks)
    (hs : s.step (.resume j) = some (s', [.flushed])) : ∃ m, marks[j]? = some m ∧ m <+: s'.sent := by
  simp only [SocketWrite.Socket.step] at hs
  split at hs
  · cases hs
  · next p hp =>
    have hj : j < marks.length := h.length ▸ (List.getElem?_eq_some_iff.1 hp).1
    have hm := List.getElem?_eq_getElem hj
    split at hs <;> obtain ⟨rfl, he⟩ := Prod.mk.inj (Option.some.inj hs)
    · cases he
    · next v hv => exact ⟨_, hm, (h.found j p _ hp hm).2.2 (by rw [hv]; rfl)⟩
    · cases he

/-- A step of the write side at the other end from `i`. -/
theorem step_write_inv {b : SocketWrite.Act α} (h : Joined es c)
    (hs : c.step (.write i.rev b) = some (c', [.write i.rev .flushed])) :
    (c.peer i.rev).tx.step b = some ((c'.peer i.rev).tx, [.flushed]) ∧
      ∀ m, m <+: (c'.peer i.rev).tx.sent → Readable i c' (received i es) m := by
  have hJ := h.write hs
  obtain ⟨r, hr, he⟩ := Option.map_eq_some_iff.1 hs
  obtain ⟨rfl, hmap⟩ := Prod.mk.inj he
  obtain ⟨u, hu, rfl⟩ := Option.map_eq_some_iff.1 hr
  refine ⟨?_, fun m hm => ?_⟩
  · obtain ⟨ev, hev, heq⟩ := List.map_eq_singleton_iff.1 hmap
    obtain ⟨-, rfl⟩ := Event.write.inj heq
    rw [setPeer_peer, if_pos rfl, hu]
    exact congrArg (fun e => some (u.1, e)) hev
  · have hreceived : received i (es ++ [.write i.rev .flushed]) = received i es := by
      rw [received, List.filterMap_append]
      exact congrArg taken (List.append_nil _)
    rw [← hreceived]
    exact hJ.readable hm

end Runs

end Connection

/-! ## `~socket` -/

open SocketWrite (Socket LoopPc Loop)
open SocketWrite.Socket (Orderly Stuck Sending Idle)

/-- How far `~socket` is. -/
inductive Phase where
  | alive
  /-- Its `flush` waits on the promise `p`. -/
  | flushing (p : PromId)
  /-- `my` is deleted. -/
  | deleted
  deriving DecidableEq, Repr

/-- A socket and its destructor. -/
structure Owned (α : Type) where
  socket : Socket α := {}
  phase : Phase := .alive

inductive OwnedAct (α : Type) where
  /-- A step of the write side. -/
  | socket (a : SocketWrite.Act α)
  /-- `~socket` is called. -/
  | destroy
  /-- The `flush` of `~socket` goes on: what it throws is caught. -/
  | flushed
  deriving DecidableEq, Repr

inductive OwnedEvent where
  | socket (e : SocketWrite.Event)
  /-- A `write_loop` goes on whose buffers are freed. -/
  | usedAfterFree
  deriving DecidableEq, Repr

/-- A call of a member function, which the client must not make on an object that is being destroyed. -/
def isCall : SocketWrite.Act α → Bool
  | .write _ => true
  | .flush => true
  | _ => false

/-- A step of a `write_loop`. -/
def isLoop : SocketWrite.Act α → Bool
  | .start _ => true
  | .wrote _ _ => true
  | .fail _ _ _ => true
  | _ => false

namespace Owned

/-- One step. -/
def step (o : Owned α) : OwnedAct α → Option (Owned α × List OwnedEvent)
  | .socket a =>
    match o.phase with
    | .alive => (o.socket.step a).map fun r => ({ o with socket := r.1 }, r.2.map .socket)
    | .flushing _ =>
      if isCall a then none else (o.socket.step a).map fun r => ({ o with socket := r.1 }, r.2.map .socket)
    | .deleted => if isLoop a ∧ (o.socket.step a).isSome then some (o, [.usedAfterFree]) else none
  | .destroy =>
    match o.phase, o.socket.writeComplete with
    | .alive, none => some ({ o with phase := .deleted }, [])
    | .alive, some p => if (o.socket.prom p).ready then some ({ o with phase := .deleted }, [])
      else some ({ o with phase := .flushing p }, [])
    | _, _ => none
  | .flushed =>
    match o.phase with
    | .flushing _ => some ({ o with phase := .deleted }, [])
    | _ => none

/-- The `flush` of `~socket` goes on because the promise is settled, not because its context is woken otherwise. -/
def settled (o : Owned α) : OwnedAct α → Bool
  | .flushed =>
    match o.phase with
    | .flushing p => (o.socket.prom p).ready
    | _ => true
  | _ => true

/-- The promise of a loop that is pending or active is not settled. -/
def Unsettled (s : Socket α) : Prop :=
  ∀ l ∈ s.loops, (s.prom l.prom).ready = false ∧ l.prom < s.promCount

section Destroy
variable {s s' : Socket α} {a : SocketWrite.Act α} {e : List SocketWrite.Event}

theorem Unsettled.write (h : Unsettled s) (b : List α) : Unsettled (s.write b).1 := by
  simp only [Socket.write]
  split
  · exact h
  · split
    · exact h
    · split
      · intro l hl
        rcases List.mem_append.1 hl with hl | hl
        · obtain ⟨hready, hlt⟩ := h l hl
          refine ⟨?_, Nat.lt_succ_of_lt hlt⟩
          show (if l.prom = s.promCount then ({} : Promise Unit) else s.prom l.prom).ready = false
          rw [if_neg (Nat.ne_of_lt hlt)]
          exact hready
        · obtain rfl := List.mem_singleton.1 hl
          refine ⟨?_, Nat.lt_succ_self _⟩
          show (if s.promCount = s.promCount then ({} : Promise Unit) else s.prom s.promCount).ready = false
          rw [if_pos rfl]
          rfl
      · exact h

/-- A loop of the same promise takes the place of loop `i`. -/
theorem Unsettled.set (h : Unsettled s) {i : Nat} {l l' : Loop} (hi : s.loops[i]? = some l) (hp : l'.prom = l.prom)
    (hs : s'.loops = s.loops.set i l') (hprom : s'.prom = s.prom) (hcount : s'.promCount = s.promCount) :
    Unsettled s' := by
  intro k hk
  rw [hprom, hcount]
  rw [hs] at hk
  rcases List.mem_or_eq_of_mem_set hk with hk | rfl
  · exact h k hk
  · rw [hp]
    exact h l (List.mem_of_getElem? hi)

/-- The only loop is gone. -/
theorem unsettled_nil (h : s.loops = []) : Unsettled s := by
  intro l hl
  rw [h] at hl
  cases hl

/-- The loop that settles its promise is the only one. -/
theorem settle_loops (hO : Orderly s ∨ Stuck s) {i : Nat} {l : Loop} (hi : s.loops[i]? = some l) :
    s.loops.eraseIdx i = [] := by
  have hmem := List.mem_of_getElem? hi
  rcases hO with (⟨k, hS⟩ | hI) | hT
  · obtain ⟨rfl, rfl⟩ := hS.eq_loop hi
    rw [hS.loops]
    rfl
  · rw [hI.loops] at hmem
    cases hmem
  · rw [hT.loops] at hmem
    cases hmem

theorem Unsettled.step (h : Unsettled s) (hO : Orderly s ∨ Stuck s) (hs : s.step a = some (s', e)) :
    Unsettled s' := by
  cases a with
  | write b =>
    obtain ⟨rfl, -⟩ := Prod.mk.inj (Option.some.inj hs)
    exact h.write b
  | flush =>
    simp only [Socket.step] at hs
    split at hs
    · obtain ⟨rfl, -⟩ := Prod.mk.inj (Option.some.inj hs)
      exact h
    · split at hs <;> obtain ⟨rfl, -⟩ := Prod.mk.inj (Option.some.inj hs) <;> exact h
  | resume j =>
    simp only [Socket.step] at hs
    split at hs
    · cases hs
    · next p hp =>
      split at hs <;> obtain ⟨rfl, -⟩ := Prod.mk.inj (Option.some.inj hs)
      · -- the error that is taken out is not of a loop that goes on
        intro l hl
        obtain ⟨hready, hlt⟩ := h l hl
        refine ⟨?_, hlt⟩
        simp only [Promise.ready, Bool.or_eq_false_iff] at hready
        simp only [Socket.modProm]
        split
        · simpa [Promise.ready] using hready.2
        · simp [Promise.ready, hready]
      · exact h
      · exact h
  | start i =>
    simp only [Socket.step] at hs
    split at hs
    · next p idx hi =>
      obtain ⟨rfl, -⟩ := Prod.mk.inj (Option.some.inj hs)
      have hset : Unsettled (s.enterLoop i ⟨p, .pending idx⟩ idx) :=
        h.set hi (rfl : (⟨p, .writing idx 0 (s.writeBuf idx).length⟩ : Loop).prom = _) rfl rfl rfl
      exact hset
    · cases hs
  | wrote i n =>
    simp only [Socket.step] at hs
    split at hs
    · next p idx m size hi =>
      split at hs
      · split at hs
        · obtain ⟨rfl, -⟩ := Prod.mk.inj (Option.some.inj hs)
          exact h.set hi (rfl : (⟨p, .writing idx (m + n) size⟩ : Loop).prom = _) rfl rfl rfl
        · obtain ⟨u, hu, heq⟩ := Option.map_eq_some_iff.1 hs
          obtain ⟨rfl, -⟩ := Prod.mk.inj heq
          simp only [Socket.bufferSent] at hu
          split at hu
          · cases hu
          · split at hu <;> obtain rfl := Option.some.inj hu
            · exact h.set hi (rfl : (⟨p, .writing (idx + 1) 0 _⟩ : Loop).prom = _) rfl rfl rfl
            · exact unsettled_nil (settle_loops hO hi)
      · cases hs
    · cases hs
  | fail i n er =>
    simp only [Socket.step] at hs
    split at hs
    · next p idx m size hi =>
      split at hs
      · obtain ⟨rfl, -⟩ := Prod.mk.inj (Option.some.inj hs)
        exact unsettled_nil (settle_loops hO hi)
      · cases hs
    · cases hs

/-- What a step changes at the promise that `~socket` waits on: nothing but whether it is settled. -/
theorem step_complete (hcall : isCall a = false) (hs : s.step a = some (s', e)) :
    s'.writeComplete = s.writeComplete := by
  cases a with
  | write b => cases hcall
  | flush => cases hcall
  | resume j =>
    simp only [Socket.step] at hs
    split at hs
    · cases hs
    · split at hs <;> obtain ⟨rfl, -⟩ := Prod.mk.inj (Option.some.inj hs) <;> rfl
  | start i =>
    simp only [Socket.step] at hs
    split at hs
    · obtain ⟨rfl, -⟩ := Prod.mk.inj (Option.some.inj hs)
      rfl
    · cases hs
  | wrote i n =>
    simp only [Socket.step] at hs
    split at hs
    · split at hs
      · split at hs
        · obtain ⟨rfl, -⟩ := Prod.mk.inj (Option.some.inj hs)
          rfl
        · obtain ⟨u, hu, heq⟩ := Option.map_eq_some_iff.1 hs
          obtain ⟨rfl, -⟩ := Prod.mk.inj heq
          simp only [Socket.bufferSent] at hu
          split at hu
          · cases hu
          · split at hu <;> obtain rfl := Option.some.inj hu <;> rfl
      · cases hs
    · cases hs
  | fail i n er =>
    simp only [Socket.step] at hs
    split at hs
    · split at hs
      · obtain ⟨rfl, -⟩ := Prod.mk.inj (Option.some.inj hs)
        rfl
      · cases hs
    · cases hs

/-- A loop that is pending or active has the promise of `write_complete`. -/
theorem loop_complete (hO : Orderly s ∨ Stuck s) {l : Loop} (hl : l ∈ s.loops) : s.writeComplete = some l.prom := by
  rcases hO with (⟨k, hS⟩ | hI) | hT
  · rw [hS.loops] at hl
    obtain rfl := List.mem_singleton.1 hl
    exact hS.complete
  · rw [hI.loops] at hl
    cases hl
  · rw [hT.loops] at hl
    cases hl

end Destroy

/-- The loops of the socket, by how far `~socket` is. -/
structure Lives (o : Owned α) : Prop where
  state : Orderly o.socket ∨ Stuck o.socket
  unsettled : Unsettled o.socket
  flushing : ∀ p, o.phase = .flushing p → o.socket.writeComplete = some p
  deleted : o.phase = .deleted → o.socket.loops = []

section Runs
variable {o o' : Owned α} {a : OwnedAct α} {es e : List OwnedEvent}

/-- A settled promise of `write_complete` means that no loop is pending or active. -/
theorem Lives.done (h : Lives o) {p : PromId} (hp : o.socket.writeComplete = some p)
    (hready : (o.socket.prom p).ready = true) : o.socket.loops = [] := by
  rw [List.eq_nil_iff_forall_not_mem]
  intro l hl
  obtain rfl := Option.some.inj ((loop_complete h.state hl).symm.trans hp)
  rw [(h.unsettled l hl).1] at hready
  cases hready

theorem lives_init : Lives ({} : Owned α) :=
  ⟨.inl (.inr SocketWrite.Socket.idle_init), fun l hl => (by cases hl), fun p hp => (by cases hp), fun _ => rfl⟩

theorem Lives.socket {b : SocketWrite.Act α} {ev : List SocketWrite.Event} {u : Socket α} (h : Lives o)
    (hcall : ∀ p, o.phase = .flushing p → isCall b = false) (hphase : o.phase ≠ .deleted)
    (hs : o.socket.step b = some (u, ev)) : Lives { o with socket := u } := by
  refine ⟨(SocketWrite.Socket.advances h.state hs).2, h.unsettled.step h.state hs, fun p hp => ?_, fun hp => ?_⟩
  · exact (step_complete (hcall p hp) hs).trans (h.flushing p hp)
  · exact absurd hp hphase

/-- A deleted socket has no loop that could go on. -/
theorem loop_needs {s s' : Socket α} {b : SocketWrite.Act α} {ev : List SocketWrite.Event} (hloop : isLoop b = true)
    (hs : s.step b = some (s', ev)) : s.loops ≠ [] := by
  intro hnil
  cases b with
  | start i => simp [Socket.step, hnil] at hs
  | wrote i n => simp [Socket.step, hnil] at hs
  | fail i n er => simp [Socket.step, hnil] at hs
  | write | flush | resume => cases hloop

theorem Lives.step (h : Lives o) (hok : o.settled a = true) (hs : o.step a = some (o', e)) :
    Lives o' ∧ .usedAfterFree ∉ e := by
  have hmap : ∀ ev : List SocketWrite.Event, OwnedEvent.usedAfterFree ∉ ev.map .socket := by simp
  cases a with
  | socket b =>
    simp only [Owned.step] at hs
    split at hs
    · next hphase =>
      obtain ⟨r, hr, he⟩ := Option.map_eq_some_iff.1 hs
      obtain ⟨rfl, rfl⟩ := Prod.mk.inj he
      exact ⟨h.socket (fun p hp => by rw [hphase] at hp; cases hp) (by rw [hphase]; exact Phase.noConfusion) hr, hmap _⟩
    · next hphase =>
      split at hs
      · cases hs
      · next hcall =>
        obtain ⟨r, hr, he⟩ := Option.map_eq_some_iff.1 hs
        obtain ⟨rfl, rfl⟩ := Prod.mk.inj he
        exact ⟨h.socket (fun _ _ => by simpa using hcall) (by rw [hphase]; exact Phase.noConfusion) hr, hmap _⟩
    · next hphase =>
      split at hs
      · next hloop =>
        obtain ⟨⟨u, ev⟩, hu⟩ := Option.isSome_iff_exists.1 hloop.2
        exact absurd (h.deleted hphase) (loop_needs hloop.1 hu)
      · cases hs
  | destroy =>
    simp only [Owned.step] at hs
    split at hs
    · next hphase hc =>
      obtain ⟨rfl, rfl⟩ := Prod.mk.inj (Option.some.inj hs)
      refine ⟨⟨h.state, h.unsettled, fun p hp => (by cases hp), fun _ => ?_⟩, List.not_mem_nil⟩
      rw [List.eq_nil_iff_forall_not_mem]
      intro l hl
      have hp := loop_complete h.state hl
      rw [hc] at hp
      cases hp
    · next p hphase hc =>
      split at hs <;> obtain ⟨rfl, rfl⟩ := Prod.mk.inj (Option.some.inj hs)
      · next hready =>
        exact ⟨⟨h.state, h.unsettled, fun p hp => (by cases hp), fun _ => h.done hc hready⟩, List.not_mem_nil⟩
      · refine ⟨⟨h.state, h.unsettled, fun q hq => ?_, fun hq => by cases hq⟩, List.not_mem_nil⟩
        obtain rfl := Phase.flushing.inj hq
        exact hc
    · cases hs
  | flushed =>
    simp only [Owned.step] at hs
    split at hs
    · next p hphase =>
      obtain ⟨rfl, rfl⟩ := Prod.mk.inj (Option.some.inj hs)
      simp only [settled, hphase] at hok
      exact ⟨⟨h.state, h.unsettled, fun q hq => (by cases hq), fun _ => h.done (h.flushing p hphase) hok⟩, List.not_mem_nil⟩
    · cases hs

/-- The context in `~socket` is woken by a cancellation: the loop goes on with freed buffers. -/
theorem woken_destructor_frees : ∃ (o : Owned Nat) (es : List OwnedEvent),
    Run Owned.step (fun _ _ _ _ => True) {} o es ∧ OwnedEvent.usedAfterFree ∈ es := by
  obtain ⟨o, es, hrun, hf⟩ := run_of_check Owned.step (fun _ _ _ _ => True) (fun _ _ _ _ => true) ({} : Owned Nat)
    (fun _ es => es.contains .usedAfterFree)
    [.socket (.write [1]), .socket (.start 0), .destroy, .flushed, .socket (.wrote 0 1)] (fun _ _ _ _ _ => trivial)
    (by decide)
  exact ⟨o, es, hrun, List.contains_iff_mem.1 hf⟩

end Runs

end Owned

end BoostCmt.SocketConnection
