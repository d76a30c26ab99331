import BoostCmt.Lib.Runs
import BoostCmt.Types
import Mathlib.Data.List.Basic
import Mathlib.Data.Fin.Basic
/-!
# The write side of `asio::tcp::socket`

`detail::socket::write` appends to one of two buffers and starts `write_loop` as a
task of the same thread; `write_loop` sends the other buffer, and the two change
roles until both are empty. All of it runs on one thread, so a step is what happens
between two suspensions: a whole call of `write`, and the part of `write_loop` from
one return of `asio::write` to the next call of it.

`asio::write` is outside of this file: it hands over any piece of what it is offered, or
throws. A `flush` that finds the promise of `write_complete` unsettled blocks; when
the scheduler resumes it is left open here.

`sent` and `written` record what was handed to the socket and what `write` has
accepted.
-/

namespace BoostCmt.SocketWrite

open Runs

/-- Where a `write_loop` is. -/
inductive LoopPc where
  /-- The task is posted; its argument is `write_buf_idx`. -/
  | pending (writeBufIdx : Fin 2)
  /-- In `asio::write`, with `total_wrote` bytes of `size` handed over. -/
  | writing (writeBufIdx : Fin 2) (totalWrote size : Nat)
  deriving DecidableEq, Repr

def LoopPc.writeBufIdx : LoopPc → Fin 2
  | .pending i => i
  | .writing i _ _ => i

/-- How many bytes of its buffer a `write_loop` has handed over. -/
def LoopPc.totalWrote : LoopPc → Nat
  | .pending _ => 0
  | .writing _ n _ => n

/-- A `write_loop` that is pending or active, with the promise of its task. -/
structure Loop where
  prom : PromId
  pc : LoopPc
  deriving DecidableEq, Repr

/-- `detail::socket`; `loops` are the tasks it has posted that have not returned, and `blocked` the promises that
blocked calls of `flush` wait on. -/
structure Socket (α : Type) where
  writeBuf : Fin 2 → List α := fun _ => []
  curWriteBuf : Option (Fin 2) := none
  curWbufIdx : Fin 2 := 0
  writeComplete : Option PromId := none
  prom : PromId → Promise Unit := fun _ => {}
  promCount : Nat := 0
  loops : List Loop := []
  blocked : List PromId := []
  sent : List α := []
  written : List α := []

inductive Act (α : Type) where
  | write (buffer : List α)
  | flush
  /-- The blocked `flush` number `j` goes on after `thread::wait`. -/
  | resume (j : Nat)
  /-- The task of loop `i` is run, up to its first `asio::write`. -/
  | start (i : Nat)
  /-- The `asio::write` of loop `i` returns `wrote`. -/
  | wrote (i : Nat) (wrote : Nat)
  /-- The `asio::write` of loop `i` hands over `n` bytes and throws `e`. -/
  | fail (i : Nat) (n : Nat) (e : Error)
  deriving DecidableEq, Repr

/-- How a call of `write` or `flush` ends. -/
inductive Event where
  | returned (size : Nat)
  | flushed
  | threw (e : Error)
  deriving DecidableEq, Repr

variable {α : Type}

namespace Socket

def setBuf (s : Socket α) (i : Fin 2) (b : List α) : Socket α :=
  { s with writeBuf := fun j => if j = i then b else s.writeBuf j }

def modProm (s : Socket α) (p : PromId) (f : Promise Unit → Promise Unit) : Socket α :=
  { s with prom := fun q => if q = p then f (s.prom q) else s.prom q }

/-- `write_complete.error()`. -/
def error (s : Socket α) : Option Error := s.writeComplete.bind fun p => (s.prom p).error

/-- `resize` and `memcpy` on `*cur_write_buf`. -/
def append (s : Socket α) (cur : Fin 2) (buffer : List α) : Socket α :=
  { s.setBuf cur (s.writeBuf cur ++ buffer) with written := s.written ++ buffer }

/-- `write_complete = async( write_loop( cur_wbuf_idx ) )`, and the buffers change roles. -/
def postLoop (s : Socket α) : Socket α :=
  { s.modProm s.promCount (fun _ => {}) with
    promCount := s.promCount + 1
    writeComplete := some s.promCount
    loops := s.loops ++ [{ prom := s.promCount, pc := .pending s.curWbufIdx }]
    curWbufIdx := s.curWbufIdx + 1
    curWriteBuf := some (s.curWbufIdx + 1) }

/-- `detail::socket::write`. It calls `write_complete.wait()` only when that throws at once. -/
def write (s : Socket α) (buffer : List α) : Socket α × Event :=
  match s.error with
  | some e => (s, .threw e)
  | none =>
    if buffer.length = 0 then (s, .returned 0)
    else
      match s.curWriteBuf with
      | none =>
        let s := { s with curWbufIdx := 0, curWriteBuf := some 0 }
        ((s.append 0 buffer).postLoop, .returned buffer.length)
      | some cur => (s.append cur buffer, .returned buffer.length)

/-- The head of the loop of `write_loop`, up to `asio::write`. -/
def enterLoop (s : Socket α) (i : Nat) (l : Loop) (writeBufIdx : Fin 2) : Socket α :=
  { s with loops := s.loops.set i { l with pc := .writing writeBufIdx 0 (s.writeBuf writeBufIdx).length } }

/-- `rtask::run` settles the promise of a loop that has returned or thrown. -/
def settle (s : Socket α) (i : Nat) (l : Loop) (f : Promise Unit → Promise Unit) : Socket α :=
  { s.modProm l.prom f with loops := s.loops.eraseIdx i }

/-- The end of the loop of `write_loop`, once a buffer is sent; `none` where it follows a null `cur_write_buf`. -/
def bufferSent (s : Socket α) (i : Nat) (l : Loop) (writeBufIdx : Fin 2) : Option (Socket α) :=
  let s := s.setBuf writeBufIdx []
  match s.curWriteBuf with
  | none => none
  | some cur =>
    if (s.writeBuf cur).length ≠ 0 then
      let s := { s with curWbufIdx := s.curWbufIdx + 1, curWriteBuf := some (s.curWbufIdx + 1) }
      some (s.enterLoop i l (writeBufIdx + 1))
    else
      let s := { s with curWbufIdx := 0, curWriteBuf := none }
      some (s.settle i l (fun q => { q with value := some () }))

/-- What `asio::write` hands over: `n` bytes from `buffer` on. -/
def handOver (s : Socket α) (writeBufIdx : Fin 2) (totalWrote n : Nat) : Socket α :=
  { s with sent := s.sent ++ ((s.writeBuf writeBufIdx).drop totalWrote).take n }

/-- One step. -/
def step (s : Socket α) : Act α → Option (Socket α × List Event)
  | .write buffer => let (s, e) := s.write buffer; some (s, [e])
  | .flush =>
    match s.writeComplete with
    | none => some (s, [.flushed])
    | some p =>
      match (s.prom p).error, (s.prom p).value with
      | some e, _ => some (s, [.threw e])
      | none, some _ => some (s, [.flushed])
      | none, none => some ({ s with blocked := s.blocked ++ [p] }, [])
  | .resume j =>
    match s.blocked[j]? with
    | none => none
    | some p =>
      let s := { s with blocked := s.blocked.eraseIdx j }
      match (s.prom p).error, (s.prom p).value with
      | some e, _ => some (s.modProm p (fun q => { q with error := none }), [.threw e])
      | none, some _ => some (s, [.flushed])
      | none, none => some (s, [.threw .futureValueNotReady])
  | .start i =>
    match s.loops[i]? with
    | some ⟨p, .pending idx⟩ => some (s.enterLoop i ⟨p, .pending idx⟩ idx, [])
    | _ => none
  | .wrote i wrote =>
    match s.loops[i]? with
    | some ⟨p, .writing idx n size⟩ =>
      if wrote ≤ size - n ∧ (1 ≤ wrote ∨ size = n) then
        let s := s.handOver idx n wrote
        if n + wrote < size then
          some ({ s with loops := s.loops.set i ⟨p, .writing idx (n + wrote) size⟩ }, [])
        else (s.bufferSent i ⟨p, .writing idx (n + wrote) size⟩ idx).map (·, [])
      else none
    | _ => none
  | .fail i n e =>
    match s.loops[i]? with
    | some ⟨p, .writing idx m size⟩ =>
      if n ≤ size - m then
        some ((s.handOver idx m n).settle i ⟨p, .writing idx m size⟩ (fun q => { q with error := some e }), [])
      else none
    | _ => none

/-! ## The two buffers -/

/-- One loop `l` is pending or active: it sends the buffer that `write` does not append to. -/
structure Sending (s : Socket α) (l : Loop) : Prop where
  loops : s.loops = [l]
  cur : s.curWriteBuf = some (l.pc.writeBufIdx + 1)
  idx : s.curWbufIdx = l.pc.writeBufIdx + 1
  complete : s.writeComplete = some l.prom
  bytes : s.written = s.sent ++ (s.writeBuf l.pc.writeBufIdx).drop l.pc.totalWrote ++ s.writeBuf (l.pc.writeBufIdx + 1)
  unsent : l.pc.totalWrote < (s.writeBuf l.pc.writeBufIdx).length
  size : ∀ i n size, l.pc = .writing i n size → size = (s.writeBuf i).length

/-- No loop is pending or active, and everything is sent. -/
structure Idle (s : Socket α) : Prop where
  loops : s.loops = []
  cur : s.curWriteBuf = none
  empty : ∀ i, s.writeBuf i = []
  bytes : s.written = s.sent

/-- The last loop has failed, and its error stays in the promise of `write_complete`: no `flush` is blocked that
could take it out. -/
structure Failed (s : Socket α) : Prop where
  loops : s.loops = []
  error : ∃ p e, s.writeComplete = some p ∧ (s.prom p).error = some e ∧ p ∉ s.blocked

theorem other_ne (i : Fin 2) : i + 1 ≠ i := by revert i; decide

theorem other_other (i : Fin 2) : i + 1 + 1 = i := by revert i; decide

@[simp] theorem setBuf_writeBuf (s : Socket α) (i j : Fin 2) (b : List α) :
    (s.setBuf i b).writeBuf j = if j = i then b else s.writeBuf j := rfl

@[simp] theorem setBuf_sent (s : Socket α) (i : Fin 2) (b : List α) : (s.setBuf i b).sent = s.sent := rfl

section Steps
variable {s s' : Socket α} {l : Loop} {e : List Event}

/-- Neither the buffers nor the loops have changed. -/
theorem Sending.same (h : Sending s l) (hb : s'.writeBuf = s.writeBuf) (hl : s'.loops = s.loops)
    (hc : s'.curWriteBuf = s.curWriteBuf ∧ s'.curWbufIdx = s.curWbufIdx ∧ s'.writeComplete = s.writeComplete)
    (hw : s'.sent = s.sent ∧ s'.written = s.written) : Sending s' l := by
  refine ⟨hl.trans h.loops, hc.1.trans h.cur, hc.2.1.trans h.idx, hc.2.2.trans h.complete, ?_, ?_, ?_⟩
  · rw [hb, hw.1, hw.2]
    exact h.bytes
  · rw [hb]
    exact h.unsent
  · rw [hb]
    exact h.size

/-- `write` appends to the buffer that is not being sent. -/
theorem Sending.append (h : Sending s l) (b : List α) : Sending (s.append (l.pc.writeBufIdx + 1) b) l := by
  have hb : (s.append (l.pc.writeBufIdx + 1) b).writeBuf l.pc.writeBufIdx = s.writeBuf l.pc.writeBufIdx :=
    if_neg (other_ne _).symm
  refine ⟨h.loops, h.cur, h.idx, h.complete, ?_, ?_, fun i n size hpc => ?_⟩
  · rw [hb]
    simp [Socket.append, h.bytes, List.append_assoc]
  · rw [hb]
    exact h.unsent
  · have hi : l.pc.writeBufIdx = i := by rw [hpc]; rfl
    rw [← hi, hb, hi]
    exact h.size i n size hpc

/-- The first `write` after an idle time posts a loop. -/
theorem Idle.first (h : Idle s) {b : List α} (hb : b.length ≠ 0) :
    Sending ({ s with curWbufIdx := 0, curWriteBuf := some 0 }.append 0 b).postLoop
      { prom := s.promCount, pc := .pending 0 } := by
  refine ⟨?_, rfl, rfl, rfl, ?_, ?_, fun i n size hpc => by cases hpc⟩
  · show s.loops ++ _ = _
    rw [h.loops]
    rfl
  · simp [postLoop, Socket.append, modProm, LoopPc.writeBufIdx, LoopPc.totalWrote, h.empty, h.bytes]
  · simpa [postLoop, Socket.append, modProm, LoopPc.writeBufIdx, LoopPc.totalWrote, h.empty] using Nat.pos_of_ne_zero hb

/-- `asio::write` has handed over `n` more bytes. -/
theorem Sending.handOver {p : PromId} {i : Fin 2} {n size : Nat} (h : Sending s ⟨p, .writing i n size⟩)
    (wrote : Nat) :
    (s.handOver i n wrote).written =
      (s.handOver i n wrote).sent ++ (s.writeBuf i).drop (n + wrote) ++ s.writeBuf (i + 1) := by
  have hb := h.bytes
  simp only [LoopPc.writeBufIdx, LoopPc.totalWrote] at hb
  show s.written = s.sent ++ ((s.writeBuf i).drop n).take wrote ++ (s.writeBuf i).drop (n + wrote) ++ s.writeBuf (i + 1)
  rw [hb, ← List.drop_drop, List.append_assoc s.sent (List.take _ _), List.take_append_drop]

/-- Part of the buffer is sent. -/
theorem Sending.wrote {p : PromId} {i : Fin 2} {n wrote size : Nat} (h : Sending s ⟨p, .writing i n size⟩)
    (hlt : n + wrote < size) :
    Sending { s.handOver i n wrote with loops := (s.handOver i n wrote).loops.set 0 ⟨p, .writing i (n + wrote) size⟩ }
      ⟨p, .writing i (n + wrote) size⟩ := by
  have hsize := h.size i n size rfl
  refine ⟨?_, h.cur, h.idx, h.complete, h.handOver wrote, ?_, fun j m size' hpc => ?_⟩
  · show s.loops.set 0 _ = _
    rw [h.loops]
    rfl
  · exact hsize ▸ hlt
  · obtain ⟨rfl, rfl, rfl⟩ := LoopPc.writing.inj hpc
    exact hsize

/-- The whole buffer is sent: the loop goes on with the other one, or returns. -/
theorem Sending.bufferSent {p : PromId} {i : Fin 2} {n wrote size : Nat} (h : Sending s ⟨p, .writing i n size⟩)
    (hge : ¬ n + wrote < size)
    (hs : (s.handOver i n wrote).bufferSent 0 ⟨p, .writing i (n + wrote) size⟩ i = some s') :
    (∃ l, Sending s' l) ∨ Idle s' := by
  have hsize := h.size i n size rfl
  have hb := h.handOver wrote
  rw [List.drop_of_length_le (by omega), List.append_nil] at hb
  have hcur : ((s.handOver i n wrote).setBuf i []).curWriteBuf = some (i + 1) := h.cur
  have hbuf : ((s.handOver i n wrote).setBuf i []).writeBuf (i + 1) = s.writeBuf (i + 1) := if_neg (other_ne i)
  have hidx : s.curWbufIdx = i + 1 := h.idx
  simp only [Socket.bufferSent, hcur] at hs
  split at hs
  · next hne =>
    obtain rfl := Option.some.inj hs
    refine .inl ⟨⟨p, .writing (i + 1) 0 (s.writeBuf (i + 1)).length⟩, ?_, ?_, ?_, h.complete, ?_, ?_, fun j m size' hpc => ?_⟩
    · show s.loops.set 0 _ = _
      rw [h.loops, ← hbuf]
      rfl
    · exact congrArg (fun x => some (x + 1)) hidx
    · exact congrArg (· + 1) hidx
    · show (s.handOver i n wrote).written = (s.handOver i n wrote).sent ++ (if i + 1 = i then [] else s.writeBuf (i + 1)) ++
        if i + 1 + 1 = i then [] else s.writeBuf (i + 1 + 1)
      rw [if_neg (other_ne i), if_pos (other_other i), List.append_nil]
      exact hb
    · rw [hbuf] at hne
      show 0 < (if i + 1 = i then [] else s.writeBuf (i + 1)).length
      rw [if_neg (other_ne i)]
      exact Nat.pos_of_ne_zero hne
    · obtain ⟨rfl, rfl, rfl⟩ := LoopPc.writing.inj hpc
      exact congrArg List.length hbuf.symm
  · next hnil =>
    obtain rfl := Option.some.inj hs
    rw [hbuf, not_not, List.length_eq_zero_iff] at hnil
    refine .inr ⟨?_, rfl, fun j => ?_, ?_⟩
    · show s.loops.eraseIdx 0 = []
      rw [h.loops]
      rfl
    · show (if j = i then [] else s.writeBuf j) = []
      split
      · rfl
      · next hj =>
        have : j = i + 1 := by omega
        rw [this, hnil]
    · rw [hnil, List.append_nil] at hb
      exact hb

/-- A loop of `Sending` is the only one. -/
theorem Sending.eq_loop (h : Sending s l) {i : Nat} {l' : Loop} (hi : s.loops[i]? = some l') : i = 0 ∧ l' = l := by
  rw [h.loops] at hi
  cases i with
  | zero => exact ⟨rfl, (Option.some.inj hi).symm⟩
  | succ i => simp at hi

end Steps

/-- The lower-level write of this action fails. -/
def fails : Act α → Bool
  | .fail _ _ _ => true
  | _ => false

/-- At most one loop, and the bytes in order. -/
def Orderly (s : Socket α) : Prop := (∃ l, Sending s l) ∨ Idle s

section Run
variable {s s' : Socket α} {a : Act α} {e : List Event}

theorem Orderly.write (h : Orderly s) (b : List α) : Orderly (s.write b).1 := by
  unfold Socket.write
  split
  · exact h
  · split
    · exact h
    · next hb =>
      rcases h with ⟨l, h⟩ | h
      · rw [h.cur]
        exact .inl ⟨l, h.append b⟩
      · rw [h.cur]
        exact .inl ⟨_, h.first hb⟩

/-- Only promises and blocked calls have changed. -/
theorem Orderly.same (h : Orderly s) (hb : s'.writeBuf = s.writeBuf) (hl : s'.loops = s.loops)
    (hc : s'.curWriteBuf = s.curWriteBuf ∧ s'.curWbufIdx = s.curWbufIdx ∧ s'.writeComplete = s.writeComplete)
    (hw : s'.sent = s.sent ∧ s'.written = s.written) : Orderly s' := by
  rcases h with ⟨l, h⟩ | h
  · exact .inl ⟨l, h.same hb hl hc hw⟩
  · refine .inr ⟨hl.trans h.loops, hc.1.trans h.cur, fun i => (congrFun hb i).trans (h.empty i), ?_⟩
    rw [hw.1, hw.2]
    exact h.bytes

theorem Orderly.step (h : Orderly s) (ha : fails a = false) (hs : s.step a = some (s', e)) : Orderly s' := by
  cases a with
  | write b =>
    obtain ⟨rfl, -⟩ := Prod.mk.inj (Option.some.inj hs)
    exact h.write b
  | flush =>
    simp only [Socket.step] at hs
    split at hs
    · obtain ⟨rfl, -⟩ := Prod.mk.inj (Option.some.inj hs)
      exact h
    · split at hs <;> obtain ⟨rfl, -⟩ := Prod.mk.inj (Option.some.inj hs)
      · exact h
      · exact h
      · exact h.same rfl rfl ⟨rfl, rfl, rfl⟩ ⟨rfl, rfl⟩
  | resume j =>
    simp only [Socket.step] at hs
    split at hs
    · cases hs
    · split at hs <;> obtain ⟨rfl, -⟩ := Prod.mk.inj (Option.some.inj hs) <;>
        exact h.same rfl rfl ⟨rfl, rfl, rfl⟩ ⟨rfl, rfl⟩
  | start i =>
    simp only [Socket.step] at hs
    split at hs
    · next p idx hi =>
      obtain ⟨rfl, -⟩ := Prod.mk.inj (Option.some.inj hs)
      rcases h with ⟨l, h⟩ | h
      · obtain ⟨rfl, rfl⟩ := h.eq_loop hi
        refine .inl ⟨⟨p, .writing idx 0 (s.writeBuf idx).length⟩, ?_, h.cur, h.idx, h.complete, h.bytes, h.unsent,
          fun i n size hpc => ?_⟩
        · show s.loops.set 0 _ = _
          rw [h.loops]
          rfl
        · obtain ⟨rfl, rfl, rfl⟩ := LoopPc.writing.inj hpc
          rfl
      · rw [h.loops] at hi
        simp at hi
    · cases hs
  | wrote i n =>
    simp only [Socket.step] at hs
    split at hs
    · next p idx m size hi =>
      rcases h with ⟨l, h⟩ | h
      · obtain ⟨rfl, rfl⟩ := h.eq_loop hi
        split at hs
        · split at hs
          · next hlt =>
            obtain ⟨rfl, -⟩ := Prod.mk.inj (Option.some.inj hs)
            exact .inl ⟨_, h.wrote hlt⟩
          · next hge =>
            obtain ⟨s₁, hs₁, heq⟩ := Option.map_eq_some_iff.1 hs
            obtain ⟨rfl, -⟩ := Prod.mk.inj heq
            exact h.bufferSent hge hs₁
        · cases hs
      · rw [h.loops] at hi
        simp at hi
    · cases hs
  | fail i n e => cases ha

/-- Nothing blocks on the promise of a loop that fails. -/
def failsAlone (s : Socket α) : Act α → Bool
  | .fail i _ _ =>
    match s.loops[i]? with
    | some l => l.prom ∉ s.blocked
    | none => true
  | _ => true

/-- A failure that no blocked `flush` will see. -/
theorem Orderly.fail (h : Orderly s) {i n : Nat} {er : Error} (ha : s.failsAlone (.fail i n er) = true)
    (hs : s.step (.fail i n er) = some (s', e)) : Failed s' := by
  simp only [Socket.step] at hs
  split at hs
  · next p idx m size hi =>
    rcases h with ⟨l, h⟩ | h
    · obtain ⟨rfl, rfl⟩ := h.eq_loop hi
      simp only [failsAlone, hi, decide_eq_true_eq] at ha
      split at hs
      · obtain ⟨rfl, -⟩ := Prod.mk.inj (Option.some.inj hs)
        refine ⟨?_, p, er, h.complete, congrArg Promise.error (if_pos rfl), ha⟩
        show s.loops.eraseIdx 0 = []
        rw [h.loops]
        rfl
      · cases hs
    · rw [h.loops] at hi
      simp at hi
  · cases hs

/-- The error stays: `write` and `flush` throw it without taking it out. -/
theorem Failed.step (h : Failed s) (hs : s.step a = some (s', e)) : Failed s' := by
  obtain ⟨hl, p, er, hc, hp, hb⟩ := h
  cases a with
  | write b =>
    obtain ⟨rfl, -⟩ := Prod.mk.inj (Option.some.inj hs)
    have he : s.error = some er := by simp [Socket.error, hc, hp]
    simp only [he]
    exact ⟨hl, p, er, hc, hp, hb⟩
  | flush =>
    simp only [Socket.step, hc, hp] at hs
    obtain ⟨rfl, -⟩ := Prod.mk.inj (Option.some.inj hs)
    exact ⟨hl, p, er, hc, hp, hb⟩
  | resume j =>
    simp only [Socket.step] at hs
    split at hs
    · cases hs
    · next q hq =>
      have hne : p ≠ q := fun e => hb (e ▸ List.mem_of_getElem? hq)
      have hb' : p ∉ s.blocked.eraseIdx j := fun hm => hb (List.mem_of_mem_eraseIdx hm)
      split at hs <;> obtain ⟨rfl, -⟩ := Prod.mk.inj (Option.some.inj hs)
      · exact ⟨hl, p, er, hc, (congrArg Promise.error (if_neg hne)).trans hp, hb'⟩
      · exact ⟨hl, p, er, hc, hp, hb'⟩
      · exact ⟨hl, p, er, hc, hp, hb'⟩
  | start i => simp [Socket.step, hl] at hs
  | wrote i n => simp [Socket.step, hl] at hs
  | fail i n e => simp [Socket.step, hl] at hs

end Run

/-! ## The byte stream -/

section Stream
variable {s s' : Socket α} {es e : List Event}

/-- Errors come from failed writes only. -/
theorem no_error_step {a : Act α} (h : ∀ p, (s.prom p).error = none) (ha : fails a = false)
    (hs : s.step a = some (s', e)) (p : PromId) : (s'.prom p).error = none := by
  have hmod : ∀ q (x : Promise Unit), x.error = none → (if p = q then x else s.prom p).error = none := by
    intro q x hx
    split
    · exact hx
    · exact h p
  cases a with
  | write b =>
    obtain ⟨rfl, -⟩ := Prod.mk.inj (Option.some.inj hs)
    split
    · exact h p
    · split
      · exact h p
      · split
        · exact hmod s.promCount {} rfl
        · exact h p
  | flush =>
    simp only [Socket.step] at hs
    split at hs
    · obtain ⟨rfl, -⟩ := Prod.mk.inj (Option.some.inj hs)
      exact h p
    · split at hs <;> obtain ⟨rfl, -⟩ := Prod.mk.inj (Option.some.inj hs) <;> exact h p
  | resume j =>
    simp only [Socket.step] at hs
    split at hs
    · cases hs
    · split at hs <;> obtain ⟨rfl, -⟩ := Prod.mk.inj (Option.some.inj hs)
      · exact hmod _ _ rfl
      · exact h p
      · exact h p
  | start i =>
    simp only [Socket.step] at hs
    split at hs
    · obtain ⟨rfl, -⟩ := Prod.mk.inj (Option.some.inj hs)
      exact h p
    · cases hs
  | wrote i n =>
    simp only [Socket.step] at hs
    split at hs
    · split at hs
      · split at hs
        · obtain ⟨rfl, -⟩ := Prod.mk.inj (Option.some.inj hs)
          exact h p
        · obtain ⟨s₁, hs₁, heq⟩ := Option.map_eq_some_iff.1 hs
          obtain ⟨rfl, -⟩ := Prod.mk.inj heq
          simp only [Socket.bufferSent] at hs₁
          split at hs₁
          · cases hs₁
          · split at hs₁ <;> obtain rfl := Option.some.inj hs₁
            · exact h p
            · exact hmod _ _ (h p)
      · cases hs
    · cases hs
  | fail i n e => cases ha

theorem idle_init : Idle ({} : Socket α) := ⟨rfl, rfl, fun _ => rfl, rfl⟩

/-- While no lower-level write fails, the write side is a first-in first-out byte stream: what has been handed over
is a prefix of what was written, which is all that was given to `write`; at most one `write_loop` is pending or
active and `write` does not touch the buffer it sends from; and when there is none, both buffers are empty and
every byte has been handed over. -/
theorem write_fifo (h : Run step (fun _ _ a _ => fails a = false) ({} : Socket α) s es) :
    s.sent <+: s.written ∧ (∀ b, (s.write b).2 = .returned b.length ∧ (s.write b).1.written = s.written ++ b) ∧
      s.loops.length ≤ 1 ∧
      (∀ l ∈ s.loops, ∀ b, (s.write b).1.writeBuf l.pc.writeBufIdx = s.writeBuf l.pc.writeBufIdx) ∧
      (s.loops = [] → (∀ i, s.writeBuf i = []) ∧ s.sent = s.written) := by
  obtain ⟨hO, hE⟩ := h.inv (fun _ s => Orderly s ∧ ∀ p, (s.prom p).error = none) ⟨.inr idle_init, fun _ => rfl⟩
    (fun _ _ a _ _ hI ha hs => ⟨hI.1.step (a := a) ha hs, no_error_step (a := a) hI.2 ha hs⟩)
  have herr : s.error = none := by
    simp only [Socket.error, Option.bind_eq_none_iff]
    exact fun p _ => hE p
  have hret : ∀ b, (s.write b).2 = .returned b.length ∧ (s.write b).1.written = s.written ++ b := by
    intro b
    simp only [Socket.write, herr]
    split
    · next hb => simp [List.length_eq_zero_iff.1 hb]
    · split <;> exact ⟨rfl, rfl⟩
  rcases hO with ⟨l, hS⟩ | hI
  · refine ⟨?_, hret, by simp [hS.loops], fun l' hl b => ?_, fun hn => ?_⟩
    · rw [hS.bytes, List.append_assoc]
      exact List.prefix_append _ _
    · rw [hS.loops, List.mem_singleton] at hl
      subst hl
      simp only [Socket.write, herr, hS.cur]
      split
      · rfl
      · exact if_neg (other_ne _).symm
    · rw [hS.loops] at hn
      cases hn
  · refine ⟨hI.bytes ▸ List.prefix_rfl, hret, by simp [hI.loops], ?_, fun _ => ⟨hI.empty, hI.bytes.symm⟩⟩
    rw [hI.loops]
    simp

/-- Three writes while the first buffer goes out in two pieces. -/
theorem write_fifo_three_writes : ∃ (s : Socket Nat) (es : List Event),
    (Run step (fun _ _ a _ => fails a = false) {} s es ∧ s.sent = [1, 2, 3, 4] ∧ s.written = [1, 2, 3, 4, 5]) ∧
      (s.sent <+: s.written ∧ (∀ b, (s.write b).2 = .returned b.length ∧ (s.write b).1.written = s.written ++ b) ∧
        s.loops.length ≤ 1 ∧
        (∀ l ∈ s.loops, ∀ b, (s.write b).1.writeBuf l.pc.writeBufIdx = s.writeBuf l.pc.writeBufIdx) ∧
        (s.loops = [] → (∀ i, s.writeBuf i = []) ∧ s.sent = s.written)) := by
  obtain ⟨s, es, hrun, hf⟩ :=
    run_of_check step (fun _ _ a _ => fails a = false) (fun _ _ a _ => !fails a) ({} : Socket Nat)
    (fun s _ => s.sent == [1, 2, 3, 4] && s.written == [1, 2, 3, 4, 5])
    [.write [1, 2], .write [3], .start 0, .wrote 0 1, .write [4], .wrote 0 1, .write [5], .wrote 0 2]
    (fun _ _ _ _ h => by simpa using h) (by decide)
  simp only [Bool.and_eq_true, beq_iff_eq] at hf
  exact ⟨s, es, ⟨hrun, hf⟩, write_fifo hrun⟩

/-- Where no `flush` is blocked on the promise of a loop that fails, a failed write is never followed by a silent
loss: while a buffer holds bytes, a loop is pending or active, or every further `write` and `flush` throws the
error; so a loop is pending or active after each `write` that has accepted bytes. -/
theorem failed_write_reported (h : Run step (fun _ s a _ => s.failsAlone a = true) ({} : Socket α) s es) :
    ((∃ i, s.writeBuf i ≠ []) → s.loops ≠ [] ∨
      ∃ e, (∀ b, s.step (.write b) = some (s, [.threw e])) ∧ s.step .flush = some (s, [.threw e])) ∧
    ∀ b, b ≠ [] → (s.write b).2 = .returned b.length → (s.write b).1.loops ≠ [] := by
  have hI : Orderly s ∨ Failed s := h.inv (fun _ s => Orderly s ∨ Failed s) (.inl (.inr idle_init)) (by
    intro _ s a s' e hI ha hs
    rcases hI with hI | hI
    · cases hf : fails a with
      | false => exact .inl (hI.step hf hs)
      | true =>
        cases a with
        | fail i n er => exact .inr (hI.fail ha hs)
        | _ => cases hf
    · exact .inr (hI.step hs))
  rcases hI with (⟨l, hS⟩ | hI) | hF
  · refine ⟨fun _ => .inl (by simp [hS.loops]), fun b hb hret => ?_⟩
    simp only [Socket.write] at hret ⊢
    split at hret
    · cases hret
    · simp [List.length_eq_zero_iff, hb, hS.cur, Socket.append, setBuf, hS.loops]
  · refine ⟨fun ⟨i, hi⟩ => absurd (hI.empty i) hi, fun b hb hret => ?_⟩
    simp only [Socket.write] at hret ⊢
    split at hret
    · cases hret
    · simp [List.length_eq_zero_iff, hb, hI.cur, postLoop]
  · obtain ⟨hl, p, er, hc, hp, -⟩ := hF
    have he : s.error = some er := by simp [Socket.error, hc, hp]
    refine ⟨fun _ => .inr ⟨er, fun b => ?_, ?_⟩, fun b hb hret => ?_⟩
    · simp [Socket.step, Socket.write, he]
    · simp [Socket.step, hc, hp]
    · simp [Socket.write, he] at hret

/-- The second loop fails while a `flush` is still blocked on the promise of the first. -/
theorem failed_write_reported_old_flush : ∃ (s : Socket Nat) (es : List Event),
    (Run step (fun _ s a _ => s.failsAlone a = true) {} s es ∧ s.blocked = [0] ∧ s.loops = [] ∧ s.writeBuf 0 = [2]) ∧
      (((∃ i, s.writeBuf i ≠ []) → s.loops ≠ [] ∨
        ∃ e, (∀ b, s.step (.write b) = some (s, [.threw e])) ∧ s.step .flush = some (s, [.threw e])) ∧
      ∀ b, b ≠ [] → (s.write b).2 = .returned b.length → (s.write b).1.loops ≠ []) := by
  obtain ⟨s, es, hrun, hf⟩ :=
    run_of_check step (fun _ s a _ => s.failsAlone a = true) (fun _ s a _ => s.failsAlone a)
    ({} : Socket Nat) (fun s _ => s.blocked == [0] && s.loops == [] && s.writeBuf 0 == [2])
    [.write [1], .flush, .start 0, .wrote 0 1, .write [2], .start 0, .fail 0 0 (.other 5)]
    (fun _ _ _ _ h => h) (by decide)
  simp only [Bool.and_eq_true, beq_iff_eq] at hf
  exact ⟨s, es, ⟨hrun, hf.1.1, hf.1.2, hf.2⟩, failed_write_reported hrun⟩

/-- A blocked `flush` takes the error out of the promise. The buffers still hold bytes, nothing will send them, and
the next `write` accepts more. -/
theorem flush_hides_failed_write : ∃ (s : Socket Nat) (es : List Event),
    Run step (fun _ _ _ _ => True) {} s es ∧ s.writeBuf 0 = [1] ∧ s.sent = [] ∧ s.loops = [] ∧
      (s.write [2]).2 = .returned 1 ∧ (s.write [2]).1.loops = [] := by
  obtain ⟨s, es, hrun, hf⟩ := run_of_check step (fun _ _ _ _ => True) (fun _ _ _ _ => true) ({} : Socket Nat)
    (fun s _ => s.writeBuf 0 == [1] && s.sent == [] && s.loops == [] && (s.write [2]).2 == .returned 1 &&
      (s.write [2]).1.loops == [])
    [.write [1], .flush, .start 0, .fail 0 0 (.other 5), .resume 0] (fun _ _ _ _ _ => trivial) (by decide)
  simp only [Bool.and_eq_true, beq_iff_eq] at hf
  obtain ⟨⟨⟨⟨hb, hs⟩, hl⟩, hw⟩, hw'⟩ := hf
  exact ⟨s, es, hrun, hb, hs, hl, hw, hw'⟩

end Stream

/-! ## What `flush` waits for -/

section Flush
variable {s s' : Socket α} {a : Act α} {es e : List Event} {marks : List (List α)}

/-- A loop has failed and its error may be gone: `write` still takes bytes, and no loop is ever posted again. -/
structure Stuck (s : Socket α) : Prop where
  loops : s.loops = []
  cur : s.curWriteBuf ≠ none
  sent : s.sent <+: s.written

/-- What a step can do to the bytes and to the promises there are. Only the end of the last loop sets a value. -/
structure Advances (s s' : Socket α) : Prop where
  sent : s.sent <+: s'.sent
  written : s.written <+: s'.written
  count : s.promCount ≤ s'.promCount
  values : ∀ p, p < s.promCount → (s'.prom p).value = (s.prom p).value ∨ Idle s'
  complete : (s'.writeComplete = s.writeComplete ∧ (Idle s → Idle s')) ∨
    (s'.writeComplete = some s.promCount ∧ s.promCount < s'.promCount ∧ (s'.prom s.promCount).value = none)

theorem Advances.refl (s : Socket α) : Advances s s :=
  ⟨List.prefix_rfl, List.prefix_rfl, Nat.le_refl _, fun _ _ => .inl rfl, .inl ⟨rfl, id⟩⟩

theorem Orderly.in_order (h : Orderly s) : s.sent <+: s.written := by
  rcases h with ⟨l, h⟩ | h
  · rw [h.bytes, List.append_assoc]
    exact List.prefix_append _ _
  · exact h.bytes ▸ List.prefix_rfl

theorem advances_write (h : Orderly s ∨ Stuck s) (b : List α) :
    Advances s (s.write b).1 ∧ (Orderly (s.write b).1 ∨ Stuck (s.write b).1) := by
  refine ⟨?_, ?_⟩
  · simp only [Socket.write]
    split
    · exact .refl s
    · split
      · exact .refl s
      · split
        · refine ⟨List.prefix_rfl, List.prefix_append _ _, Nat.le_succ _, fun p hp => .inl ?_, .inr ⟨rfl, Nat.lt_succ_self _, ?_⟩⟩
          · exact congrArg Promise.value (if_neg (Nat.ne_of_lt hp))
          · exact congrArg Promise.value (if_pos rfl)
        · next cur hcur =>
          refine ⟨List.prefix_rfl, List.prefix_append _ _, Nat.le_refl _, fun p _ => .inl rfl, .inl ⟨rfl, fun hI => ?_⟩⟩
          rw [hI.cur] at hcur
          cases hcur
  · rcases h with h | h
    · exact .inl (h.write b)
    · refine .inr ?_
      obtain ⟨cur, hcur⟩ := Option.ne_none_iff_exists'.1 h.cur
      simp only [Socket.write, hcur]
      split
      · exact h
      · split
        · exact h
        · exact ⟨h.loops, h.cur, h.sent.trans (List.prefix_append _ _)⟩

/-- The end of a buffer. -/
theorem advances_bufferSent {p : PromId} {i : Fin 2} {n wrote size : Nat} (h : Sending s ⟨p, .writing i n size⟩)
    (hge : ¬ n + wrote < size)
    (hs : (s.handOver i n wrote).bufferSent 0 ⟨p, .writing i (n + wrote) size⟩ i = some s') :
    Advances s s' ∧ Orderly s' := by
  have hO := h.bufferSent hge hs
  refine ⟨?_, hO⟩
  simp only [Socket.bufferSent] at hs
  split at hs
  · cases hs
  · split at hs <;> obtain rfl := Option.some.inj hs
    · exact ⟨List.prefix_append _ _, List.prefix_rfl, Nat.le_refl _, fun _ _ => .inl rfl,
        .inl ⟨rfl, fun hI => absurd (h.loops.symm.trans hI.loops) (by simp)⟩⟩
    · have hI : Idle _ := hO.resolve_left (fun ⟨l, hl⟩ => by cases hl.cur)
      exact ⟨List.prefix_append _ _, List.prefix_rfl, Nat.le_refl _, fun _ _ => .inr hI, .inl ⟨rfl, fun _ => hI⟩⟩

theorem advances (h : Orderly s ∨ Stuck s) (hs : s.step a = some (s', e)) :
    Advances s s' ∧ (Orderly s' ∨ Stuck s') := by
  have hsame : ∀ {u : Socket α}, u.sent = s.sent → u.written = s.written → u.promCount = s.promCount →
      (∀ p, (u.prom p).value = (s.prom p).value) → u.writeComplete = s.writeComplete → (Idle s → Idle u) →
      Advances s u :=
    fun h₁ h₂ h₃ h₄ h₅ h₆ => ⟨h₁ ▸ List.prefix_rfl, h₂ ▸ List.prefix_rfl, Nat.le_of_eq h₃.symm,
      fun p _ => .inl (h₄ p), .inl ⟨h₅, h₆⟩⟩
  cases a with
  | write b =>
    obtain ⟨rfl, -⟩ := Prod.mk.inj (Option.some.inj hs)
    exact advances_write h b
  | flush =>
    simp only [Socket.step] at hs
    split at hs
    · obtain ⟨rfl, -⟩ := Prod.mk.inj (Option.some.inj hs)
      exact ⟨.refl s, h⟩
    · split at hs <;> obtain ⟨rfl, -⟩ := Prod.mk.inj (Option.some.inj hs)
      · exact ⟨.refl s, h⟩
      · exact ⟨.refl s, h⟩
      · exact ⟨hsame rfl rfl rfl (fun _ => rfl) rfl (fun hI => ⟨hI.1, hI.2, hI.3, hI.4⟩),
          h.imp (fun h => h.same rfl rfl ⟨rfl, rfl, rfl⟩ ⟨rfl, rfl⟩) (fun h => ⟨h.1, h.2, h.3⟩)⟩
  | resume j =>
    simp only [Socket.step] at hs
    split at hs
    · cases hs
    · split at hs <;> obtain ⟨rfl, -⟩ := Prod.mk.inj (Option.some.inj hs)
      · refine ⟨hsame rfl rfl rfl (fun q => ?_) rfl (fun hI => ⟨hI.1, hI.2, hI.3, hI.4⟩),
          h.imp (fun h => h.same rfl rfl ⟨rfl, rfl, rfl⟩ ⟨rfl, rfl⟩) (fun h => ⟨h.1, h.2, h.3⟩)⟩
        simp only [modProm]
        split <;> rfl
      · exact ⟨hsame rfl rfl rfl (fun _ => rfl) rfl (fun hI => ⟨hI.1, hI.2, hI.3, hI.4⟩),
          h.imp (fun h => h.same rfl rfl ⟨rfl, rfl, rfl⟩ ⟨rfl, rfl⟩) (fun h => ⟨h.1, h.2, h.3⟩)⟩
      · exact ⟨hsame rfl rfl rfl (fun _ => rfl) rfl (fun hI => ⟨hI.1, hI.2, hI.3, hI.4⟩),
          h.imp (fun h => h.same rfl rfl ⟨rfl, rfl, rfl⟩ ⟨rfl, rfl⟩) (fun h => ⟨h.1, h.2, h.3⟩)⟩
  | start i =>
    have hO : Orderly s := h.resolve_right (fun h => by simp [Socket.step, h.loops] at hs)
    refine ⟨?_, .inl (hO.step rfl hs)⟩
    simp only [Socket.step] at hs
    split at hs
    · next p idx hi =>
      obtain ⟨rfl, -⟩ := Prod.mk.inj (Option.some.inj hs)
      exact hsame rfl rfl rfl (fun _ => rfl) rfl (fun hI => by rw [hI.loops] at hi; simp at hi)
    · cases hs
  | wrote i n =>
    have hO : Orderly s := h.resolve_right (fun h => by simp [Socket.step, h.loops] at hs)
    refine ⟨?_, .inl (hO.step rfl hs)⟩
    simp only [Socket.step] at hs
    split at hs
    · next p idx m size hi =>
      obtain ⟨l, hS⟩ := hO.resolve_right (fun hI => by rw [hI.loops] at hi; simp at hi)
      obtain ⟨rfl, rfl⟩ := hS.eq_loop hi
      split at hs
      · split at hs
        · obtain ⟨rfl, -⟩ := Prod.mk.inj (Option.some.inj hs)
          exact ⟨List.prefix_append _ _, List.prefix_rfl, Nat.le_refl _, fun _ _ => .inl rfl,
            .inl ⟨rfl, fun hI => absurd (hS.loops.symm.trans hI.loops) (by simp)⟩⟩
        · next hge =>
          obtain ⟨s₁, hs₁, heq⟩ := Option.map_eq_some_iff.1 hs
          obtain ⟨rfl, -⟩ := Prod.mk.inj heq
          exact (advances_bufferSent hS hge hs₁).1
      · cases hs
    · cases hs
  | fail i n er =>
    have hO : Orderly s := h.resolve_right (fun h => by simp [Socket.step, h.loops] at hs)
    simp only [Socket.step] at hs
    split at hs
    · next p idx m size hi =>
      obtain ⟨l, hS⟩ := hO.resolve_right (fun hI => by rw [hI.loops] at hi; simp at hi)
      obtain ⟨rfl, rfl⟩ := hS.eq_loop hi
      split at hs
      · obtain ⟨rfl, -⟩ := Prod.mk.inj (Option.some.inj hs)
        refine ⟨⟨List.prefix_append _ _, List.prefix_rfl, Nat.le_refl _, fun q _ => .inl ?_,
          .inl ⟨rfl, fun hI => absurd (hS.loops.symm.trans hI.loops) (by simp)⟩⟩, .inr ⟨?_, ?_, ?_⟩⟩
        · simp only [settle, modProm]
          split <;> rfl
        · show s.loops.eraseIdx 0 = []
          rw [hS.loops]
          rfl
        · show s.curWriteBuf ≠ none
          rw [hS.cur]
          exact Option.some_ne_none _
        · have hb := hS.handOver n
          rw [List.append_assoc] at hb
          exact ⟨_, hb.symm⟩
      · cases hs
    · cases hs

/-- The written bytes that each blocked `flush` found when it was called. -/
def marksAfter (s : Socket α) (marks : List (List α)) : Act α → List (List α)
  | .flush =>
    match s.step .flush with
    | some (_, []) => marks ++ [s.written]
    | _ => marks
  | .resume j => marks.eraseIdx j
  | _ => marks

/-- A step with the marks of the blocked calls of `flush`. -/
def stepMarked (s : Socket α × List (List α)) (a : Act α) : Option ((Socket α × List (List α)) × List Event) :=
  (s.1.step a).map fun r => ((r.1, s.1.marksAfter s.2 a), r.2)

/-- What is known between steps: a value in a promise that a `flush` waits on means that the bytes are sent which
the `flush` found, and one in `write_complete` that all are. -/
structure Barrier (s : Socket α) (marks : List (List α)) : Prop where
  state : Orderly s ∨ Stuck s
  complete : ∀ p, s.writeComplete = some p → p < s.promCount ∧ ((s.prom p).value.isSome = true → Idle s)
  fresh : s.writeComplete = none → Idle s
  length : marks.length = s.blocked.length
  found : ∀ (k : Nat) (p : PromId) (m : List α), s.blocked[k]? = some p → marks[k]? = some m →
    p < s.promCount ∧ m <+: s.written ∧ ((s.prom p).value.isSome = true → m <+: s.sent)

theorem barrier_init : Barrier ({} : Socket α) [] :=
  ⟨.inl (.inr idle_init), fun p hp => (by cases hp), fun _ => idle_init, rfl, fun k p m hk => by simp at hk⟩

/-- What a step leaves true of a mark. -/
theorem Advances.mark (h : Advances s s') {p : PromId} {m : List α}
    (hm : p < s.promCount ∧ m <+: s.written ∧ ((s.prom p).value.isSome = true → m <+: s.sent)) :
    p < s'.promCount ∧ m <+: s'.written ∧ ((s'.prom p).value.isSome = true → m <+: s'.sent) := by
  obtain ⟨hp, hw, hv⟩ := hm
  refine ⟨Nat.lt_of_lt_of_le hp h.count, hw.trans h.written, fun hs => ?_⟩
  rcases h.values p hp with e | hI
  · exact (hv (e ▸ hs)).trans h.sent
  · rw [← hI.bytes]
    exact hw.trans h.written

/-- A step that neither blocks a `flush` nor resumes one leaves the blocked calls alone. -/
theorem step_blocked (marks : List (List α)) (hs : s.step a = some (s', e)) :
    (s'.blocked = s.blocked ∧ s.marksAfter marks a = marks) ∨
    (∃ p, a = .flush ∧ s.writeComplete = some p ∧ (s.prom p).value = none ∧ s'.blocked = s.blocked ++ [p] ∧
      s.marksAfter marks a = marks ++ [s.written]) ∨
    ∃ j, a = .resume j ∧ s'.blocked = s.blocked.eraseIdx j ∧ s.marksAfter marks a = marks.eraseIdx j := by
  cases a with
  | write b =>
    obtain ⟨rfl, -⟩ := Prod.mk.inj (Option.some.inj hs)
    refine .inl ⟨?_, rfl⟩
    show (s.write b).1.blocked = s.blocked
    simp only [Socket.write]
    split
    · rfl
    · split
      · rfl
      · split <;> rfl
  | flush =>
    simp only [Socket.step] at hs
    split at hs
    · next hc =>
      obtain ⟨rfl, -⟩ := Prod.mk.inj (Option.some.inj hs)
      exact .inl ⟨rfl, by simp [marksAfter, Socket.step, hc]⟩
    · next p hc =>
      split at hs <;> obtain ⟨rfl, -⟩ := Prod.mk.inj (Option.some.inj hs)
      · next e he => exact .inl ⟨rfl, by simp [marksAfter, Socket.step, hc, he]⟩
      · next v he hv => exact .inl ⟨rfl, by simp [marksAfter, Socket.step, hc, he, hv]⟩
      · next he hv => exact .inr (.inl ⟨p, rfl, hc, hv, rfl, by simp [marksAfter, Socket.step, hc, he, hv]⟩)
  | resume j =>
    refine .inr (.inr ⟨j, rfl, ?_, rfl⟩)
    simp only [Socket.step] at hs
    split at hs
    · cases hs
    · split at hs <;> obtain ⟨rfl, -⟩ := Prod.mk.inj (Option.some.inj hs) <;> rfl
  | start i =>
    refine .inl ⟨?_, rfl⟩
    simp only [Socket.step] at hs
    split at hs
    · obtain ⟨rfl, -⟩ := Prod.mk.inj (Option.some.inj hs)
      rfl
    · cases hs
  | wrote i n =>
    refine .inl ⟨?_, rfl⟩
    simp only [Socket.step] at hs
    split at hs
    · split at hs
      · split at hs
        · obtain ⟨rfl, -⟩ := Prod.mk.inj (Option.some.inj hs)
          rfl
        · obtain ⟨s₁, hs₁, heq⟩ := Option.map_eq_some_iff.1 hs
          obtain ⟨rfl, -⟩ := Prod.mk.inj heq
          simp only [Socket.bufferSent] at hs₁
          split at hs₁
          · cases hs₁
          · split at hs₁ <;> obtain rfl := Option.some.inj hs₁ <;> rfl
      · cases hs
    · cases hs
  | fail i n er =>
    refine .inl ⟨?_, rfl⟩
    simp only [Socket.step] at hs
    split at hs
    · split at hs
      · obtain ⟨rfl, -⟩ := Prod.mk.inj (Option.some.inj hs)
        rfl
      · cases hs
    · cases hs

theorem Barrier.step (h : Barrier s marks) (hs : s.step a = some (s', e)) : Barrier s' (s.marksAfter marks a) := by
  obtain ⟨hA, hstate⟩ := advances h.state hs
  refine ⟨hstate, fun p hp => ?_, fun hn => ?_, ?_, ?_⟩
  · rcases hA.complete with ⟨hc, hidle⟩ | ⟨hc, hlt, hv⟩
    · obtain ⟨hlt, hI⟩ := h.complete p (hc ▸ hp)
      refine ⟨Nat.lt_of_lt_of_le hlt hA.count, fun hs => ?_⟩
      rcases hA.values p hlt with e | hI'
      · exact hidle (hI (e ▸ hs))
      · exact hI'
    · obtain rfl := Option.some.inj (hc.symm.trans hp)
      refine ⟨hlt, fun hs => ?_⟩
      rw [hv] at hs
      cases hs
  · rcases hA.complete with ⟨hc, hidle⟩ | ⟨hc, -⟩
    · exact hidle (h.fresh (hc ▸ hn))
    · rw [hn] at hc
      cases hc
  · rcases step_blocked marks hs with ⟨hb, hm⟩ | ⟨p, -, -, -, hb, hm⟩ | ⟨j, -, hb, hm⟩ <;> rw [hb, hm]
    · exact h.length
    · simp [h.length]
    · simp [List.length_eraseIdx, h.length]
  · intro k p m hk hm
    rcases step_blocked marks hs with ⟨hb, hma⟩ | ⟨q, -, hc, hv, hb, hma⟩ | ⟨j, -, hb, hma⟩ <;>
      rw [hb] at hk <;> rw [hma] at hm
    · exact hA.mark (h.found k p m hk hm)
    · by_cases hlt : k < s.blocked.length
      · rw [List.getElem?_append_left hlt] at hk
        rw [List.getElem?_append_left (h.length ▸ hlt)] at hm
        exact hA.mark (h.found k p m hk hm)
      · have hlen := (List.getElem?_eq_some_iff.1 hk).1
        simp only [List.length_append, List.length_singleton] at hlen
        obtain rfl : k = s.blocked.length := by omega
        rw [List.getElem?_concat_length] at hk
        rw [← h.length, List.getElem?_concat_length] at hm
        obtain rfl := Option.some.inj hk
        obtain rfl := Option.some.inj hm
        exact hA.mark ⟨(h.complete q hc).1, List.prefix_rfl, fun hs => by rw [hv] at hs; cases hs⟩
    · rw [List.getElem?_eraseIdx] at hk hm
      split at hk
      · next hlt =>
        rw [if_pos hlt] at hm
        exact hA.mark (h.found k p m hk hm)
      · next hge =>
        rw [if_neg hge] at hm
        exact hA.mark (h.found (k + 1) p m hk hm)

/-- Whenever a call of `flush` returns normally, every byte that was written before the call has been handed over:
all bytes if it does not block, and the bytes it found if it does. -/
theorem flush_barrier (h : Run stepMarked (fun _ _ _ _ => True) (({} : Socket α), []) (s, marks) es) :
    (∀ s', s.step .flush = some (s', [.flushed]) → s'.sent = s.written) ∧
    ∀ j s', s.step (.resume j) = some (s', [.flushed]) → ∃ m, marks[j]? = some m ∧ m <+: s'.sent := by
  have hB : Barrier s marks := h.inv (fun _ s => Barrier s.1 s.2) barrier_init (fun _ s a s' e hI _ hs => by
    obtain ⟨r, hr, he⟩ := Option.map_eq_some_iff.1 hs
    obtain ⟨rfl, -⟩ := Prod.mk.inj he
    exact hI.step hr)
  refine ⟨fun s' hs => ?_, fun j s' hs => ?_⟩
  · simp only [Socket.step] at hs
    split at hs
    · next hc =>
      obtain ⟨rfl, -⟩ := Prod.mk.inj (Option.some.inj hs)
      exact (hB.fresh hc).bytes.symm
    · next p hc =>
      split at hs <;> obtain ⟨rfl, he⟩ := Prod.mk.inj (Option.some.inj hs)
      · cases he
      · next v hv => exact ((hB.complete p hc).2 (by rw [hv]; rfl)).bytes.symm
      · cases he
  · simp only [Socket.step] at hs
    split at hs
    · cases hs
    · next p hp =>
      have hj : j < marks.length := hB.length ▸ (List.getElem?_eq_some_iff.1 hp).1
      have hm := List.getElem?_eq_getElem hj
      split at hs <;> obtain ⟨rfl, he⟩ := Prod.mk.inj (Option.some.inj hs)
      · cases he
      · next v hv => exact ⟨_, hm, (hB.found j p _ hp hm).2.2 (by rw [hv]; rfl)⟩
      · cases he

/-- A `flush` that found two bytes goes on when the third is sent and the fourth waits in a new loop. -/
theorem flush_barrier_later_writes : ∃ (s : Socket Nat) (marks : List (List Nat)) (es : List Event),
    (Run stepMarked (fun _ _ _ _ => True) ({}, []) (s, marks) es ∧ s.blocked = [0] ∧ marks = [[1, 2]] ∧
      s.sent = [1, 2, 3] ∧ s.written = [1, 2, 3, 4] ∧ ∃ s', s.step (.resume 0) = some (s', [.flushed])) ∧
      (∀ s', s.step .flush = some (s', [.flushed]) → s'.sent = s.written) ∧
      ∀ j s', s.step (.resume j) = some (s', [.flushed]) → ∃ m, marks[j]? = some m ∧ m <+: s'.sent := by
  obtain ⟨⟨s, marks⟩, es, hrun, hf⟩ := run_of_check stepMarked (fun _ _ _ _ => True) (fun _ _ _ _ => true)
    (({} : Socket Nat), [])
    (fun s _ => s.1.blocked == [0] && s.2 == [[1, 2]] && s.1.sent == [1, 2, 3] && s.1.written == [1, 2, 3, 4] &&
      ((s.1.step (.resume 0)).map Prod.snd) == some [.flushed])
    [.write [1, 2], .flush, .start 0, .wrote 0 1, .write [3], .wrote 0 1, .wrote 0 1, .write [4]]
    (fun _ _ _ _ _ => trivial) (by decide)
  simp only [Bool.and_eq_true, beq_iff_eq] at hf
  obtain ⟨⟨s', e⟩, hs, he⟩ := Option.map_eq_some_iff.1 hf.2
  obtain rfl : e = _ := he
  exact ⟨s, marks, es, ⟨hrun, hf.1.1.1.1, hf.1.1.1.2, hf.1.1.2, hf.1.2, s', hs⟩, flush_barrier hrun⟩

end Flush

end Socket

end BoostCmt.SocketWrite
