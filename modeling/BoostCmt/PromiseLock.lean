import BoostCmt.Lib.Atomic
import BoostCmt.World
/-!
# The locks of a promise

`promise` at the grain of single accesses: the exchange and the store of its
`cmt::mutex`, and each read and write of `m_error`, `m_value` and `m_blocked_thread`.
Any number of contexts of any threads are inside of its functions. `wait` reads and
clears `m_error` behind `thread::wait` without the lock.

`World` takes each of these functions as one step; `Op.apply` is that step. Here it is
shown when that is right.
-/

namespace BoostCmt.PromiseLock

open Runs

/-- The functions of `promise`; `wait` is `check`, `thread::wait`, and `finish`. -/
inductive Op (V : Type) where
  | ready
  /-- The locked head of `wait` and `wait_until` on thread `t`. -/
  | check (t : ThreadId)
  /-- The unlocked tail of `wait` and `wait_until`. -/
  | finish
  | setValue (v : V)
  | setException (e : Error)
  | setTimeout
  deriving DecidableEq, Repr

inductive Result (V : Type) where
  | ready (b : Bool)
  | value (v : V)
  | error (e : Error)
  /-- `enqueue_thread` is done. -/
  | enqueued
  /-- `future_value_not_ready` is thrown. -/
  | notReady
  /-- The argument is stored, and `notify` follows. -/
  | stored
  /-- The function returns before it stores. -/
  | dropped
  deriving DecidableEq, Repr

variable {V : Type}

/-- What the functions do in one step. -/
def Op.apply : Op V → Promise V → Promise V × Result V
  | .ready, p => (p, .ready p.ready)
  | .check t, p =>
    match p.error, p.value with
    | some e, _ => (p, .error e)
    | none, some v => (p, .value v)
    | none, none => ({ p with blockedThread := some t }, .enqueued)
  | .finish, p =>
    match p.error, p.value with
    | some e, _ => ({ p with error := none }, .error e)
    | none, some v => (p, .value v)
    | none, none => (p, .notReady)
  | .setValue v, p => if p.error.isSome then (p, .dropped) else ({ p with value := some v }, .stored)
  | .setException e, p => ({ p with error := some e }, .stored)
  | .setTimeout, p =>
    if p.value.isSome then (p, .dropped) else ({ p with error := some .futureWaitTimeout }, .stored)

/-! ## The steps of `World` -/

/-- `set_value` or `set_exception`. -/
def Op.ofOutcome : Outcome V → Op V
  | .value v => .setValue v
  | .error e => .setException e

/-- What `World` makes of the head or the tail of a `wait`. -/
def afterWait (w : World V) (i : ThreadId) (p : PromId) (d : Int) (slow : Bool) (k : List (Frame V)) :
    Promise V × Result V → World V × List (Event V)
  | (q, .error e) => ((w.modProm p fun _ => q).setCpu i k, [.waitDone i p d slow (.error e)])
  | (q, .value v) => ((w.modProm p fun _ => q).setCpu i k, [.waitDone i p d slow (.value v)])
  | (q, .notReady) => ((w.modProm p fun _ => q).setCpu i k, [.waitDone i p d slow (.error .futureValueNotReady)])
  | (q, .ready true) => ((w.modProm p fun _ => q).setCpu i (.wait .finish p d :: k), [])
  | (q, .ready false) => ((w.modProm p fun _ => q).setCpu i (.wait .block p d :: k), [])
  | (q, _) => ((w.modProm p fun _ => q).setCpu i (.wait .ready p d :: k), [])

/-- What `World` makes of a store. -/
def afterStore (w : World V) (i : ThreadId) (p : PromId) (o : Outcome V) (caught : Bool) (k : List (Frame V)) :
    Promise V × Result V → World V × List (Event V)
  | (q, .stored) => ((w.modProm p fun _ => q).setCpu i (.set .notify p o caught :: k), [.stored p o])
  | (q, _) => ((w.modProm p fun _ => q).setCpu i k, [.setDone p o])

section World
variable {w : World V} {i : ThreadId} {p : PromId} {d t₁ t₂ : Int} {k : List (Frame V)}

theorem modProm_self (w : World V) (p : PromId) : (w.modProm p fun _ => w.prom p) = w := by
  have hprom : (fun q => if q = p then w.prom p else w.prom q) = w.prom := by
    funext q
    split
    · next hq => rw [hq]
    · rfl
  simp only [World.modProm, hprom]

theorem modProm_const (w : World V) (p : PromId) (f : Promise V → Promise V) :
    w.modProm p f = w.modProm p fun _ => f (w.prom p) := by
  simp only [World.modProm]
  congr 1
  funext q
  split
  · next hq => rw [hq]
  · rfl

/-- A step of `World` in `wait` is one operation. -/
theorem stepWait_apply :
    w.stepWait i t₁ t₂ p d k .check = some (afterWait w i p d false k ((Op.check i).apply (w.prom p))) ∧
      w.stepWait i t₁ t₂ p d k .ready = some (afterWait w i p d true k (Op.ready.apply (w.prom p))) ∧
      w.stepWait i t₁ t₂ p d k .finish = some (afterWait w i p d true k (Op.finish.apply (w.prom p))) := by
  refine ⟨?_, ?_, ?_⟩
  · cases her : (w.prom p).error with
    | some e => simp [World.stepWait, Op.apply, afterWait, her, modProm_self]
    | none =>
      cases hv : (w.prom p).value with
      | some v => simp [World.stepWait, Op.apply, afterWait, her, hv, modProm_self]
      | none =>
        simp only [World.stepWait, Op.apply, afterWait, her, hv]
        rw [modProm_const]
        simp [her, hv]
  · cases hready : (w.prom p).ready <;> simp [World.stepWait, Op.apply, afterWait, hready, modProm_self]
  · cases her : (w.prom p).error with
    | some e =>
      simp only [World.stepWait, Op.apply, afterWait, her]
      rw [modProm_const]
    | none => cases hv : (w.prom p).value <;> simp [World.stepWait, Op.apply, afterWait, her, hv, modProm_self]

/-- The store of `set_value` or `set_exception` is one operation. -/
theorem stepSet_apply {o : Outcome V} {caught : Bool} :
    w.stepSet i p o caught k .store = some (afterStore w i p o caught k ((Op.ofOutcome o).apply (w.prom p))) := by
  cases o with
  | value v =>
    cases her : (w.prom p).error with
    | some e => simp [World.stepSet, Op.ofOutcome, Op.apply, afterStore, her, modProm_self]
    | none =>
      simp only [World.stepSet, Op.ofOutcome, Op.apply, her, Option.isSome_none, Bool.false_eq_true, if_false, afterStore]
      rw [modProm_const]
      simp [her]
  | error e =>
    simp only [World.stepSet, Op.ofOutcome, Op.apply, afterStore]
    rw [modProm_const]

end World

/-! ## Single accesses -/

/-- Where a context is in a function of the promise. -/
inductive Pc (V : Type) where
  | idle
  /-- At the exchange of `mutex::lock`. -/
  | lock (op : Op V)
  /-- With the lock, at the read of `m_error`. -/
  | readError (op : Op V)
  /-- With the lock, at the read of `m_value`. -/
  | readValue (op : Op V)
  /-- With the lock, at the write. -/
  | store (op : Op V)
  /-- At the store of `mutex::unlock`. -/
  | unlock (r : Result V)
  /-- At the read of `m_error` in the tail of `wait`. -/
  | tail
  /-- At `er = m_error`. -/
  | copy
  /-- At `m_error = exception_ptr()`. -/
  | clear (e : Error)
  /-- At the read of `m_value` in the tail of `wait`. -/
  | tailValue
  /-- Before the return of `wait`. -/
  | done (r : Result V)
  deriving DecidableEq, Repr

/-- The promise, its mutex, and the contexts inside of its functions. -/
structure State (V : Type) where
  prom : Promise V := {}
  locked : Bool := false
  pc : Nat → Pc V := fun _ => .idle

inductive Act (V : Type) where
  /-- Context `k` calls a function. -/
  | call (k : Nat) (op : Op V)
  /-- Context `k` goes on. -/
  | run (k : Nat)
  /-- The `yield` of a lock that is taken throws `task_canceled`. -/
  | cancel (k : Nat)
  deriving DecidableEq, Repr

/-- Where a function begins. -/
def Op.start : Op V → Pc V
  | .finish => .tail
  | op => .lock op

/-- The first access behind the lock. -/
def Op.first : Op V → Pc V
  | .setException e => .store (.setException e)
  | .setTimeout => .readValue .setTimeout
  | op => .readError op

/-- Behind the read of an `m_error` that is set, with the lock. -/
def Op.onError (e : Error) : Op V → Pc V
  | .ready => .unlock (.ready true)
  | .setValue _ => .unlock .dropped
  | _ => .unlock (.error e)

/-- Behind the read of an `m_error` that is not set, with the lock. -/
def Op.onNoError : Op V → Pc V
  | .setValue v => .store (.setValue v)
  | op => .readValue op

/-- Behind the read of an `m_value` that is set, with the lock. -/
def Op.onValue (v : V) : Op V → Pc V
  | .ready => .unlock (.ready true)
  | .setTimeout => .unlock .dropped
  | _ => .unlock (.value v)

/-- Behind the read of an `m_value` that is not set, with the lock. -/
def Op.onNoValue : Op V → Pc V
  | .ready => .unlock (.ready false)
  | op => .store op

/-- The write of a function, and what it returns. -/
def Op.write (p : Promise V) : Op V → Promise V × Result V
  | .check t => ({ p with blockedThread := some t }, .enqueued)
  | .setValue v => ({ p with value := some v }, .stored)
  | .setException e => ({ p with error := some e }, .stored)
  | .setTimeout => ({ p with error := some .futureWaitTimeout }, .stored)
  | .ready => (p, .ready false)
  | .finish => (p, .notReady)

namespace State

def setPc (s : State V) (k : Nat) (c : Pc V) : State V := { s with pc := fun j => if j = k then c else s.pc j }

/-- One access by context `k`. -/
def run (s : State V) (k : Nat) : Option (State V × List (Atomic.Event (Op V) (Result V))) :=
  match s.pc k with
  | .idle => none
  -- `lock` yields and tries again
  | .lock op => if s.locked then some (s, []) else some ({ s with locked := true }.setPc k op.first, [])
  | .readError op =>
    match s.prom.error with
    | some e => some (s.setPc k (op.onError e), [])
    | none => some (s.setPc k op.onNoError, [])
  | .readValue op =>
    match s.prom.value with
    | some v => some (s.setPc k (op.onValue v), [])
    | none => some (s.setPc k op.onNoValue, [])
  | .store op => some ({ s with prom := (op.write s.prom).1 }.setPc k (.unlock (op.write s.prom).2), [])
  | .unlock r => some ({ s with locked := false }.setPc k .idle, [.returned k r])
  | .tail =>
    match s.prom.error with
    | some _ => some (s.setPc k .copy, [])
    | none => some (s.setPc k .tailValue, [])
  | .copy =>
    match s.prom.error with
    | some e => some (s.setPc k (.clear e), [])
    -- `rethrow_exception` has nothing to throw
    | none => none
  | .clear e => some ({ s with prom := { s.prom with error := none } }.setPc k (.done (.error e)), [])
  | .tailValue =>
    match s.prom.value with
    | some v => some (s.setPc k (.done (.value v)), [])
    | none => some (s.setPc k (.done .notReady), [])
  | .done r => some (s.setPc k .idle, [.returned k r])

/-- One step. -/
def step (s : State V) : Act V → Option (State V × List (Atomic.Event (Op V) (Result V)))
  | .call k op =>
    match s.pc k with
    | .idle => some (s.setPc k op.start, [.called k op])
    | _ => none
  | .run k => s.run k
  | .cancel k =>
    match s.pc k with
    | .lock _ => if s.locked then some (s.setPc k .idle, [.withdrawn k]) else none
    | _ => none

end State

/-! ## What holds at each access -/

/-- The context has the lock. -/
def Pc.holds : Pc V → Bool
  | .readError _ | .readValue _ | .store _ | .unlock _ => true
  | _ => false

/-- The context is behind the first read of the unlocked tail. -/
def Pc.inTail : Pc V → Bool
  | .copy | .clear _ | .tailValue => true
  | _ => false

/-- The next access of the context writes `m_error`. -/
def Pc.writesError : Pc V → Bool
  | .store (.setException _) | .store .setTimeout | .clear _ => true
  | _ => false

/-- The function is one that comes to this access. -/
def Pc.fits : Pc V → Prop
  | .lock op => op ≠ .finish
  | .readError op => op = .ready ∨ (∃ t, op = .check t) ∨ ∃ v, op = .setValue v
  | .readValue op => op = .ready ∨ (∃ t, op = .check t) ∨ op = .setTimeout
  | .store op => (∃ t, op = .check t) ∨ (∃ v, op = .setValue v) ∨ (∃ e, op = .setException e) ∨ op = .setTimeout
  | _ => True

/-- What the context has read is still so. -/
def Pc.sees (p : Promise V) : Pc V → Prop
  | .readValue .ready | .readValue (.check _) => p.error = none
  | .store (.check _) => p.error = none ∧ p.value = none
  | .store (.setValue _) => p.error = none
  | .store .setTimeout => p.value = none
  | .copy => p.error ≠ none
  | .clear e => p.error = some e
  | .tailValue => p.error = none
  | _ => True

/-- The operation that the context is in, as one on an atomic object. -/
def Pc.phase : Pc V → Atomic.Phase (Op V) (Result V)
  | .idle => .idle
  | .lock op | .readError op | .readValue op | .store op => .called op
  | .unlock r | .done r => .applied r
  | .tail | .copy | .clear _ | .tailValue => .called .finish

namespace State

/-- The atomic promise with its contexts. -/
def atomic (s : State V) : Atomic.State (Promise V) (Op V) (Result V) :=
  { obj := s.prom, phase := fun k => (s.pc k).phase }

/-- No other context is behind the first read of its tail when this step writes `m_error`. -/
def Undisturbed (s : State V) : Act V → Prop
  | .run k => (s.pc k).writesError = true → ∀ j, j ≠ k → (s.pc j).inTail = false
  | _ => True

/-- The lock excludes, and what the contexts have read is still so. -/
structure Inv (s : State V) : Prop where
  one : ∀ j k, (s.pc j).holds = true → (s.pc k).holds = true → j = k
  locked : ∀ k, (s.pc k).holds = true → s.locked = true
  fits : ∀ k, (s.pc k).fits
  sees : ∀ k, (s.pc k).sees s.prom

section Steps
variable {s s' : State V} {k : Nat} {c : Pc V} {e : List (Atomic.Event (Op V) (Result V))}

@[simp] theorem setPc_pc (s : State V) (k j : Nat) (c : Pc V) : (s.setPc k c).pc j = if j = k then c else s.pc j := rfl

@[simp] theorem setPc_prom (s : State V) (k : Nat) (c : Pc V) : (s.setPc k c).prom = s.prom := rfl

@[simp] theorem setPc_locked (s : State V) (k : Nat) (c : Pc V) : (s.setPc k c).locked = s.locked := rfl

theorem inv_init : Inv ({} : State V) :=
  ⟨fun _ _ h => (by cases h), fun _ h => (by cases h), fun _ => trivial, fun _ => trivial⟩

/-- The promise does not change, nor does who has the lock. -/
theorem Inv.setPc (h : Inv s) (hh : c.holds = (s.pc k).holds) (hf : c.fits) (hs : c.sees s.prom) :
    Inv (s.setPc k c) := by
  have hholds : ∀ j, ((s.setPc k c).pc j).holds = (s.pc j).holds := by
    intro j
    rw [setPc_pc]
    split
    · next hj => rw [hj, hh]
    · rfl
  refine ⟨fun i j hi hj => h.one i j (hholds i ▸ hi) (hholds j ▸ hj), fun j hj => h.locked j (hholds j ▸ hj),
    fun j => ?_, fun j => ?_⟩
  · rw [setPc_pc]
    split
    · exact hf
    · exact h.fits j
  · rw [setPc_pc]
    split
    · exact hs
    · exact h.sees j

theorem atomic_setPc (s : State V) (k : Nat) (c : Pc V) : (s.setPc k c).atomic = s.atomic.setPhase k c.phase := by
  have hphase : (fun j => ((s.setPc k c).pc j).phase) = fun j => if j = k then c.phase else (s.pc j).phase := by
    funext j
    rw [setPc_pc]
    split <;> rfl
  simp only [atomic, Atomic.State.setPhase, hphase]
  rfl

/-- An access that decides nothing. -/
theorem atomic_same (h : c.phase = (s.pc k).phase) : (s.setPc k c).atomic = s.atomic := by
  rw [atomic_setPc, h]
  simp only [Atomic.State.setPhase]
  congr 1
  funext j
  split
  · next hj => rw [hj]
  · rfl

/-- An access at which an operation takes effect. -/
theorem atomic_apply {op : Op V} {p : Promise V} {r : Result V} (hk : (s.pc k).phase = .called op)
    (ha : op.apply s.prom = (p, r)) (hc : c.phase = .applied r) :
    Atomic.step Op.apply s.atomic (.apply k) = some (({ s with prom := p }.setPc k c).atomic, []) := by
  have hphase : s.atomic.phase k = .called op := hk
  rw [atomic_setPc, hc]
  simp only [Atomic.step, hphase]
  show some (Atomic.State.setPhase { s.atomic with obj := (op.apply s.prom).1 } k (.applied (op.apply s.prom).2), []) = _
  rw [ha]
  rfl

theorem atomic_ret {r : Result V} (hk : (s.pc k).phase = .applied r) :
    Atomic.step Op.apply s.atomic (.ret k) = some ((s.setPc k .idle).atomic, [.returned k r]) := by
  have hphase : s.atomic.phase k = .applied r := hk
  rw [atomic_setPc]
  simp only [Atomic.step, hphase]
  rfl

/-- With the lock, the promise changes only for the context itself, and for the tails that do not mind. -/
theorem Inv.write (h : Inv s) {p : Promise V} (hk : (s.pc k).holds = true) (hc : c.holds = true) (hf : c.fits)
    (hs : c.sees p) (ht : ∀ j, (s.pc j).inTail = true → (s.pc j).sees p) :
    Inv ({ s with prom := p }.setPc k c) := by
  have hholds : ∀ j, (({ s with prom := p }.setPc k c).pc j).holds = (s.pc j).holds := by
    intro j
    rw [setPc_pc]
    split
    · next hj => rw [hj, hc, hk]
    · rfl
  refine ⟨fun i j hi hj => h.one i j (hholds i ▸ hi) (hholds j ▸ hj), fun j hj => h.locked j (hholds j ▸ hj),
    fun j => ?_, fun j => ?_⟩
  · rw [setPc_pc]
    split
    · exact hf
    · exact h.fits j
  · rw [setPc_pc]
    split
    · exact hs
    · next hj =>
      -- the others have no lock, so they have read nothing, or they are in a tail
      have hother : (s.pc j).holds = false := by
        cases hh : (s.pc j).holds with
        | false => rfl
        | true => exact absurd (h.one j k hh hk) hj
      show (s.pc j).sees p
      have htail := ht j
      revert hother htail
      cases s.pc j with
      | readError | readValue | store | unlock => intro hother; cases hother
      | copy | clear | tailValue => exact fun _ htail => htail rfl
      | idle | lock | tail | done => exact fun _ _ => trivial

/-- What an access leaves: the invariant, and a step of the atomic promise or none. -/
def Linearizes (s s' : State V) (e : List (Atomic.Event (Op V) (Result V))) : Prop :=
  Inv s' ∧ ((s'.atomic = s.atomic ∧ e = []) ∨ ∃ b, Atomic.step Op.apply s.atomic b = some (s'.atomic, e))

theorem Inv.lock (h : Inv s) {op : Op V} (hpc : s.pc k = .lock op) (hfree : s.locked = false) :
    Linearizes s ({ s with locked := true }.setPc k op.first) [] := by
  have hnone : ∀ j, (s.pc j).holds = false := by
    intro j
    cases hj : (s.pc j).holds with
    | false => rfl
    | true =>
      have hlocked := h.locked j hj
      rw [hfree] at hlocked
      cases hlocked
  have hop : op ≠ .finish := by
    have hfits := h.fits k
    rw [hpc] at hfits
    exact hfits
  have hfirst : op.first.holds = true ∧ op.first.fits ∧ op.first.sees s.prom ∧ op.first.phase = .called op := by
    cases op with
    | finish => exact absurd rfl hop
    | ready => exact ⟨rfl, .inl rfl, trivial, rfl⟩
    | check t => exact ⟨rfl, .inr (.inl ⟨t, rfl⟩), trivial, rfl⟩
    | setValue v => exact ⟨rfl, .inr (.inr ⟨v, rfl⟩), trivial, rfl⟩
    | setException e => exact ⟨rfl, .inr (.inr (.inl ⟨e, rfl⟩)), trivial, rfl⟩
    | setTimeout => exact ⟨rfl, .inr (.inr rfl), trivial, rfl⟩
  obtain ⟨hholds, hfits, hsees, hphase⟩ := hfirst
  have hk : ∀ j, (({ s with locked := true }.setPc k op.first).pc j).holds = true → j = k := by
    intro j hj
    rw [setPc_pc] at hj
    split at hj
    · next hj' => exact hj'
    · rw [hnone j] at hj
      cases hj
  refine ⟨⟨fun i j hi hj => (hk i hi).trans (hk j hj).symm, fun _ _ => rfl, fun j => ?_, fun j => ?_⟩, .inl ⟨?_, rfl⟩⟩
  · rw [setPc_pc]
    split
    · exact hfits
    · exact h.fits j
  · rw [setPc_pc]
    split
    · exact hsees
    · exact h.sees j
  · exact atomic_same (s := { s with locked := true }) (hphase.trans (by rw [show _ = s.pc k from rfl, hpc]; rfl))

theorem Inv.unlock (h : Inv s) {r : Result V} (hpc : s.pc k = .unlock r) :
    Linearizes s ({ s with locked := false }.setPc k .idle) [.returned k r] := by
  have hk : (s.pc k).holds = true := by rw [hpc]; rfl
  have hnone : ∀ j, (({ s with locked := false }.setPc k .idle).pc j).holds = false := by
    intro j
    rw [setPc_pc]
    split
    · rfl
    · next hj =>
      cases hh : (s.pc j).holds with
      | false => rfl
      | true => exact absurd (h.one j k hh hk) hj
  refine ⟨⟨fun i _ hi _ => absurd hi (by rw [hnone i]; exact Bool.false_ne_true),
    fun j hj => absurd hj (by rw [hnone j]; exact Bool.false_ne_true), fun j => ?_, fun j => ?_⟩, .inr ⟨.ret k, ?_⟩⟩
  · rw [setPc_pc]
    split
    · trivial
    · exact h.fits j
  · rw [setPc_pc]
    split
    · trivial
    · exact h.sees j
  · exact atomic_ret (s := s) (by rw [hpc]; rfl)

/-- A read that decides nothing, or one at which an operation takes effect that leaves the promise alone. -/
theorem Inv.read (h : Inv s) (hh : c.holds = (s.pc k).holds) (hf : c.fits) (hs : c.sees s.prom)
    (hphase : c.phase = (s.pc k).phase ∨ ∃ op r, (s.pc k).phase = .called op ∧ c.phase = .applied r ∧
      op.apply s.prom = (s.prom, r)) : Linearizes s (s.setPc k c) [] := by
  refine ⟨h.setPc hh hf hs, ?_⟩
  rcases hphase with hphase | ⟨op, r, hcalled, happlied, ha⟩
  · exact .inl ⟨atomic_same hphase, rfl⟩
  · exact .inr ⟨.apply k, atomic_apply hcalled ha happlied⟩

theorem Inv.readError (h : Inv s) {op : Op V} (hpc : s.pc k = .readError op) (hs : s.run k = some (s', e)) :
    Linearizes s s' e := by
  have hfits := h.fits k
  rw [hpc] at hfits
  simp only [State.run, hpc] at hs
  split at hs
  · next er her =>
    obtain ⟨rfl, rfl⟩ := Prod.mk.inj (Option.some.inj hs)
    rcases hfits with rfl | ⟨t, rfl⟩ | ⟨v, rfl⟩
    · exact h.read (by rw [hpc]; rfl) trivial trivial (.inr ⟨.ready, .ready true, by rw [hpc]; rfl, rfl,
        by simp [Op.apply, Promise.ready, her]⟩)
    · exact h.read (by rw [hpc]; rfl) trivial trivial (.inr ⟨.check t, .error er, by rw [hpc]; rfl, rfl,
        by simp [Op.apply, her]⟩)
    · exact h.read (by rw [hpc]; rfl) trivial trivial (.inr ⟨.setValue v, .dropped, by rw [hpc]; rfl, rfl,
        by simp [Op.apply, her]⟩)
  · next her =>
    obtain ⟨rfl, rfl⟩ := Prod.mk.inj (Option.some.inj hs)
    rcases hfits with rfl | ⟨t, rfl⟩ | ⟨v, rfl⟩
    · exact h.read (by rw [hpc]; rfl) (.inl rfl) her (.inl (by rw [hpc]; rfl))
    · exact h.read (by rw [hpc]; rfl) (.inr (.inl ⟨t, rfl⟩)) her (.inl (by rw [hpc]; rfl))
    · exact h.read (by rw [hpc]; rfl) (.inr (.inl ⟨v, rfl⟩)) her (.inl (by rw [hpc]; rfl))

theorem Inv.readValue (h : Inv s) {op : Op V} (hpc : s.pc k = .readValue op) (hs : s.run k = some (s', e)) :
    Linearizes s s' e := by
  have hfits := h.fits k
  have hsees := h.sees k
  rw [hpc] at hfits hsees
  simp only [State.run, hpc] at hs
  split at hs
  · next v hv =>
    obtain ⟨rfl, rfl⟩ := Prod.mk.inj (Option.some.inj hs)
    rcases hfits with rfl | ⟨t, rfl⟩ | rfl
    · exact h.read (by rw [hpc]; rfl) trivial trivial (.inr ⟨.ready, .ready true, by rw [hpc]; rfl, rfl,
        by simp [Op.apply, Promise.ready, hv]⟩)
    · have her : s.prom.error = none := hsees
      exact h.read (by rw [hpc]; rfl) trivial trivial (.inr ⟨.check t, .value v, by rw [hpc]; rfl, rfl,
        by simp [Op.apply, her, hv]⟩)
    · exact h.read (by rw [hpc]; rfl) trivial trivial (.inr ⟨.setTimeout, .dropped, by rw [hpc]; rfl, rfl,
        by simp [Op.apply, hv]⟩)
  · next hv =>
    obtain ⟨rfl, rfl⟩ := Prod.mk.inj (Option.some.inj hs)
    rcases hfits with rfl | ⟨t, rfl⟩ | rfl
    · have her : s.prom.error = none := hsees
      exact h.read (by rw [hpc]; rfl) trivial trivial (.inr ⟨.ready, .ready false, by rw [hpc]; rfl, rfl,
        by simp [Op.apply, Promise.ready, her, hv]⟩)
    · exact h.read (by rw [hpc]; rfl) (.inl ⟨t, rfl⟩) ⟨hsees, hv⟩ (.inl (by rw [hpc]; rfl))
    · exact h.read (by rw [hpc]; rfl) (.inr (.inr (.inr rfl))) hv (.inl (by rw [hpc]; rfl))

/-- A write with the lock, which takes effect at once. -/
theorem Inv.store (h : Inv s) {op : Op V} (hpc : s.pc k = .store op) (hok : s.Undisturbed (.run k)) :
    Linearizes s ({ s with prom := (op.write s.prom).1 }.setPc k (.unlock (op.write s.prom).2)) [] := by
  have hfits := h.fits k
  have hsees := h.sees k
  rw [hpc] at hfits hsees
  -- a write of the error meets no tail, and the others leave the error alone
  have htail : (op.write s.prom).1.error = s.prom.error ∨ ∀ j, (s.pc j).inTail = false := by
    rcases hfits with ⟨t, rfl⟩ | ⟨v, rfl⟩ | ⟨er, rfl⟩ | rfl
    · exact .inl rfl
    · exact .inl rfl
    all_goals
      refine .inr fun j => ?_
      by_cases hj : j = k
      · rw [hj, hpc]
        rfl
      · exact hok (by rw [hpc]; rfl) j hj
  have hwrite : op.apply s.prom = ((op.write s.prom).1, (op.write s.prom).2) := by
    rcases hfits with ⟨t, rfl⟩ | ⟨v, rfl⟩ | ⟨er, rfl⟩ | rfl
    · simp [Op.apply, Op.write, hsees.1, hsees.2]
    · have her : s.prom.error = none := hsees
      simp [Op.apply, Op.write, her]
    · rfl
    · have hv : s.prom.value = none := hsees
      simp [Op.apply, Op.write, hv]
  refine ⟨h.write (by rw [hpc]; rfl) rfl trivial trivial fun j hj => ?_, .inr ⟨.apply k, ?_⟩⟩
  · rcases htail with herr | hnone
    · have hsees := h.sees j
      revert hj hsees
      cases s.pc j with
      | copy =>
        intro _ hsees
        show _ ≠ none
        rw [herr]
        exact hsees
      | clear er => exact fun _ hsees => herr.trans hsees
      | tailValue => exact fun _ hsees => herr.trans hsees
      | _ => intro hj; cases hj
    · rw [hnone j] at hj
      cases hj
  · exact atomic_apply (by rw [hpc]; rfl) hwrite rfl

/-- The tail clears the error that it has copied. -/
theorem Inv.clear (h : Inv s) {er : Error} (hpc : s.pc k = .clear er) (hok : s.Undisturbed (.run k)) :
    Linearizes s ({ s with prom := { s.prom with error := none } }.setPc k (.done (.error er))) [] := by
  have hsees : s.prom.error = some er := by
    have hsees := h.sees k
    rw [hpc] at hsees
    exact hsees
  have hholds : ∀ j, (({ s with prom := { s.prom with error := none } }.setPc k (.done (.error er))).pc j).holds =
      (s.pc j).holds := by
    intro j
    rw [setPc_pc]
    split
    · next hj => rw [hj, hpc]; rfl
    · rfl
  refine ⟨⟨fun i j hi hj => h.one i j (hholds i ▸ hi) (hholds j ▸ hj), fun j hj => h.locked j (hholds j ▸ hj),
    fun j => ?_, fun j => ?_⟩, .inr ⟨.apply k, ?_⟩⟩
  · rw [setPc_pc]
    split
    · trivial
    · exact h.fits j
  · rw [setPc_pc]
    split
    · trivial
    · next hj =>
      -- what the others have read of the error is that there is none
      have htail := hok (by rw [hpc]; rfl) j hj
      have hother := h.sees j
      show (s.pc j).sees { s.prom with error := none }
      revert htail hother
      cases s.pc j with
      | readValue op =>
        intro _ hother
        cases op with
        | ready | check => rfl
        | finish | setValue | setException | setTimeout => trivial
      | store op =>
        intro _ hother
        cases op with
        | check => exact ⟨rfl, hother.2⟩
        | setValue => rfl
        | setTimeout => exact hother
        | ready | finish | setException => trivial
      | copy | clear | tailValue => intro htail; cases htail
      | idle | lock | readError | unlock | tail | done => exact fun _ _ => trivial
  · exact atomic_apply (by rw [hpc]; rfl) (by simp [Op.apply, hsees]) rfl

/-- Each access is a step of the atomic promise, or decides nothing. -/
theorem Inv.run (h : Inv s) (hok : s.Undisturbed (.run k)) (hs : s.run k = some (s', e)) : Linearizes s s' e := by
  cases hpc : s.pc k with
  | idle => simp [State.run, hpc] at hs
  | lock op =>
    simp only [State.run, hpc] at hs
    split at hs <;> obtain ⟨rfl, rfl⟩ := Prod.mk.inj (Option.some.inj hs)
    · exact ⟨h, .inl ⟨rfl, rfl⟩⟩
    · next hfree => exact h.lock hpc (by simpa using hfree)
  | readError op => exact h.readError hpc hs
  | readValue op => exact h.readValue hpc hs
  | store op =>
    simp only [State.run, hpc] at hs
    obtain ⟨rfl, rfl⟩ := Prod.mk.inj (Option.some.inj hs)
    exact h.store hpc hok
  | unlock r =>
    simp only [State.run, hpc] at hs
    obtain ⟨rfl, rfl⟩ := Prod.mk.inj (Option.some.inj hs)
    exact h.unlock hpc
  | tail =>
    simp only [State.run, hpc] at hs
    split at hs <;> obtain ⟨rfl, rfl⟩ := Prod.mk.inj (Option.some.inj hs)
    · next er her =>
      refine h.read (by rw [hpc]; rfl) trivial ?_ (.inl (by rw [hpc]; rfl))
      show s.prom.error ≠ none
      rw [her]
      exact Option.some_ne_none er
    · next her => exact h.read (by rw [hpc]; rfl) trivial her (.inl (by rw [hpc]; rfl))
  | copy =>
    simp only [State.run, hpc] at hs
    split at hs
    · next er her =>
      obtain ⟨rfl, rfl⟩ := Prod.mk.inj (Option.some.inj hs)
      exact h.read (by rw [hpc]; rfl) trivial her (.inl (by rw [hpc]; rfl))
    · cases hs
  | clear er =>
    simp only [State.run, hpc] at hs
    obtain ⟨rfl, rfl⟩ := Prod.mk.inj (Option.some.inj hs)
    exact h.clear hpc hok
  | tailValue =>
    have her : s.prom.error = none := by
      have hsees := h.sees k
      rw [hpc] at hsees
      exact hsees
    simp only [State.run, hpc] at hs
    split at hs <;> obtain ⟨rfl, rfl⟩ := Prod.mk.inj (Option.some.inj hs)
    · next v hv =>
      exact h.read (by rw [hpc]; rfl) trivial trivial (.inr ⟨.finish, .value v, by rw [hpc]; rfl, rfl,
        by simp [Op.apply, her, hv]⟩)
    · next hv =>
      exact h.read (by rw [hpc]; rfl) trivial trivial (.inr ⟨.finish, .notReady, by rw [hpc]; rfl, rfl,
        by simp [Op.apply, her, hv]⟩)
  | done r =>
    simp only [State.run, hpc] at hs
    obtain ⟨rfl, rfl⟩ := Prod.mk.inj (Option.some.inj hs)
    exact ⟨h.setPc (by rw [hpc]; rfl) trivial trivial, .inr ⟨.ret k, atomic_ret (by rw [hpc]; rfl)⟩⟩

theorem Inv.step (h : Inv s) {a : Act V} (hok : s.Undisturbed a) (hs : s.step a = some (s', e)) :
    Linearizes s s' e := by
  cases a with
  | call k op =>
    simp only [State.step] at hs
    split at hs
    · next hpc =>
      obtain ⟨rfl, rfl⟩ := Prod.mk.inj (Option.some.inj hs)
      have hstart : op.start.holds = false ∧ op.start.fits ∧ op.start.sees s.prom ∧ op.start.phase = .called op := by
        cases op with
        | finish => exact ⟨rfl, trivial, trivial, rfl⟩
        | ready | check | setValue | setException | setTimeout =>
          refine ⟨rfl, fun hfinish => ?_, trivial, rfl⟩
          cases hfinish
      obtain ⟨hholds, hfits, hsees, hphase⟩ := hstart
      refine ⟨h.setPc (by rw [hholds, hpc]; rfl) hfits hsees, .inr ⟨.call k op, ?_⟩⟩
      have hidle : s.atomic.phase k = .idle := by
        show (s.pc k).phase = .idle
        rw [hpc]
        rfl
      simp only [Atomic.step, hidle]
      rw [atomic_setPc, hphase]
    · cases hs
  | run k => exact h.run hok hs
  | cancel k =>
    simp only [State.step] at hs
    split at hs
    · next op hpc =>
      split at hs
      · obtain ⟨rfl, rfl⟩ := Prod.mk.inj (Option.some.inj hs)
        refine ⟨h.setPc (by rw [hpc]; rfl) trivial trivial, .inr ⟨.withdraw k, ?_⟩⟩
        have hcalled : s.atomic.phase k = .called op := by
          show (s.pc k).phase = .called op
          rw [hpc]
          rfl
        simp only [Atomic.step, hcalled]
        rw [atomic_setPc]
        rfl
      · cases hs
    · cases hs

end Steps

section Run
variable {s : State V} {es : List (Atomic.Event (Op V) (Result V))}

/-- The step does not write `m_error`. -/
def leavesError (s : State V) : Act V → Bool
  | .run k => !(s.pc k).writesError
  | _ => true

theorem leavesError_sound {a : Act V} (h : s.leavesError a = true) : s.Undisturbed a := by
  cases a with
  | run k =>
    intro hw
    simp [leavesError, hw] at h
  | call | cancel => trivial

/-- A tail that is disturbed clears an error that no `wait` has thrown. -/
theorem disturbed_tail_drops_error : ∃ (s : State Nat) (es : List (Atomic.Event (Op Nat) (Result Nat))),
    Run step (fun _ _ _ _ => True) {} s es ∧ s.prom.error = none ∧
      es = [.called 0 (.setException (.other 1)), .returned 0 .stored, .called 1 .finish,
        .called 0 (.setException (.other 2)), .returned 0 .stored, .returned 1 (.error (.other 1))] := by
  obtain ⟨s, es, hrun, hf⟩ := run_of_check step (fun _ _ _ _ => True) (fun _ _ _ _ => true) ({} : State Nat)
    (fun s es => s.prom.error == none && es == [.called 0 (.setException (.other 1)), .returned 0 .stored,
      .called 1 .finish, .called 0 (.setException (.other 2)), .returned 0 .stored, .returned 1 (.error (.other 1))])
    [.call 0 (.setException (.other 1)), .run 0, .run 0, .run 0, .call 1 .finish, .run 1, .run 1,
      .call 0 (.setException (.other 2)), .run 0, .run 0, .run 0, .run 1, .run 1]
    (fun _ _ _ _ _ => trivial) (by decide +kernel)
  simp only [Bool.and_eq_true, beq_iff_eq] at hf
  exact ⟨s, es, hrun, hf⟩

end Run

end State

end BoostCmt.PromiseLock
