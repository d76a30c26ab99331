import BoostCmt.Slot
/-!
# Waiting for a signal

`cmt::wait(sig)` makes a promise, connects its `set_value` to the signal, waits
on the promise and returns a copy of what it holds. The first emission that
gets to the slot makes the waiting context ready; until that context goes on
and disconnects, every further emission calls the slot again, and
`set_value` stores over the value that is there.

`SigWorld` puts the signals and the calls of `cmt::wait` on top of the `World`.
-/

namespace BoostCmt

open Linked Runs

variable {V : Type}

/-! ## Signals -/

/-- A `boost::signal`. -/
abbrev SignalId := Nat

/-- An emission under way, with the slots that it has not called yet. -/
structure Emission (V : Type) where
  sig : SignalId
  value : V
  rest : List PromId
  deriving DecidableEq, Repr

/-- The world with the calls of `cmt::wait` on signals. Slots of other code are part of the code outside the
library. -/
structure SigWorld (V : Type) where
  world : World V := {}
  /-- The promises whose `set_value` is connected, the slot that is called first in front. -/
  slots : SignalId → List PromId := fun _ => []
  /-- The signal that a promise was made for. -/
  waits : PromId → Option SignalId := fun _ => none
  /-- The emissions that a context is inside of, the innermost first. -/
  emitting : ThreadId → CtxId → List (Emission V) := fun _ _ => []
  /-- How `p->wait` has returned to the `cmt::wait` that a context is inside of. -/
  returning : ThreadId → CtxId → Option (PromId × Outcome V) := fun _ _ => none

inductive SigAction (V : Type) where
  /-- A step of the world that does not touch the promises of `cmt::wait`. -/
  | base (a : Action V)
  /-- `cmt::wait(sig, timeout_us)`, up to its `p->wait`. -/
  | wait (i : ThreadId) (t : Int) (s : SignalId) (timeout : Int)
  /-- An emission starts. -/
  | emit (i : ThreadId) (s : SignalId) (v : V)
  /-- The innermost emission goes on to its next slot, or ends. -/
  | callSlot (i : ThreadId) (t : Int)
  /-- `cmt::wait` copies the value and disconnects, or throws. -/
  | leave (i : ThreadId)
  deriving DecidableEq, Repr

inductive SigEvent (V : Type) where
  | world (e : Event V)
  | connected (p : PromId) (s : SignalId)
  | emitted (s : SignalId) (v : V)
  /-- The `cmt::wait` of `p` returns `v`. -/
  | returned (p : PromId) (v : V)
  /-- The `cmt::wait` of `p` throws. -/
  | threw (p : PromId) (e : Error)
  deriving DecidableEq, Repr

/-- Whose step an action is. -/
def SigAction.thread : SigAction V → ThreadId
  | .base a => a.thread
  | .wait i _ _ _ => i
  | .emit i _ _ => i
  | .callSlot i _ => i
  | .leave i => i

namespace SigWorld

/-- The context that thread `i` runs is not about to leave a `cmt::wait`. -/
def free (x : SigWorld V) (i : ThreadId) : Bool := (x.returning i (x.world.cur i)).isNone

/-- Whether the code outside the library can take the action of the world. -/
def allows (x : SigWorld V) (a : Action V) : Bool :=
  (a.names.bind x.waits).isNone && ((a matches .tick _) || x.free a.thread)

def setEmitting (x : SigWorld V) (i : ThreadId) (l : List (Emission V)) : SigWorld V :=
  { x with emitting := fun j c => if j = i ∧ c = x.world.cur i then l else x.emitting j c }

def setReturning (x : SigWorld V) (i : ThreadId) (r : Option (PromId × Outcome V)) : SigWorld V :=
  { x with returning := fun j c => if j = i ∧ c = x.world.cur i then r else x.returning j c }

/-- `~scoped_connection`. -/
def disconnect (x : SigWorld V) (p : PromId) : SigWorld V :=
  { x with slots := fun s => (x.slots s).filter (· != p) }

/-- The promise of a `cmt::wait` whose `p->wait` ends, and how. -/
def ended (x : SigWorld V) (e : List (Event V)) : Option (PromId × Outcome V) :=
  e.findSome? fun
    | .waitDone _ p _ _ o => (x.waits p).map fun _ => (p, o)
    | _ => none

/-- One step of the world. -/
def stepWorld (x : SigWorld V) (a : Action V) : Option (SigWorld V × List (SigEvent V)) :=
  (x.world.step a).map fun (w, e) =>
    let x₁ := match x.ended e with
      | some r => x.setReturning a.thread (some r)
      | none => x
    ({ x₁ with world := w }, e.map .world)

/-- `new promise<T>()`, `sig.connect` and the call of `p->wait`. -/
def startWait (x : SigWorld V) (i : ThreadId) (t : Int) (s : SignalId) (timeout : Int) :
    Option (SigWorld V × List (SigEvent V)) := do
  let p := x.world.promCount
  let (w, _) ← x.world.step (.call i t .newPromise)
  let (w, e) ← w.step (.call i t (.wait p timeout))
  return ({ x with
      world := w
      slots := fun r => if r = s then x.slots r ++ [p] else x.slots r
      waits := fun q => if q = p then some s else x.waits q },
    .connected p s :: e.map .world)

def step (x : SigWorld V) : SigAction V → Option (SigWorld V × List (SigEvent V))
  | .base a => if x.allows a then x.stepWorld a else none
  | .wait i t s timeout => if x.free i then x.startWait i t s timeout else none
  | .emit i s v =>
    if x.free i then
      match x.world.cpu i with
      | .user :: _ | .task _ :: _ =>
        some (x.setEmitting i ({ sig := s, value := v, rest := x.slots s } :: x.emitting i (x.world.cur i)),
          [.emitted s v])
      | _ => none
    else none
  | .callSlot i t =>
    if x.free i then
      match x.emitting i (x.world.cur i) with
      | ⟨s, v, p :: rest⟩ :: l =>
        let x := x.setEmitting i (⟨s, v, rest⟩ :: l)
        -- a slot that was disconnected during the emission is not called
        if p ∈ x.slots s then x.stepWorld (.call i t (.set p (.value v))) else some (x, [])
      | ⟨_, _, []⟩ :: l => some (x.setEmitting i l, [])
      | [] => none
    else none
  | .leave i =>
    match x.returning i (x.world.cur i) with
    | some (p, .value _) =>
      -- `p->wait` has returned a reference to the value
      (x.world.prom p).value.map fun v => ((x.setReturning i none).disconnect p, [.returned p v])
    | some (p, .error e) => some ((x.setReturning i none).disconnect p, [.threw p e])
    | none => none

/-! ### Emissions -/

/-- What happens in the world. -/
def worldEvents (es : List (SigEvent V)) : List (Event V) :=
  es.filterMap fun
    | .world e => some e
    | _ => none

/-- The values that `set_value` has stored into `p`, the first one first. -/
def stored (p : PromId) (es : List (SigEvent V)) : List V := World.storedValues p (worldEvents es)

/-- The values emitted on `s`, in order. -/
def emittedOn (s : SignalId) (es : List (SigEvent V)) : List V :=
  es.filterMap fun
    | .emitted r v => if r = s then some v else none
    | _ => none

/-- The event is not that the slot of `p` is connected. -/
def notConnect (p : PromId) : SigEvent V → Bool
  | .connected q _ => q != p
  | _ => true

/-- The values emitted on `s` after the slot of `p` was connected, the first one first. -/
def emissions (p : PromId) (s : SignalId) (es : List (SigEvent V)) :
    List V := emittedOn s (es.dropWhile (notConnect p))

variable {x x' : SigWorld V} {es e : List (SigEvent V)} {p : PromId} {s : SignalId}

@[simp] theorem worldEvents_map (e : List (Event V)) : worldEvents (e.map .world) = e := by
  induction e with
  | nil => rfl
  | cons y e ih => exact congrArg (y :: ·) ih

@[simp] theorem worldEvents_append (es e : List (SigEvent V)) :
    worldEvents (es ++ e) = worldEvents es ++ worldEvents e := List.filterMap_append

/-- Emissions are not forgotten. -/
theorem emissions_append {r : SignalId} (hc : .connected p r ∈ es) (s : SignalId) (e : List (SigEvent V)) :
    emissions p s (es ++ e) = emissions p s es ++ emittedOn s e := by
  have hne : ¬ (es.dropWhile (notConnect p)).isEmpty := by
    intro hnil
    have htake : es.takeWhile (notConnect p) ++ es.dropWhile (notConnect p) = es := List.takeWhile_append_dropWhile
    rw [List.isEmpty_iff.1 hnil, List.append_nil] at htake
    have hall := List.all_eq_true.1 List.all_takeWhile _ (htake.symm ▸ hc)
    simp [notConnect] at hall
  simp only [emissions, List.dropWhile_append, if_neg hne, emittedOn, List.filterMap_append]

/-! ### What a run keeps -/

/-- Steps of a run in which a `cmt::wait` is left alone: it has no deadline, `quit` is not called, and no context
is cancelled inside of a call on its promise. -/
structure Undisturbed (x : SigWorld V) (a : SigAction V) (e : List (SigEvent V)) : Prop where
  noQuit : World.NoQuit (worldEvents e)
  oneTimed : World.OneTimed x.world
  unmarked : ∀ p i, x.waits p ≠ none → (∃ f ∈ x.world.cpu i, f.refers p) → x.world.currentCanceled i = false
  untimed : ∀ i t s d, a = .wait i t s d → d = timePointMax

/-- The slot of `p` stores what is emitted on `s` after it was connected. -/
def IsSlot (p : PromId) (s : SignalId) (es : List (SigEvent V)) (w : World V) : Prop :=
  .connected p s ∈ es ∧ ∃ home, ∀ i, World.Slot p home (· ∈ emissions p s es) (worldEvents es) .start w i

structure SigInv (es : List (SigEvent V)) (x : SigWorld V) : Prop where
  grounded : World.Grounded x.world
  made : ∀ p s, x.waits p = some s → IsSlot p s es x.world
  slots : ∀ s, ∀ p ∈ x.slots s, x.waits p = some s
  rest : ∀ i c, ∀ m ∈ x.emitting i c, ∀ p ∈ m.rest, x.waits p = some m.sig ∧ m.value ∈ emissions p m.sig es
  fresh : ∀ p, x.world.promCount ≤ p → stored p es = []
  returning : ∀ i c p o, x.returning i c = some (p, o) → x.waits p ≠ none ∧ (∃ v, o = .value v) ∧ stored p es ≠ []

theorem IsSlot.quiet {w : World V} (h : IsSlot p s es w) (he : worldEvents e = []) : IsSlot p s (es ++ e) w := by
  obtain ⟨hc, home, hslot⟩ := h
  refine ⟨List.mem_append_left _ hc, home, fun i => ?_⟩
  rw [worldEvents_append, he, List.append_nil]
  refine (hslot i).mono fun v hv => ?_
  rw [emissions_append hc]
  exact List.mem_append_left _ hv

theorem IsSlot.step {w w' : World V} {a : Action V} (h : IsSlot p s es w)
    (hs : w.step a = some (w', worldEvents e)) (hq : World.NoQuit (worldEvents e)) (hone : World.OneTimed w)
    (hmark : ∀ i, (∃ f ∈ w.cpu i, f.refers p) → w.currentCanceled i = false)
    (hwait : ∀ j t d, a ≠ .call j t (.wait p d))
    (hset : ∀ j t o, a = .call j t (.set p o) → ∃ v, o = .value v ∧ v ∈ emissions p s es) :
    IsSlot p s (es ++ e) w' ∧ ∀ j d b o, .waitDone j p d b o ∈ worldEvents e →
      (∃ v, o = .value v) ∧ stored p es ≠ [] := by
  obtain ⟨hc, home, hslot⟩ := h
  have hk : World.KeepsSlot p home (· ∈ emissions p s es) w a (worldEvents e) :=
    ⟨hq, hone, hmark a.thread, fun j t d ha => absurd ha (hwait j t d), hset⟩
  refine ⟨⟨List.mem_append_left _ hc, home, fun i => ?_⟩, fun j d b o hd => ?_⟩
  · rw [worldEvents_append]
    refine (((hslot a.thread).step hs hk).start i).mono fun v hv => ?_
    rw [emissions_append hc]
    exact List.mem_append_left _ hv
  · obtain ⟨v, rfl, hv⟩ := (hslot a.thread).waitDone hs hk hd
    refine ⟨⟨v, rfl⟩, fun hnil => ?_⟩
    have hval := (hslot a.thread).value
    rw [hv, show World.storedValues p (worldEvents es) = [] from hnil] at hval
    cases hval

/-- Nothing is stored into a promise that does not exist. -/
theorem SigInv.fresh_append (h : SigInv es x) {w : World V} {a : Action V}
    (hs : x.world.step a = some (w, worldEvents e))
    (hq : World.NoQuit (worldEvents e)) (hone : World.OneTimed x.world) (hp : w.promCount ≤ p) :
    stored p (es ++ e) = [] := by
  rw [stored, worldEvents_append, World.storedValues_append, show World.storedValues p (worldEvents es) = [] from
    h.fresh p (Nat.le_trans (World.step_promCount hs) hp), List.nil_append]
  exact List.eq_nil_iff_forall_not_mem.2 fun v hv =>
    Nat.not_lt.2 hp (h.grounded.settles_lt hs hq hone _ (World.mem_storedValues.1 hv) ⟨_, .inr (.inl rfl)⟩)

theorem SigInv.rest_append (h : SigInv es x) (e : List (SigEvent V)) {i : ThreadId} {c : CtxId} {m : Emission V}
    (hm : m ∈ x.emitting i c) (hp : p ∈ m.rest) : x.waits p = some m.sig ∧
    m.value ∈ emissions p m.sig (es ++ e) := by
  obtain ⟨hw, hv⟩ := h.rest i c m hm p hp
  rw [emissions_append (h.made p m.sig hw).1]
  exact ⟨hw, List.mem_append_left _ hv⟩

theorem SigInv.returning_append (h : SigInv es x) (e : List (SigEvent V)) {i : ThreadId} {c : CtxId}
    {o : Outcome V}
    (hr : x.returning i c = some (p, o)) : x.waits p ≠ none ∧ (∃ v, o = .value v) ∧ stored p (es ++ e) ≠ [] := by
  obtain ⟨hw, hv, hne⟩ := h.returning i c p o hr
  refine ⟨hw, hv, ?_⟩
  rw [stored, worldEvents_append, World.storedValues_append]
  exact fun hnil => hne (List.append_eq_nil_iff.1 hnil).1

theorem mem_of_ended {e : List (Event V)} {o : Outcome V} (h : x.ended e = some (p, o)) :
    x.waits p ≠ none ∧ ∃ j d b, .waitDone j p d b o ∈ e := by
  obtain ⟨y, hy, hf⟩ := List.exists_of_findSome?_eq_some h
  split at hf
  · next j q d b o' =>
    obtain ⟨r, hr, he⟩ := Option.map_eq_some_iff.1 hf
    obtain ⟨rfl, rfl⟩ := Prod.mk.inj he
    exact ⟨by simp [hr], j, d, b, hy⟩
  · cases hf

/-- A step of the world that calls nothing but slots on the promises of `cmt::wait`. -/
theorem SigInv.stepWorld {a : Action V} (h : SigInv es x) (hs : x.stepWorld a = some (x', e))
    (hq : World.NoQuit (worldEvents e)) (hone : World.OneTimed x.world)
    (hmark : ∀ p i, x.waits p ≠ none → (∃ f ∈ x.world.cpu i, f.refers p) → x.world.currentCanceled i = false)
    (hwait : ∀ p j t d, x.waits p ≠ none → a ≠ .call j t (.wait p d))
    (hset : ∀ p s j t o, x.waits p = some s → a = .call j t (.set p o) → ∃ v, o = .value v ∧ v ∈ emissions p s es) :
    SigInv (es ++ e) x' := by
  obtain ⟨⟨w, ew⟩, hw, he⟩ := Option.map_eq_some_iff.1 hs
  obtain ⟨rfl, rfl⟩ := Prod.mk.inj he
  have hw' : x.world.step a = some (w, worldEvents (ew.map .world)) := by rw [worldEvents_map]; exact hw
  have hslot : ∀ p s, x.waits p = some s → _ := fun p s hp =>
    (h.made p s hp).step hw' hq hone (fun i => hmark p i (by simp [hp])) (fun j t d => hwait p j t d (by simp [hp]))
      (fun j t o => hset p s j t o hp)
  refine
    { grounded := h.grounded.step hw' hq hone
      made := fun p s hp => (hslot p s ?_).1
      slots := fun s p hp => ?_
      rest := fun i c m hm p hp => ?_
      fresh := fun p hp => h.fresh_append hw' hq hone hp
      returning := fun i c p o hr => ?_ }
  · revert hp
    split <;> exact id
  · revert hp
    split <;> exact h.slots s p
  · have hm : m ∈ x.emitting i c := by
      revert hm
      split <;> exact id
    have hrest := h.rest_append (ew.map .world) hm hp
    split <;> exact hrest
  · have hold : x.returning i c = some (p, o) → _ := h.returning_append (ew.map .world)
    revert hr
    split
    · next r hend =>
      intro hr
      simp only [setReturning] at hr
      split at hr
      · -- the wait has just ended
        obtain rfl := Option.some.inj hr
        obtain ⟨hp, j, d, b, hd⟩ := mem_of_ended hend
        obtain ⟨s, hs⟩ := Option.ne_none_iff_exists'.1 hp
        obtain ⟨hv, hne⟩ := (hslot p s hs).2 j d b o (by rwa [worldEvents_map])
        refine ⟨hp, hv, fun hnil => hne ?_⟩
        rw [stored, worldEvents_append, World.storedValues_append] at hnil
        exact (List.append_eq_nil_iff.1 hnil).1
      · exact hold hr
    · exact hold

theorem SigInv.startWait {i : ThreadId} {t d : Int} (h : SigInv es x) (hs : x.startWait i t s d = some (x', e))
    (hu : Undisturbed x (.wait i t s d) e) : SigInv (es ++ e) x' := by
  simp only [SigWorld.startWait, Option.bind_eq_bind, Option.bind_eq_some_iff] at hs
  obtain ⟨⟨w₁, e₁⟩, h₁, ⟨w₂, e₂⟩, h₂, he⟩ := hs
  obtain ⟨rfl, rfl⟩ := Prod.mk.inj (Option.some.inj he)
  obtain ⟨rfl, rfl⟩ : (x.world.newPromise none false).2 = w₁ ∧ [] = e₁ :=
    Prod.mk.inj (Option.some.inj (World.step_call h₁).2)
  have hev : worldEvents (SigEvent.connected x.world.promCount s :: e₂.map .world) = e₂ := worldEvents_map e₂
  have hq : World.NoQuit e₂ := by
    have := hu.noQuit
    rwa [hev] at this
  have hq₁ : World.NoQuit (V := V) [] := fun j hj => by cases hj
  have hone : World.OneTimed (x.world.newPromise none false).2 := hu.oneTimed
  -- the promise is new
  have hnew : ∀ p s, x.waits p = some s → p < x.world.promCount := fun p s hp => by
    obtain ⟨-, home, hslot⟩ := h.made p s hp
    exact (hslot 0).lt
  have hold : ∀ p r, x.waits p = some r →
      IsSlot p r (es ++ SigEvent.connected x.world.promCount s :: e₂.map .world) w₂ := by
    intro p r hp
    have hmark := fun j => hu.unmarked p j (by simp [hp])
    have hfirst := ((h.made p r hp).step (e := []) h₁ hq₁ hu.oneTimed hmark (fun _ _ _ ha => by cases ha)
      (fun _ _ _ ha => by cases ha)).1
    rw [List.append_nil] at hfirst
    refine (hfirst.step (by rw [hev]; exact h₂) (by rw [hev]; exact hq) hone hmark (fun j t' d' ha => ?_)
      (fun _ _ _ ha => by cases ha)).1
    cases ha
    exact absurd (hnew _ r hp) (Nat.lt_irrefl _)
  have hmade : IsSlot x.world.promCount s (es ++ SigEvent.connected x.world.promCount s :: e₂.map .world) w₂ := by
    refine ⟨by simp, (i, x.world.cur i), fun j => ?_⟩
    have hslot := World.slot_new h.grounded.orderly h.grounded.alloc h.grounded.signals hu.oneTimed
      (h.fresh _ (Nat.le_refl _)) (i, x.world.cur i)
      (· ∈ emissions x.world.promCount s (es ++ SigEvent.connected x.world.promCount s :: e₂.map .world))
    rw [worldEvents_append, hev]
    refine ((hslot i).step h₂ ⟨hq, hone, fun hf => ?_, fun j' t' d' ha => ?_, fun _ _ _ ha => by cases ha⟩).start j
    · obtain ⟨f, hf, href⟩ := hf
      refine absurd (h.grounded.alloc.frames i (x.world.cur i) _ f ?_ href) (Nat.lt_irrefl _)
      rw [World.stack_cur]
      exact hf
    · cases ha
      exact ⟨rfl, hu.untimed i t s d rfl⟩
  refine
    { grounded := (h.grounded.step h₁ hq₁ hu.oneTimed).step h₂ hq hone
      made := fun p r hp => ?_
      slots := fun r p hp => ?_
      rest := fun j c m hm p hp => ?_
      fresh := fun p hp => ?_
      returning := fun j c p o hr => ?_ }
  · simp only at hp
    split at hp
    · next hp' =>
      subst hp'
      obtain rfl := Option.some.inj hp
      exact hmade
    · exact hold p r hp
  · simp only at hp ⊢
    have hlt : p ∈ x.slots r → (if p = x.world.promCount then some s else x.waits p) = some r := fun hp => by
      have hw := h.slots r p hp
      rw [if_neg (Nat.ne_of_lt (hnew p r hw)), hw]
    split at hp
    · next hrs =>
      rcases List.mem_append.1 hp with hp | hp
      · exact hlt hp
      · rw [if_pos (List.mem_singleton.1 hp), hrs]
    · exact hlt hp
  · obtain ⟨hw, hv⟩ := h.rest_append (SigEvent.connected x.world.promCount s :: e₂.map .world) hm hp
    refine ⟨?_, hv⟩
    simp only
    rw [if_neg (Nat.ne_of_lt (hnew p _ hw)), hw]
  · have hle := Nat.le_trans (World.step_promCount h₂) hp
    rw [stored, worldEvents_append, hev, World.storedValues_append, show World.storedValues p (worldEvents es) = [] from
      h.fresh p (Nat.le_trans (Nat.le_succ _) hle), List.nil_append]
    exact List.eq_nil_iff_forall_not_mem.2 fun v hv => Nat.not_lt.2 hp
      ((h.grounded.step h₁ hq₁ hu.oneTimed).settles_lt
      h₂ hq hone _ (World.mem_storedValues.1 hv) ⟨_, .inr (.inl rfl)⟩)
  · obtain ⟨hw, hv⟩ := h.returning_append (SigEvent.connected x.world.promCount s :: e₂.map .world) hr
    refine ⟨?_, hv⟩
    simp only
    split
    · simp
    · exact hw

/-- An action that leaves the world alone. -/
theorem SigInv.quiet (h : SigInv es x) (he : worldEvents e = []) (hworld : x'.world = x.world)
    (hwaits : x'.waits = x.waits) (hslots : ∀ s, ∀ p ∈ x'.slots s, p ∈ x.slots s)
    (hrest : ∀ i c, ∀ m ∈ x'.emitting i c, ∀ p ∈ m.rest, x.waits p = some m.sig ∧ m.value ∈ emissions p m.sig (es ++ e))
    (hret : ∀ i c r, x'.returning i c = some r → x.returning i c = some r) : SigInv (es ++ e) x' where
  grounded := hworld ▸ h.grounded
  made := fun p s hp => by
    rw [hwaits] at hp
    rw [hworld]
    exact (h.made p s hp).quiet he
  slots := fun s p hp => by
    rw [hwaits]
    exact h.slots s p (hslots s p hp)
  rest := fun i c m hm p hp => by
    rw [hwaits]
    exact hrest i c m hm p hp
  fresh := fun p hp => by
    rw [stored, worldEvents_append, he, List.append_nil]
    exact h.fresh p (hworld ▸ hp)
  returning := fun i c p o hr => by
    rw [hwaits]
    exact h.returning_append e (hret i c _ hr)

theorem mem_setEmitting {i j : ThreadId} {c : CtxId} {l : List (Emission V)} {m : Emission V}
    (h : m ∈ (x.setEmitting i l).emitting j c) : m ∈ l ∨ m ∈ x.emitting j c := by
  simp only [setEmitting] at h
  split at h
  · exact .inl h
  · exact .inr h

theorem SigInv.emit {i : ThreadId} {v : V} (h : SigInv es x) :
    SigInv (es ++ [.emitted s v])
      (x.setEmitting i ({ sig := s, value := v, rest := x.slots s } :: x.emitting i (x.world.cur i))) := by
  refine h.quiet rfl rfl rfl (fun _ _ => id) (fun j c m hm p hp => ?_) (fun _ _ _ => id)
  rcases mem_setEmitting hm with hm | hm
  · rcases List.mem_cons.1 hm with rfl | hm
    · -- the slots of the signal are called with what is emitted now
      have hw := h.slots s p hp
      refine ⟨hw, ?_⟩
      rw [emissions_append (h.made p s hw).1]
      exact List.mem_append_right _ (by simp [emittedOn])
    · exact h.rest_append _ hm hp
  · exact h.rest_append _ hm hp

/-- An emission that goes on calls what is left of its slots. -/
theorem SigInv.shorten {i : ThreadId} {l : List (Emission V)} (h : SigInv es x)
    (hl : ∀ m ∈ l, ∀ p ∈ m.rest, ∃ m' ∈ x.emitting i (x.world.cur i), m'.sig = m.sig ∧ m'.value = m.value ∧ p ∈ m'.rest) :
    SigInv es (x.setEmitting i l) := by
  have hI : SigInv (es ++ []) (x.setEmitting i l) := h.quiet rfl rfl rfl (fun _ _ => id) (fun j c m hm p hp => ?_)
    (fun _ _ _ => id)
  · rwa [List.append_nil] at hI
  · rcases mem_setEmitting hm with hm | hm
    · obtain ⟨m', hm', hsig, hval, hp'⟩ := hl m hm p hp
      rw [← hsig, ← hval]
      exact h.rest_append _ hm' hp'
    · exact h.rest_append _ hm hp

theorem SigInv.leave {i : ThreadId} {q : PromId} (h : SigInv es x) (he : worldEvents e = []) :
    SigInv (es ++ e) ((x.setReturning i none).disconnect q) := by
  refine h.quiet he rfl rfl (fun s p hp => (List.mem_filter.1 hp).1) (fun j c m hm p hp => h.rest_append _ hm hp)
    (fun j c r hr => ?_)
  simp only [disconnect, setReturning] at hr
  split at hr
  · cases hr
  · exact hr

theorem SigInv.step {a : SigAction V} (h : SigInv es x) (hs : x.step a = some (x', e)) (hu : Undisturbed x a e) :
    SigInv (es ++ e) x' := by
  cases a with
  | base a =>
    simp only [SigWorld.step] at hs
    split at hs
    · next hal =>
      have hnames : ∀ p, a.names = some p → x.waits p = none := fun p hp => by
        simp only [allows, hp, Bool.and_eq_true, Option.isNone_iff_eq_none] at hal
        exact hal.1
      refine h.stepWorld hs hu.noQuit hu.oneTimed hu.unmarked (fun p j t d hp ha => ?_) (fun p s j t o hp ha => ?_)
      · exact hp (hnames p (by rw [ha]; rfl))
      · rw [hnames p (by rw [ha]; rfl)] at hp
        cases hp
    · cases hs
  | wait i t s d =>
    simp only [SigWorld.step] at hs
    split at hs
    · exact h.startWait hs hu
    · cases hs
  | emit i s v =>
    simp only [SigWorld.step] at hs
    split at hs
    · split at hs <;> first | (obtain ⟨rfl, rfl⟩ := Prod.mk.inj (Option.some.inj hs); exact h.emit) | cases hs
    · cases hs
  | callSlot i t =>
    simp only [SigWorld.step] at hs
    split at hs
    · split at hs
      · next s v p rest l hl =>
        have hm : ⟨s, v, p :: rest⟩ ∈ x.emitting i (x.world.cur i) := by rw [hl]; exact List.mem_cons_self
        have hshort : SigInv es (x.setEmitting i (⟨s, v, rest⟩ :: l)) := h.shorten fun m hm' q hq => by
          rcases List.mem_cons.1 hm' with rfl | hm'
          · exact ⟨_, hm, rfl, rfl, List.mem_cons_of_mem _ hq⟩
          · exact ⟨m, by rw [hl]; exact List.mem_cons_of_mem _ hm', rfl, rfl, hq⟩
        split at hs
        · refine hshort.stepWorld hs hu.noQuit hu.oneTimed hu.unmarked (fun _ _ _ _ _ ha => by cases ha)
            (fun q r j t' o hq ha => ?_)
          cases ha
          obtain ⟨hw, hv⟩ := h.rest i _ _ hm p List.mem_cons_self
          obtain rfl : s = r := Option.some.inj (hw.symm.trans hq)
          exact ⟨v, rfl, hv⟩
        · obtain ⟨rfl, rfl⟩ := Prod.mk.inj (Option.some.inj hs)
          rwa [List.append_nil]
      · next s v l hl =>
        obtain ⟨rfl, rfl⟩ := Prod.mk.inj (Option.some.inj hs)
        rw [List.append_nil]
        exact h.shorten fun m hm q hq => ⟨m, by rw [hl]; exact List.mem_cons_of_mem _ hm, rfl, rfl, hq⟩
      · cases hs
    · cases hs
  | leave i =>
    simp only [SigWorld.step] at hs
    split at hs
    · obtain ⟨v, -, he⟩ := Option.map_eq_some_iff.1 hs
      obtain ⟨rfl, rfl⟩ := Prod.mk.inj he
      exact h.leave rfl
    · obtain ⟨rfl, rfl⟩ := Prod.mk.inj (Option.some.inj hs)
      exact h.leave rfl
    · cases hs

theorem sigInv_init : SigInv [] ({} : SigWorld V) where
  grounded := World.grounded_init
  made := fun p s hp => by cases hp
  slots := fun s p hp => by cases hp
  rest := fun i c m hm => by cases hm
  fresh := fun p _ => rfl
  returning := fun i c p o hr => by cases hr

theorem sigInv_run (h : Run step (fun _ => Undisturbed) {} x es) : SigInv es x :=
  h.inv SigInv sigInv_init fun _ _ _ _ _ hI hok hs => hI.step hs hok

/-- What only `leave` emits. -/
theorem stepWorld_events {a : Action V} (hs : x.stepWorld a = some (x', e)) :
    (∀ p v, .returned p v ∉ e) ∧ ∀ p r, .threw p r ∉ e := by
  obtain ⟨⟨w, ew⟩, -, he⟩ := Option.map_eq_some_iff.1 hs
  obtain ⟨-, rfl⟩ := Prod.mk.inj he
  exact ⟨fun p v => by simp, fun p r => by simp⟩

/-- Where a `cmt::wait` ends. -/
theorem step_leaves {a : SigAction V} (hs : x.step a = some (x', e)) :
    (∀ v, .returned p v ∈ e → ∃ i o, x.returning i (x.world.cur i) = some (p, .value o) ∧
      (x.world.prom p).value = some v) ∧
    ∀ r, .threw p r ∈ e → ∃ i, x.returning i (x.world.cur i) = some (p, .error r) := by
  have hnone : (∀ p v, .returned p v ∉ e) ∧ (∀ p r, .threw p r ∉ e) → _ := fun h =>
    (⟨fun v hv => absurd hv (h.1 p v), fun r hr => absurd hr (h.2 p r)⟩ :
      (∀ v, .returned p v ∈ e → ∃ i o, x.returning i (x.world.cur i) = some (p, .value o) ∧
        (x.world.prom p).value = some v) ∧
      ∀ r, .threw p r ∈ e → ∃ i, x.returning i (x.world.cur i) = some (p, .error r))
  cases a with
  | base a =>
    simp only [SigWorld.step] at hs
    split at hs
    · exact hnone (stepWorld_events hs)
    · cases hs
  | wait i t s d =>
    simp only [SigWorld.step] at hs
    split at hs
    · simp only [SigWorld.startWait, Option.bind_eq_bind, Option.bind_eq_some_iff] at hs
      obtain ⟨r₁, -, r₂, -, he⟩ := hs
      obtain ⟨-, rfl⟩ := Prod.mk.inj (Option.some.inj he)
      exact hnone ⟨fun p v => by simp, fun p r => by simp⟩
    · cases hs
  | emit i s v =>
    simp only [SigWorld.step] at hs
    split at hs
    · split at hs <;> first
        | (obtain ⟨-, rfl⟩ := Prod.mk.inj (Option.some.inj hs); exact hnone ⟨fun p v => by simp, fun p r => by simp⟩)
        | cases hs
    · cases hs
  | callSlot i t =>
    simp only [SigWorld.step] at hs
    split at hs
    · split at hs
      · split at hs
        · exact hnone (stepWorld_events hs)
        · obtain ⟨-, rfl⟩ := Prod.mk.inj (Option.some.inj hs)
          exact hnone ⟨fun p v => by simp, fun p r => by simp⟩
      · obtain ⟨-, rfl⟩ := Prod.mk.inj (Option.some.inj hs)
        exact hnone ⟨fun p v => by simp, fun p r => by simp⟩
      · cases hs
    · cases hs
  | leave i =>
    simp only [SigWorld.step] at hs
    split at hs
    · next q o hret =>
      obtain ⟨v, hv, he⟩ := Option.map_eq_some_iff.1 hs
      obtain ⟨-, rfl⟩ := Prod.mk.inj he
      refine ⟨fun v' hv' => ?_, fun r hr => by simp at hr⟩
      obtain ⟨rfl, rfl⟩ : p = q ∧ v' = v := by simpa using hv'
      exact ⟨i, o, hret, hv⟩
    · next q r hret =>
      obtain ⟨-, rfl⟩ := Prod.mk.inj (Option.some.inj hs)
      refine ⟨fun v' hv' => by simp at hv', fun r' hr => ?_⟩
      obtain ⟨rfl, rfl⟩ : p = q ∧ r' = r := by simpa using hr
      exact ⟨i, hret⟩
    · cases hs

/-- Context `c` of thread `i` is going to be woken for `p`: somebody who has stored into `p` has not returned, or
has posted a `notify` to the thread, and that `notify` makes the context ready. -/
def WakesUp (x : SigWorld V) (p : PromId) (i : ThreadId) (c : CtxId) : Prop :=
  ((∃ j c' pc o b k, x.world.stack j c' = .set pc p o b :: k ∧ pc ≠ .store) ∨
    ∃ t ∈ (x.world.thr i).tasks, t.body = .notify p) ∧
  ∃ s R, (x.world.thr i).notify p = some s ∧ Chain (fun c => (s.ctx c).next) s.readyHead R ∧ c ∈ R

/-- In every run that leaves `cmt::wait` alone: a context that is blocked in it is going to be woken as soon as an
emission has stored, `cmt::wait` does not throw, and it returns the first emission exactly if the emission that has
stored last when the value is copied carries that value. -/
theorem first_emission_returned (h : Run step (fun _ => Undisturbed) {} x es) {a : SigAction V}
    (hs : x.step a = some (x', e)) (hp : x.waits p = some s) :
    (∀ v, .returned p v ∈ e →
      ∃ v₁, (emissions p s es).head? = some v₁ ∧ (v = v₁ ↔ (stored p es).getLast? = some v₁)) ∧
    (∀ r, .threw p r ∉ e) ∧ (∀ v ∈ stored p es, v ∈ emissions p s es) ∧
    ∀ i c, (x.world.thr i).BlockedOn p c → stored p es ≠ [] → WakesUp x p i c := by
  have hI := sigInv_run h
  obtain ⟨-, home, hslot⟩ := hI.made p s hp
  refine ⟨fun v hv => ?_, fun r hr => ?_, (hslot 0).stored, fun i c hb hne => ?_⟩
  · obtain ⟨i, o, -, hval⟩ := (step_leaves hs).1 v hv
    have hlast : (stored p es).getLast? = some v := (hslot 0).value.symm.trans hval
    obtain ⟨v₁, hv₁⟩ : ∃ v₁, (emissions p s es).head? = some v₁ := by
      have hmem := (hslot 0).stored v (List.mem_of_getLast? hlast)
      exact Option.ne_none_iff_exists'.1 fun hnone => by
        rw [List.head?_eq_none_iff.1 hnone] at hmem
        cases hmem
    refine ⟨v₁, hv₁, ?_⟩
    rw [hlast]
    exact ⟨fun hv => hv ▸ rfl, Option.some.inj⟩
  · obtain ⟨i, hret⟩ := (step_leaves hs).2 r hr
    obtain ⟨-, ⟨v, hv⟩, -⟩ := hI.returning i _ p _ hret
    cases hv
  · have hready : (x.world.prom p).ready = true := by
      have hlast := List.getLast?_eq_some_getLast hne
      simp [Promise.ready, (hslot i).value.trans hlast]
    refine ⟨?_, (hslot i).notify_readies hb⟩
    rcases (hslot i).served hready i c (.inl hb) with ⟨j, c', pc, o, b, k, hk, hpc⟩ | ht | ⟨-, t, ht, -⟩
    · exact .inl ⟨j, c', pc, o, b, k, hk, by rcases hpc with rfl | rfl <;> simp⟩
    · exact .inr ht
    · cases ht

theorem stepWorld_small {N : Nat} {a : Action V} (h : World.Small N x.world) (ha : a.thread < N)
    (hs : x.stepWorld a = some (x', e)) : World.Small N x'.world := by
  obtain ⟨⟨w, ew⟩, hw, he⟩ := Option.map_eq_some_iff.1 hs
  obtain ⟨rfl, rfl⟩ := Prod.mk.inj he
  exact h.step hw ha

theorem step_small {N : Nat} {a : SigAction V} (h : World.Small N x.world) (ha : a.thread < N)
    (hs : x.step a = some (x', e)) : World.Small N x'.world := by
  cases a with
  | base a =>
    simp only [SigWorld.step] at hs
    split at hs
    · exact stepWorld_small h ha hs
    · cases hs
  | wait i t s d =>
    simp only [SigWorld.step] at hs
    split at hs
    · simp only [SigWorld.startWait, Option.bind_eq_bind, Option.bind_eq_some_iff] at hs
      obtain ⟨⟨w₁, e₁⟩, h₁, ⟨w₂, e₂⟩, h₂, he⟩ := hs
      obtain ⟨rfl, -⟩ := Prod.mk.inj (Option.some.inj he)
      exact (h.step h₁ ha).step h₂ ha
    · cases hs
  | emit i s v =>
    simp only [SigWorld.step] at hs
    split at hs
    · split at hs <;> first | (obtain ⟨rfl, -⟩ := Prod.mk.inj (Option.some.inj hs); exact h) | cases hs
    · cases hs
  | callSlot i t =>
    simp only [SigWorld.step] at hs
    split at hs
    · split at hs
      · split at hs
        · exact stepWorld_small (x := x.setEmitting i _) (a := .call i t (.set _ _)) h ha hs
        · obtain ⟨rfl, -⟩ := Prod.mk.inj (Option.some.inj hs)
          exact h
      · obtain ⟨rfl, -⟩ := Prod.mk.inj (Option.some.inj hs)
        exact h
      · cases hs
    · cases hs
  | leave i =>
    simp only [SigWorld.step] at hs
    split at hs
    · obtain ⟨v, -, he⟩ := Option.map_eq_some_iff.1 hs
      obtain ⟨rfl, -⟩ := Prod.mk.inj he
      exact h
    · obtain ⟨rfl, -⟩ := Prod.mk.inj (Option.some.inj hs)
      exact h
    · cases hs

/-- The check of `Undisturbed` on the threads below `N`. -/
def undisturbedCheck (N : Nat) (x : SigWorld V) (a : SigAction V) (e : List (SigEvent V)) : Bool :=
  decide (a.thread < N) && (worldEvents e).all (fun y => !(y matches .quitted _)) && World.singleWaiterCheck N x.world &&
    (List.range N).all (fun i => !x.world.currentCanceled i) &&
    match a with
    | .wait _ _ _ d => d == timePointMax
    | _ => true

theorem undisturbedCheck_sound {N : Nat} {a : SigAction V} (h : World.Small N x.world)
    (hc : undisturbedCheck N x a e = true) : a.thread < N ∧ Undisturbed x a e := by
  simp only [undisturbedCheck, Bool.and_eq_true, decide_eq_true_eq, List.all_eq_true, List.mem_range] at hc
  obtain ⟨⟨⟨⟨hlt, hq⟩, hsingle⟩, hmark⟩, htimed⟩ := hc
  refine ⟨hlt, fun j hj => by simpa using hq _ hj, (World.singleWaiterCheck_sound h hsingle).oneTimed,
    fun p i _ hf => h.unmarked (fun i hi => by simpa using hmark i hi) hf, fun i t s d ha => ?_⟩
  subst ha
  exact eq_of_beq htimed

/-- Executing actions that pass the check is a run. -/
theorem run_of_undisturbed (N : Nat) (f : SigWorld V → List (SigEvent V) → Bool) (as : List (SigAction V))
    (h : ((exec step (fun _ => undisturbedCheck N) [] {} as).any fun r => f r.1 r.2) = true) :
    ∃ x es, Run step (fun _ => Undisturbed) {} x es ∧ f x es = true := by
  have hrun : ∃ x es, Run step (fun _ => Undisturbed) {} x es ∧ World.Small N x.world ∧ f x es = true := by
    refine run_of_exec (fun x => World.Small N x.world) (World.small_init N) (fun es x a x' e hsm hc hs => ?_)
      (fun es x a e hsm hc => ?_) h
    · exact step_small hsm (undisturbedCheck_sound hsm hc).1 hs
    · exact (undisturbedCheck_sound hsm hc).2
  obtain ⟨x, es, hrun, -, hf⟩ := hrun
  exact ⟨x, es, hrun, hf⟩

/-- A context of thread 0 waits for signal 0, thread 1 emits 7, and `cmt::wait` returns 7. -/
theorem first_emission_returned_seven : ∃ (x x' : SigWorld Nat) (es e : List (SigEvent Nat)),
    (Run step (fun _ => Undisturbed) {} x es ∧ x.step (.leave 0) = some (x', e) ∧ x.waits 0 = some 0 ∧
      .returned 0 7 ∈ e) ∧
    (∀ v, .returned 0 v ∈ e →
      ∃ v₁, (emissions 0 0 es).head? = some v₁ ∧ (v = v₁ ↔ (stored 0 es).getLast? = some v₁)) ∧
    (∀ r, .threw 0 r ∉ e) ∧ (∀ v ∈ stored 0 es, v ∈ emissions 0 0 es) ∧
    ∀ i c, (x.world.thr i).BlockedOn 0 c → stored 0 es ≠ [] → WakesUp x 0 i c := by
  obtain ⟨x, es, h, hf⟩ := run_of_undisturbed (V := Nat) 2
    (fun x _ => decide (x.waits 0 = some 0) &&
      (x.step (.leave 0)).any fun (r : SigWorld Nat × List (SigEvent Nat)) => decide (.returned 0 7 ∈ r.2))
    [.wait 0 0 0 timePointMax, .base (.run 0 0 0 0), .base (.run 0 0 0 0), .base (.run 0 0 0 0),
      .emit 1 0 7, .callSlot 1 0, .base (.run 1 0 0 0), .base (.run 1 0 0 0), .base (.run 1 0 0 0), .callSlot 1 0,
      -- thread 0 runs the `notify` and switches back
      .base (.run 0 0 0 0), .base (.run 0 0 0 0), .base (.run 0 0 0 0), .base (.run 0 0 0 0), .base (.run 0 0 0 0),
      .base (.run 0 0 0 0), .base (.run 0 0 0 0)] (by decide)
  simp only [Bool.and_eq_true, decide_eq_true_eq, Option.any_eq_true] at hf
  obtain ⟨hp, ⟨x', e⟩, hs, hv⟩ := hf
  exact ⟨x, x', es, e, ⟨h, hs, hp, hv⟩, first_emission_returned h hs hp⟩

/-- Thread 1 emits 1 and then 2 before thread 0 goes on, and `cmt::wait` returns 2. -/
theorem second_emission_returned : ∃ (x x' : SigWorld Nat) (es e : List (SigEvent Nat)),
    Run step (fun _ => Undisturbed) {} x es ∧ x.step (.leave 0) = some (x', e) ∧ x.waits 0 = some 0 ∧
      emissions 0 0 es = [1, 2] ∧ e = [.returned 0 2] := by
  obtain ⟨x, es, h, hf⟩ := run_of_undisturbed (V := Nat) 2
    (fun x es => decide (x.waits 0 = some 0 ∧ emissions 0 0 es = [1, 2]) &&
      (x.step (.leave 0)).any fun (r : SigWorld Nat × List (SigEvent Nat)) => decide (r.2 = [.returned 0 2]))
    [.wait 0 0 0 timePointMax, .base (.run 0 0 0 0), .base (.run 0 0 0 0), .base (.run 0 0 0 0),
      .emit 1 0 1, .callSlot 1 0, .base (.run 1 0 0 0), .base (.run 1 0 0 0), .base (.run 1 0 0 0), .callSlot 1 0,
      .emit 1 0 2, .callSlot 1 0, .base (.run 1 0 0 0), .base (.run 1 0 0 0), .base (.run 1 0 0 0), .callSlot 1 0,
      .base (.run 0 0 0 0), .base (.run 0 0 0 0), .base (.run 0 0 0 0), .base (.run 0 0 0 0), .base (.run 0 0 0 0),
      .base (.run 0 0 0 0), .base (.run 0 0 0 0), .base (.run 0 0 0 0), .base (.run 0 0 0 0), .base (.run 0 0 0 0)]
    (by decide)
  simp only [Bool.and_eq_true, decide_eq_true_eq, Option.any_eq_true] at hf
  obtain ⟨⟨hp, hem⟩, ⟨x', e⟩, hs, he⟩ := hf
  exact ⟨x, x', es, e, h, hs, hp, hem, he⟩

end SigWorld

end BoostCmt
