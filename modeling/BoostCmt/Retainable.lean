import Mathlib.Algebra.Group.Int.Defs
import Mathlib.Algebra.Group.Nat.Defs
import Mathlib.Data.List.Basic
import BoostCmt.Lib.Runs
/-!
# Reference counts

`retainable` and `retainable_ptr` of `retainable.hpp`, and the programs over them:
any sequence of constructions, assignments, conversions, casts, resets and
destructions of pointers, with calls of `retain()` and `release()` by hand that
balance. An object is a number, and so is a pointer; the types of the pointers only
restrict which programs compile. What an object's own destructor does is up to its
class.

A reference held by hand is a `retain()` that has no `release()` yet, or the
reference a fresh object is constructed with, until a pointer adopts it.
-/

namespace BoostCmt.Retainable

open Runs

abbrev ObjId := Nat
abbrev PtrId := Nat

/-- `int32_t` arithmetic of the atomic counter. -/
def int32 (x : Int) : Int := Int.bmod x (2 ^ 32)

structure Object where
  /-- `m_ref_count`. -/
  refCount : Int := 0
  /-- The classes that `dynamic_cast` finds in the object. -/
  classes : List Nat := []
  /-- The references held by hand. -/
  manual : Nat := 0

structure Heap where
  object : ObjId → Object := fun _ => {}
  objects : Nat := 0
  /-- `cnt` of each pointer constructed so far, or `none` once the pointer is destroyed. -/
  ptrs : List (Option (Option ObjId)) := []

namespace Heap

def modObject (h : Heap) (o : ObjId) (f : Object → Object) : Heap :=
  { h with object := fun x => if x = o then f (h.object x) else h.object x }

/-- `cnt` of a live pointer. -/
def cnt (h : Heap) (v : PtrId) : Option (Option ObjId) := h.ptrs[v]?.join

def setCnt (h : Heap) (v : PtrId) (t : Option ObjId) : Heap := { h with ptrs := h.ptrs.set v (some t) }

/-- A pointer is constructed with this `cnt`. -/
def push (h : Heap) (t : Option ObjId) : Heap := { h with ptrs := h.ptrs ++ [some t] }

/-- The live pointers that hold an object, and its references held by hand. -/
def refs (h : Heap) (o : ObjId) : Nat := h.ptrs.count (some (some o)) + (h.object o).manual

/-- `retainable::retain`. -/
def retain (h : Heap) (o : ObjId) : Heap := h.modObject o fun x => { x with refCount := int32 (x.refCount + 1) }

/-- `retainable::release`, with the object if it is deleted. -/
def release (h : Heap) (o : ObjId) : Heap × List ObjId :=
  (h.modObject o fun x => { x with refCount := int32 (x.refCount - 1) }, if (h.object o).refCount = 1 then [o] else [])

/-- `if( cnt ) cnt->retain()`. -/
def retain? (h : Heap) : Option ObjId → Heap
  | some o => h.retain o
  | none => h

/-- `if( cnt ) cnt->release()`. -/
def release? (h : Heap) : Option ObjId → Heap × List ObjId
  | some o => h.release o
  | none => (h, [])

/-- `dynamic_cast<U*>`. -/
def dynamicCast (h : Heap) (U : Nat) (t : Option ObjId) : Option ObjId :=
  t.filter fun o => (h.object o).classes.contains U

end Heap

inductive Op where
  /-- `new T`: an object whose reference is held by hand. -/
  | make (classes : List Nat)
  /-- `retainable_ptr( T* t, bool inc )`. -/
  | construct (t : Option ObjId) (inc : Bool)
  | copyConstruct (copy : PtrId)
  | moveConstruct (mv : PtrId)
  | destroy (v : PtrId)
  /-- `operator retainable_ptr<U>`. -/
  | convert (v : PtrId) (U : Nat)
  | dynamicRetainableCast (v : PtrId) (T : Nat)
  | staticRetainableCast (v : PtrId)
  | reset (v : PtrId)
  | assign (v copy : PtrId)
  | moveAssign (v mv : PtrId)
  /-- `retain()` and `release()` by hand. -/
  | retain (o : ObjId)
  | release (o : ObjId)
  deriving DecidableEq, Repr

/-- One operation, with the objects it deletes. It needs live pointers, and an object that somebody holds. -/
def step (h : Heap) : Op → Option (Heap × List ObjId)
  | .make classes =>
    some ({ h.modObject h.objects (fun _ => { refCount := 1, classes, manual := 1 }) with objects := h.objects + 1 }, [])
  | .construct none _ => some (h.push none, [])
  | .construct (some o) true => if 0 < h.refs o then some ((h.push (some o)).retain o, []) else none
  | .construct (some o) false =>
    if 0 < (h.object o).manual then
      some ((h.modObject o fun x => { x with manual := x.manual - 1 }).push (some o), [])
    else none
  | .copyConstruct copy => do
    let t ← h.cnt copy
    some ((h.push t).retain? t, [])
  | .moveConstruct mv => do
    let t ← h.cnt mv
    some ((h.push t).setCnt mv none, [])
  | .destroy v => do
    let t ← h.cnt v
    let (h, es) := h.release? t
    some ({ h with ptrs := h.ptrs.set v none }, es)
  | .convert v U => do
    let t ← h.cnt v
    let u := h.dynamicCast U t
    some ((h.push u).retain? u, [])
  | .dynamicRetainableCast v T => do
    let u ← h.cnt v
    let t := h.dynamicCast T u
    some ((h.retain? t).push t, [])
  | .staticRetainableCast v => do
    let t ← h.cnt v
    some ((h.retain? t).push t, [])
  | .reset v => do
    let t ← h.cnt v
    match t with
    | none => some (h, [])
    | some o =>
      let (h, es) := h.release o
      some (h.setCnt v none, es)
  | .assign v copy => do
    let t ← h.cnt v
    let t' ← h.cnt copy
    if t = t' then some (h, [])
    else
      let (h, es) := h.release? t
      some ((h.setCnt v t').retain? t', es)
  | .moveAssign v mv => do
    let _ ← h.cnt v
    let t' ← h.cnt mv
    some ((h.setCnt v t').setCnt mv none, [])
  | .retain o =>
    if 0 < h.refs o then some ((h.retain o).modObject o fun x => { x with manual := x.manual + 1 }, []) else none
  | .release o =>
    if 0 < (h.object o).manual then
      let (h, es) := h.release o
      some (h.modObject o fun x => { x with manual := x.manual - 1 }, es)
    else none

/-- Every count is right, and an object has been deleted once if its count is zero and never before. -/
structure Exact (h : Heap) (es : List ObjId) : Prop where
  counts : ∀ o, (h.object o).refCount = h.refs o
  deleted : ∀ o, o < h.objects → es.count o = if h.refs o = 0 then 1 else 0
  fresh : ∀ o, h.objects ≤ o → h.refs o = 0 ∧ o ∉ es

/-! ## What the parts of an operation do to the counts -/

section Parts
variable {h h' : Heap} {o x : ObjId} {v : PtrId} {t t' : Option ObjId} {es e : List ObjId}

theorem int32_of_small {n : Int} (h₀ : 0 ≤ n) (h₁ : n < 2 ^ 31) : int32 n = n := by
  unfold int32
  rw [Int.bmod_def]
  split <;> omega

/-- One if the pointer holds the object. -/
def held (t : Option ObjId) (o : ObjId) : Nat := if t = some o then 1 else 0

@[simp] theorem held_none (o : ObjId) : held none o = 0 := rfl

theorem held_some (x o : ObjId) : held (some x) o = if o = x then 1 else 0 := by
  simp [held, eq_comm]

@[simp] theorem push_object (h : Heap) (t : Option ObjId) : (h.push t).object = h.object := rfl

@[simp] theorem setCnt_object (h : Heap) (v : PtrId) (t : Option ObjId) : (h.setCnt v t).object = h.object := rfl

@[simp] theorem retain_refs (h : Heap) (x o : ObjId) : (h.retain x).refs o = h.refs o := by
  simp only [Heap.refs, Heap.retain, Heap.modObject]
  split <;> rfl

@[simp] theorem release_refs (h : Heap) (x o : ObjId) : (h.release x).1.refs o = h.refs o := by
  simp only [Heap.refs, Heap.release, Heap.modObject]
  split <;> rfl

@[simp] theorem push_refs (h : Heap) (t : Option ObjId) (o : ObjId) : (h.push t).refs o = h.refs o + held t o := by
  simp only [Heap.refs, Heap.push, List.count_append, List.count_singleton, held, beq_iff_eq, Option.some.injEq]
  omega

theorem cnt_lt (hv : h.cnt v = some t) : v < h.ptrs.length := by
  rcases Nat.lt_or_ge v h.ptrs.length with hlt | hge
  · exact hlt
  · rw [Heap.cnt, List.getElem?_eq_none hge] at hv
    cases hv

theorem cnt_getElem (hv : h.cnt v = some t) : h.ptrs[v]? = some (some t) := by
  simp only [Heap.cnt, Option.join_eq_some_iff] at hv
  exact hv

/-- Overwriting a pointer moves one reference. -/
theorem set_refs (hv : h.cnt v = some t) (n : Option (Option ObjId)) (o : ObjId) :
    ({ h with ptrs := h.ptrs.set v n } : Heap).refs o + held t o = h.refs o + (if n = some (some o) then 1 else 0) := by
  have hlt := cnt_lt hv
  have hget : h.ptrs[v] = some t := by
    have := cnt_getElem hv
    rwa [List.getElem?_eq_getElem hlt, Option.some.injEq] at this
  have hpos : t = some o → 0 < h.ptrs.count (some (some o)) := fun e => by
    rw [List.count_pos_iff, ← e, ← hget]
    exact List.getElem_mem hlt
  simp only [Heap.refs, List.count_set hlt, hget, held, beq_iff_eq, Option.some.injEq]
  split
  · next e =>
    have := hpos e
    omega
  · omega

theorem setCnt_refs (hv : h.cnt v = some t) (t' : Option ObjId) (o : ObjId) :
    (h.setCnt v t').refs o + held t o = h.refs o + held t' o := by
  have := set_refs hv (some t') o
  simpa [held, Heap.setCnt] using this

/-- A pointer that holds an object is one of its references. -/
theorem held_le_refs (hv : h.cnt v = some t) (o : ObjId) : held t o ≤ h.refs o := by
  have := set_refs hv none o
  simp only [reduceCtorEq, if_false] at this
  omega

theorem retain?_refs (h : Heap) (t : Option ObjId) (o : ObjId) : (h.retain? t).refs o = h.refs o := by
  cases t <;> simp [Heap.retain?]

theorem release?_refs (h : Heap) (t : Option ObjId) (o : ObjId) : (h.release? t).1.refs o = h.refs o := by
  cases t <;> simp [Heap.release?]

theorem retain?_count (hsmall : ∀ o, 0 ≤ (h.object o).refCount ∧ (h.object o).refCount < 2 ^ 31 - 1)
    (t : Option ObjId) (o : ObjId) :
    ((h.retain? t).object o).refCount = (h.object o).refCount + held t o := by
  cases t with
  | none => simp [Heap.retain?]
  | some x =>
    simp only [Heap.retain?, Heap.retain, Heap.modObject, held_some]
    split
    · have := hsmall o
      show int32 _ = _
      rw [int32_of_small] <;> omega
    · simp

theorem release?_count (hsmall : ∀ o, (h.object o).refCount < 2 ^ 31)
    (hpos : ∀ x, t = some x → 0 < (h.object x).refCount) (o : ObjId) :
    ((h.release? t).1.object o).refCount = (h.object o).refCount - held t o ∧
      (h.release? t).2.count o = if held t o = 1 ∧ (h.object o).refCount = 1 then 1 else 0 := by
  cases t with
  | none => simp [Heap.release?]
  | some x =>
    have h₁ := hpos x rfl
    have h₂ := hsmall o
    simp only [Heap.release?, Heap.release, Heap.modObject, held_some]
    by_cases hx : o = x
    · subst hx
      refine ⟨?_, ?_⟩
      · simp only [if_true]
        rw [int32_of_small] <;> omega
      · by_cases hc : (h.object o).refCount = 1 <;> simp [hc]
    · simp only [if_neg hx]
      refine ⟨by simp, ?_⟩
      split <;> simp [Ne.symm hx]

end Parts

/-- An operation that keeps the difference of every count and its references, leaves objects without references
alone, and deletes those that lose their last one. -/
structure Balanced (h h' : Heap) (e : List ObjId) : Prop where
  objects : h'.objects = h.objects
  count : ∀ o, (h'.object o).refCount - h'.refs o = (h.object o).refCount - h.refs o
  dead : ∀ o, h.refs o = 0 → h'.refs o = 0
  deletes : ∀ o, e.count o = if 0 < h.refs o ∧ h'.refs o = 0 then 1 else 0

theorem Exact.balanced {h h' : Heap} {es e : List ObjId} (hE : Exact h es) (hb : Balanced h h' e) :
    Exact h' (es ++ e) := by
  have hdead : ∀ o, h.refs o = 0 → o ∉ e := fun o ho => by
    rw [← List.count_eq_zero, hb.deletes o, if_neg (by omega)]
  refine ⟨fun o => ?_, fun o ho => ?_, fun o ho => ?_⟩
  · have := hb.count o
    have := hE.counts o
    omega
  · rw [List.count_append, hE.deleted o (hb.objects ▸ ho), hb.deletes o]
    have := hb.dead o
    by_cases h₁ : h.refs o = 0
    · simp [h₁, this h₁]
    · simp [h₁, Nat.pos_of_ne_zero h₁]
  · obtain ⟨hr, he⟩ := hE.fresh o (hb.objects ▸ ho)
    exact ⟨hb.dead o hr, by simp [he, hdead o hr]⟩

/-! ## Operations and runs -/

/-- No move assignment overwrites a pointer that holds an object. -/
def moveTargetsNull (h : Heap) : Op → Bool
  | .moveAssign v _ => h.cnt v = some none
  | _ => true

/-- No object has all the references that fit in its count. -/
def Roomy (h : Heap) : Prop := ∀ o < h.objects, h.refs o < 2 ^ 31 - 1

section Ops
variable {h h' : Heap} {es e : List ObjId}

theorem Exact.small (hE : Exact h es) (hr : Roomy h) (o : ObjId) :
    0 ≤ (h.object o).refCount ∧ (h.object o).refCount < 2 ^ 31 - 1 := by
  rw [hE.counts o]
  rcases Nat.lt_or_ge o h.objects with ho | ho
  · have := hr o ho
    omega
  · rw [(hE.fresh o ho).1]
    omega

theorem Exact.held_pos (hE : Exact h es) {v : PtrId} {t : Option ObjId} (hv : h.cnt v = some t) (x : ObjId)
    (hx : t = some x) : 0 < (h.object x).refCount := by
  have := held_le_refs hv x
  rw [hx, held_some, if_pos rfl] at this
  rw [hE.counts x]
  omega

theorem held_le_one (t : Option ObjId) (o : ObjId) : held t o ≤ 1 := by
  unfold held
  split <;> omega

/-- Constructing a pointer and counting it, in either order. -/
theorem Exact.addRef (hE : Exact h es) (hr : Roomy h) {t : Option ObjId} (ht : ∀ o, held t o ≤ h.refs o) :
    Balanced h ((h.push t).retain? t) [] ∧ Balanced h ((h.retain? t).push t) [] := by
  have hs := hE.small hr
  constructor
  · refine ⟨by cases t <;> rfl, fun o => ?_, fun o ho => ?_, fun o => ?_⟩
    · rw [retain?_count (by simpa using hs), retain?_refs, push_refs, push_object]
      omega
    · rw [retain?_refs, push_refs]
      have := ht o
      omega
    · rw [retain?_refs, push_refs, List.count_nil, if_neg (by omega)]
  · refine ⟨by cases t <;> rfl, fun o => ?_, fun o ho => ?_, fun o => ?_⟩
    · rw [push_refs, push_object, retain?_count hs, retain?_refs]
      omega
    · rw [push_refs, retain?_refs]
      have := ht o
      omega
    · rw [push_refs, retain?_refs, List.count_nil, if_neg (by omega)]

theorem release?_ptrs (h : Heap) (t : Option ObjId) :
    (h.release? t).1.ptrs = h.ptrs ∧ (h.release? t).1.objects = h.objects := by
  cases t <;> exact ⟨rfl, rfl⟩

/-- Releasing what a pointer holds and then overwriting the pointer. -/
theorem Exact.dropRef (hE : Exact h es) (hr : Roomy h) {v : PtrId} {t : Option ObjId} (hv : h.cnt v = some t)
    (n : Option (Option ObjId)) (hn : ∀ o, n ≠ some (some o)) :
    Balanced h { (h.release? t).1 with ptrs := (h.release? t).1.ptrs.set v n } (h.release? t).2 := by
  have hs := hE.small hr
  have hrel := release?_count (h := h) (t := t) (fun o => by have := hs o; omega) (hE.held_pos hv)
  obtain ⟨hptrs, hobjs⟩ := release?_ptrs h t
  have hv' : (h.release? t).1.cnt v = some t := by rw [Heap.cnt, hptrs]; exact hv
  have hrefs : ∀ o, ({ (h.release? t).1 with ptrs := (h.release? t).1.ptrs.set v n } : Heap).refs o + held t o =
      h.refs o := fun o => by
    have := set_refs hv' n o
    rwa [if_neg (hn o), release?_refs] at this
  refine ⟨hobjs, fun o => ?_, fun o ho => ?_, fun o => ?_⟩
  · have := hrefs o
    have := (hrel o).1
    show ((h.release? t).1.object o).refCount - _ = _
    omega
  · have := hrefs o
    omega
  · have h₁ := hrefs o
    have h₂ := hE.counts o
    have h₃ := held_le_one t o
    rw [(hrel o).2]
    congr 1
    apply propext
    omega

/-- Copy assignment of another object. -/
theorem Exact.replaceRef (hE : Exact h es) (hr : Roomy h) {v copy : PtrId} {t t' : Option ObjId}
    (hv : h.cnt v = some t) (hc : h.cnt copy = some t') (hne : t ≠ t') :
    Balanced h (((h.release? t).1.setCnt v t').retain? t') (h.release? t).2 := by
  have hs := hE.small hr
  have hrel := release?_count (h := h) (t := t) (fun o => by have := hs o; omega) (hE.held_pos hv)
  obtain ⟨hptrs, hobjs⟩ := release?_ptrs h t
  have hv' : (h.release? t).1.cnt v = some t := by rw [Heap.cnt, hptrs]; exact hv
  have hrefs : ∀ o, ((h.release? t).1.setCnt v t').refs o + held t o = h.refs o + held t' o := fun o => by
    rw [setCnt_refs hv', release?_refs]
  have hdis : ∀ o, held t o + held t' o ≤ 1 := fun o => by
    unfold held
    split
    · next e =>
      have ht' : t' ≠ some o := fun e' => hne (e.trans e'.symm)
      simp [ht']
    · split <;> omega
  have hret := retain?_count (h := (h.release? t).1.setCnt v t') (fun o => by
    have := (hrel o).1
    have := held_le_refs hv o
    have := hE.counts o
    have := hs o
    rw [setCnt_object]
    omega) t'
  have hle := held_le_refs hv
  have hle' := held_le_refs hc
  refine ⟨by cases t' <;> exact hobjs, fun o => ?_, fun o ho => ?_, fun o => ?_⟩
  · have := hrefs o
    have := (hrel o).1
    rw [hret, retain?_refs, setCnt_object]
    omega
  · rw [retain?_refs]
    have := hrefs o
    have := hle' o
    omega
  · have h₁ := hrefs o
    have h₂ := hE.counts o
    have h₃ := hdis o
    have h₄ := hle o
    have h₅ := hle' o
    rw [(hrel o).2, retain?_refs]
    congr 1
    apply propext
    omega

/-- A reference changes hands. -/
theorem balanced_of_refs (hobj : ∀ o, (h'.object o).refCount = (h.object o).refCount)
    (hn : h'.objects = h.objects) (hrefs : ∀ o, h'.refs o = h.refs o) :
    Balanced h h' [] := by
  refine ⟨hn, fun o => by rw [hobj, hrefs], fun o ho => by rw [hrefs, ho], fun o => ?_⟩
  rw [hrefs, List.count_nil, if_neg (by omega)]

/-- References held by hand come and go with their counts. -/
theorem Exact.manualRef (hE : Exact h es) (hr : Roomy h) (x : ObjId) (hx : 0 < h.refs x) :
    Balanced h ((h.retain x).modObject x fun k => { k with manual := k.manual + 1 }) [] := by
  have hret := retain?_count (hE.small hr) (some x)
  simp only [Heap.retain?, held_some] at hret
  have hrefs : ∀ o, ((h.retain x).modObject x fun k => { k with manual := k.manual + 1 }).refs o =
      h.refs o + held (some x) o := fun o => by
    rw [← retain_refs h x o, held_some]
    simp only [Heap.refs, Heap.modObject]
    split
    · show _ + (_ + 1) = _
      omega
    · rfl
  have hcount : ∀ o, (((h.retain x).modObject x fun k => { k with manual := k.manual + 1 }).object o).refCount =
      ((h.retain x).object o).refCount := fun o => by
    simp only [Heap.modObject]
    split <;> rfl
  refine ⟨rfl, fun o => ?_, fun o ho => ?_, fun o => ?_⟩
  · rw [hcount, hret, hrefs, held_some]
    omega
  · rw [hrefs, held_some, if_neg (fun e => by rw [e] at ho; omega), ho]
  · rw [hrefs, List.count_nil, if_neg (by omega)]

theorem Exact.manualDrop (hE : Exact h es) (hr : Roomy h) (x : ObjId) (hx : 0 < (h.object x).manual) :
    Balanced h ((h.release x).1.modObject x fun k => { k with manual := k.manual - 1 }) (h.release x).2 := by
  have hle : (h.object x).manual ≤ h.refs x := Nat.le_add_left _ _
  have hrel := release?_count (h := h) (t := some x) (fun o => by have := hE.small hr o; omega) (fun y hy => by
    obtain rfl := Option.some.inj hy
    rw [hE.counts]
    omega)
  simp only [Heap.release?] at hrel
  have hrefs : ∀ o, ((h.release x).1.modObject x fun k => { k with manual := k.manual - 1 }).refs o +
      held (some x) o = h.refs o := fun o => by
    have hman : ((h.release x).1.object x).manual = (h.object x).manual := by simp [Heap.release, Heap.modObject]
    rw [← release_refs h x o, held_some]
    simp only [Heap.refs, Heap.modObject]
    split
    · next e =>
      subst e
      simp only [hman]
      omega
    · rfl
  have hcount : ∀ o, (((h.release x).1.modObject x fun k => { k with manual := k.manual - 1 }).object o).refCount =
      ((h.release x).1.object o).refCount := fun o => by
    simp only [Heap.modObject]
    split <;> rfl
  refine ⟨rfl, fun o => ?_, fun o ho => ?_, fun o => ?_⟩
  · have := hrefs o
    have := (hrel o).1
    rw [hcount]
    omega
  · have := hrefs o
    omega
  · have h₁ := hrefs o
    have h₂ := hE.counts o
    have h₃ := held_le_one (some x) o
    rw [(hrel o).2]
    congr 1
    apply propext
    omega

/-- A pointer adopts a reference that was held by hand. -/
theorem adopt_refs {x : ObjId} (hx : 0 < (h.object x).manual) (o : ObjId) :
    ((h.modObject x fun k => { k with manual := k.manual - 1 }).push (some x)).refs o = h.refs o := by
  rw [push_refs, held_some]
  simp only [Heap.refs, Heap.modObject]
  split
  · next e =>
    subst e
    show _ + ((h.object o).manual - 1) + 1 = _
    omega
  · rfl

/-- Moving what one pointer holds to a pointer that holds nothing. -/
theorem move_refs {v mv : PtrId} {t : Option ObjId} (hv : h.cnt v = some none) (hmv : h.cnt mv = some t)
    (o : ObjId) :
    ((h.setCnt v t).setCnt mv none).refs o = h.refs o := by
  have hmv' : (h.setCnt v t).cnt mv = some t := by
    have hlt := cnt_lt hv
    have := cnt_getElem hmv
    simp only [Heap.cnt, Heap.setCnt, List.getElem?_set, hlt, if_true]
    split
    · rfl
    · rw [this]; rfl
  have h₁ := setCnt_refs hmv' none o
  have h₂ := setCnt_refs hv t o
  simp only [held_none] at h₁ h₂
  omega

theorem dynamicCast_held (h : Heap) (U : Nat) (t : Option ObjId) (o : ObjId) :
    held (h.dynamicCast U t) o ≤ held t o := by
  cases t with
  | none => simp [Heap.dynamicCast]
  | some x =>
    simp only [Heap.dynamicCast, Option.filter]
    split
    · exact Nat.le_refl _
    · simp

/-- A new object has the count of the one reference held by hand. -/
theorem Exact.make (hE : Exact h es) (classes : List Nat) :
    Exact { h.modObject h.objects (fun _ => { refCount := 1, classes, manual := 1 }) with objects := h.objects + 1 } es := by
  have hfresh := hE.fresh h.objects (Nat.le_refl _)
  have hptr : h.ptrs.count (some (some h.objects)) = 0 := by
    have := hfresh.1
    simp only [Heap.refs] at this
    omega
  have hrefs : ∀ o, ({ h.modObject h.objects (fun _ => { refCount := 1, classes, manual := 1 }) with
      objects := h.objects + 1 } : Heap).refs o = if o = h.objects then 1 else h.refs o := fun o => by
    simp only [Heap.refs, Heap.modObject]
    split
    · next e =>
      rw [e, hptr]
      rfl
    · rfl
  refine ⟨fun o => ?_, fun o ho => ?_, fun o ho => ?_⟩
  · rw [hrefs]
    simp only [Heap.modObject]
    split
    · rfl
    · exact hE.counts o
  · rw [hrefs]
    by_cases e : o = h.objects
    · rw [if_pos e, e, List.count_eq_zero.2 hfresh.2]
      rfl
    · rw [if_neg e]
      exact hE.deleted o (by have : o < h.objects + 1 := ho; omega)
  · have ho' : h.objects + 1 ≤ o := ho
    have hne : o ≠ h.objects := by omega
    rw [hrefs, if_neg hne]
    exact hE.fresh o (by omega)

/-- Every operation but a move assignment to a pointer that holds an object keeps the counts exact. -/
theorem Exact.step {op : Op} (hE : Exact h es) (hr : Roomy h) (hm : moveTargetsNull h op = true)
    (hs : step h op = some (h', e)) : Exact h' (es ++ e) := by
  cases op with
  | make classes =>
    obtain ⟨rfl, rfl⟩ := Prod.mk.inj (Option.some.inj hs)
    rw [List.append_nil]
    exact hE.make classes
  | construct t inc =>
    cases t with
    | none =>
      obtain ⟨rfl, rfl⟩ := Prod.mk.inj (Option.some.inj hs)
      exact hE.balanced (hE.addRef hr (t := none) (by simp)).1
    | some o =>
      cases inc with
      | true =>
        simp only [Retainable.step] at hs
        split at hs
        · next ho =>
          obtain ⟨rfl, rfl⟩ := Prod.mk.inj (Option.some.inj hs)
          refine hE.balanced (hE.addRef hr (t := some o) (fun x => ?_)).1
          rw [held_some]
          split
          · next e => rw [e]; exact ho
          · exact Nat.zero_le _
        · cases hs
      | false =>
        simp only [Retainable.step] at hs
        split at hs
        · next ho =>
          obtain ⟨rfl, rfl⟩ := Prod.mk.inj (Option.some.inj hs)
          refine hE.balanced (balanced_of_refs (fun x => ?_) rfl (fun x => adopt_refs ho x))
          simp only [push_object, Heap.modObject]
          split <;> rfl
        · cases hs
  | copyConstruct copy =>
    simp only [Retainable.step, Option.bind_eq_bind, Option.bind_eq_some_iff] at hs
    obtain ⟨t, ht, he⟩ := hs
    obtain ⟨rfl, rfl⟩ := Prod.mk.inj (Option.some.inj he)
    exact hE.balanced (hE.addRef hr (held_le_refs ht)).1
  | moveConstruct mv =>
    simp only [Retainable.step, Option.bind_eq_bind, Option.bind_eq_some_iff] at hs
    obtain ⟨t, ht, he⟩ := hs
    obtain ⟨rfl, rfl⟩ := Prod.mk.inj (Option.some.inj he)
    refine hE.balanced (balanced_of_refs (fun _ => rfl) rfl (fun o => ?_))
    have ht' : (h.push t).cnt mv = some t := by
      rw [Heap.cnt, Heap.push, List.getElem?_append_left (cnt_lt ht)]
      exact ht
    have := setCnt_refs ht' none o
    simp only [held_none, push_refs] at this
    omega
  | destroy v =>
    simp only [Retainable.step, Option.bind_eq_bind, Option.bind_eq_some_iff] at hs
    obtain ⟨t, ht, he⟩ := hs
    obtain ⟨rfl, rfl⟩ := Prod.mk.inj (Option.some.inj he)
    exact hE.balanced (hE.dropRef hr ht none (by simp))
  | convert v U =>
    simp only [Retainable.step, Option.bind_eq_bind, Option.bind_eq_some_iff] at hs
    obtain ⟨t, ht, he⟩ := hs
    obtain ⟨rfl, rfl⟩ := Prod.mk.inj (Option.some.inj he)
    exact hE.balanced (hE.addRef hr (fun o => Nat.le_trans (dynamicCast_held h U t o) (held_le_refs ht o))).1
  | dynamicRetainableCast v T =>
    simp only [Retainable.step, Option.bind_eq_bind, Option.bind_eq_some_iff] at hs
    obtain ⟨t, ht, he⟩ := hs
    obtain ⟨rfl, rfl⟩ := Prod.mk.inj (Option.some.inj he)
    exact hE.balanced (hE.addRef hr (fun o => Nat.le_trans (dynamicCast_held h T t o) (held_le_refs ht o))).2
  | staticRetainableCast v =>
    simp only [Retainable.step, Option.bind_eq_bind, Option.bind_eq_some_iff] at hs
    obtain ⟨t, ht, he⟩ := hs
    obtain ⟨rfl, rfl⟩ := Prod.mk.inj (Option.some.inj he)
    exact hE.balanced (hE.addRef hr (held_le_refs ht)).2
  | reset v =>
    simp only [Retainable.step, Option.bind_eq_bind, Option.bind_eq_some_iff] at hs
    obtain ⟨t, ht, he⟩ := hs
    cases t with
    | none =>
      obtain ⟨rfl, rfl⟩ := Prod.mk.inj (Option.some.inj he)
      rwa [List.append_nil]
    | some o =>
      obtain ⟨rfl, rfl⟩ := Prod.mk.inj (Option.some.inj he)
      exact hE.balanced (hE.dropRef hr ht (some none) (by simp))
  | assign v copy =>
    simp only [Retainable.step, Option.bind_eq_bind, Option.bind_eq_some_iff] at hs
    obtain ⟨t, ht, t', ht', he⟩ := hs
    split at he
    · obtain ⟨rfl, rfl⟩ := Prod.mk.inj (Option.some.inj he)
      rwa [List.append_nil]
    · next hne =>
      obtain ⟨rfl, rfl⟩ := Prod.mk.inj (Option.some.inj he)
      exact hE.balanced (hE.replaceRef hr ht ht' hne)
  | moveAssign v mv =>
    simp only [moveTargetsNull, decide_eq_true_eq] at hm
    simp only [Retainable.step, Option.bind_eq_bind, Option.bind_eq_some_iff] at hs
    obtain ⟨t, ht, t', ht', he⟩ := hs
    obtain ⟨rfl, rfl⟩ := Prod.mk.inj (Option.some.inj he)
    exact hE.balanced (balanced_of_refs (fun _ => rfl) rfl (fun o => move_refs hm ht' o))
  | retain o =>
    simp only [Retainable.step] at hs
    split at hs
    · next ho =>
      obtain ⟨rfl, rfl⟩ := Prod.mk.inj (Option.some.inj hs)
      exact hE.balanced (hE.manualRef hr o ho)
    · cases hs
  | release o =>
    simp only [Retainable.step] at hs
    split at hs
    · next ho =>
      obtain ⟨rfl, rfl⟩ := Prod.mk.inj (Option.some.inj hs)
      exact hE.balanced (hE.manualDrop hr o ho)
    · cases hs

end Ops

/-- After every sequence of operations in which no move assignment overwrites a pointer that holds an object and no
count runs out of room, every count is the number of references, and exactly the objects without references have
been deleted, each once. -/
theorem counts_exact {h : Heap} {es : List ObjId}
    (hrun : Run step (fun _ h op _ => moveTargetsNull h op = true ∧ Roomy h) {} h es) : Exact h es := by
  refine hrun.inv (fun es h => Exact h es) ?_ (fun es h op h' e hE hok hs => hE.step hok.2 hok.1 hs)
  exact ⟨fun _ => rfl, fun o ho => absurd ho (Nat.not_lt_zero o), fun o _ => ⟨rfl, List.not_mem_nil⟩⟩

/-- A pointer is copied, cast, moved and assigned; the object is deleted with its last pointer. -/
theorem counts_exact_casts : ∃ h : Heap,
    Run step (fun _ h op _ => moveTargetsNull h op = true ∧ Roomy h) {} h [0] ∧ (h.object 1).refCount = 2 ∧
      Exact h [0] := by
  obtain ⟨h, es, hrun, he⟩ := run_of_check step (fun _ h op _ => moveTargetsNull h op = true ∧ Roomy h)
    (fun _ h op _ => moveTargetsNull h op && (List.range h.objects).all fun o => h.refs o < 2 ^ 31 - 1) {}
    (fun h es => decide (es = [0] ∧ (h.object 1).refCount = 2))
    [.make [3], .construct (some 0) false, .make [4], .construct (some 1) false, .copyConstruct 0,
      .dynamicRetainableCast 0 3, .convert 0 4, .moveAssign 4 2, .assign 0 1, .assign 3 0, .reset 4, .destroy 3]
    (fun es h op e hb => by
      simp only [Bool.and_eq_true, List.all_eq_true, List.mem_range, decide_eq_true_eq] at hb
      exact hb) (by decide)
  obtain ⟨rfl, hc⟩ : _ ∧ _ := by simpa using he
  exact ⟨h, hrun, hc, counts_exact hrun⟩

/-- A move assignment to a pointer that holds an object loses a reference: the object is never deleted. -/
theorem move_assignment_leaks : ∃ h : Heap, Run step (fun _ _ _ _ => True) {} h [] ∧ ¬ Exact h [] := by
  obtain ⟨h, es, hrun, he⟩ := run_of_check step (fun _ _ _ _ => True) (fun _ _ _ _ => true) {}
    (fun h es => decide (es = [] ∧ h.refs 0 = 0 ∧ (h.object 0).refCount = 1))
    [.make [3], .construct (some 0) false, .construct none false, .moveAssign 0 1] (fun _ _ _ _ _ => trivial) (by decide)
  obtain ⟨rfl, hr, hc⟩ : _ ∧ _ ∧ _ := by simpa using he
  refine ⟨h, hrun, fun hE => ?_⟩
  have := hE.counts 0
  rw [hr, hc] at this
  cases this

end BoostCmt.Retainable
