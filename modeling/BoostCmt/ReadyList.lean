import BoostCmt.Lib.Runs
import BoostCmt.Lists
/-!
# The ready list is a double-ended queue

The abstract queue is a list with three operations. `ReadySys` runs the pointer
code next to it. Between two operations the rest of the scheduler may write
whatever it likes into the `next` of a context that is not queued, and the list
starts empty over contexts whose fields are arbitrary.
-/

namespace BoostCmt

open Linked Runs

/-- The three functions of `thread_private` that touch the ready list. -/
inductive ReadyOp where
  | pushFront (c : CtxId)
  | pushBack (c : CtxId)
  | popFront
  deriving DecidableEq, Repr

namespace ReadyOp

/-- What the code does: the context it returns, if the function returns one, and the scheduler state. -/
def run (s : ThreadPrivate) : ReadyOp → Option CtxId × ThreadPrivate
  | .pushFront c => (none, s.readyPushFront c)
  | .pushBack c => (none, s.readyPushBack c)
  | .popFront => s.readyPopFront

/-- What the operation means for the queue: the answer and the new queue. -/
def spec (D : List CtxId) : ReadyOp → Option CtxId × List CtxId
  | .pushFront c => (none, c :: D)
  | .pushBack c => (none, D ++ [c])
  | .popFront => (D.head?, D.tail)

/-- A context is pushed only while it is not queued. -/
def enabled (D : List CtxId) : ReadyOp → Prop
  | .pushFront c | .pushBack c => c ∉ D
  | .popFront => True

instance (D : List CtxId) (op : ReadyOp) : Decidable (op.enabled D) := by
  cases op <;> unfold enabled <;> infer_instance

/-- The context whose own link the operation may write: the one it pushes or the one it pops. -/
def subject (D : List CtxId) : ReadyOp → Option CtxId
  | .pushFront c | .pushBack c => some c
  | .popFront => D.head?

end ReadyOp

/-! ## The two queues side by side -/

/-- The scheduler state and the queue it stands for. -/
abbrev ReadySys := ThreadPrivate × List CtxId

/-- An operation of the list, or a write of a link from outside. -/
inductive ReadyStep where
  | op (o : ReadyOp)
  | scribble (c : CtxId) (next : Option CtxId)
  deriving DecidableEq, Repr

/-- Each side takes its own step. An operation shows what it asked and what the code answered. -/
def readyStep (x : ReadySys) : ReadyStep → Option (ReadySys × List (ReadyOp × Option CtxId))
  | .op o => if o.enabled x.2 then some (((o.run x.1).2, (o.spec x.2).2), [(o, (o.run x.1).1)]) else none
  | .scribble c n => if c ∈ x.2 then none else some ((x.1.modCtx c fun k => { k with next := n }, x.2), [])

/-- The pointers of `s` hold the queue `D`. -/
structure HoldsDeque (s : ThreadPrivate) (D : List CtxId) : Prop where
  chain : Chain (fun c => (s.ctx c).next) s.readyHead D
  tail : s.readyTail = D.getLast?

namespace HoldsDeque
variable {s : ThreadPrivate} {D : List CtxId} {o : ReadyOp}

theorem nodup (h : HoldsDeque s D) : D.Nodup := h.chain.nodup

theorem head (h : HoldsDeque s D) : s.readyHead = D.head? := h.chain.head_eq

theorem head_none_iff (h : HoldsDeque s D) : s.readyHead = none ↔ s.readyTail = none := by
  rw [h.head, h.tail, List.head?_eq_none_iff, List.getLast?_eq_none_iff]

/-- One operation: the same answer, and the new pointers hold the new queue. -/
theorem run (h : HoldsDeque s D) (ho : o.enabled D) :
    (o.run s).1 = (o.spec D).1 ∧ HoldsDeque (o.run s).2 (o.spec D).2 := by
  cases o with
  | pushFront c =>
    obtain ⟨hc, ht⟩ := readyPushFront_chain h.chain h.tail ho
    exact ⟨rfl, hc, ht⟩
  | pushBack c =>
    obtain ⟨hc, ht⟩ := readyPushBack_chain h.chain h.tail ho
    exact ⟨rfl, hc, ht⟩
  | popFront =>
    cases D with
    | nil =>
      have he := readyPopFront_nil h.chain
      refine ⟨congrArg Prod.fst he, ?_⟩
      simp only [ReadyOp.run, he]
      exact h
    | cons c D =>
      obtain ⟨s', he, -, -, -, -, hc, ht⟩ := readyPopFront_chain h.chain h.tail
      refine ⟨congrArg Prod.fst he, ?_⟩
      simp only [ReadyOp.run, he]
      exact ⟨hc, ht⟩

/-- A link outside the queue may be written freely. -/
theorem scribble (h : HoldsDeque s D) {c : CtxId} (hc : c ∉ D) (n : Option CtxId) :
    HoldsDeque (s.modCtx c fun k => { k with next := n }) D := by
  refine ⟨h.chain.congr fun a ha => ?_, h.tail⟩
  have hac : a ≠ c := fun e => hc (e ▸ ha)
  simp only [ThreadPrivate.modCtx_ctx, if_neg hac]

end HoldsDeque

/-! ## What an operation leaves alone -/

/-- An operation writes the link of its subject, and otherwise only links of queued contexts. -/
theorem ReadyOp.run_frame {s : ThreadPrivate} {D : List CtxId} (h : HoldsDeque s D) (o : ReadyOp) {c : CtxId}
    (hc : c ∉ D) (ho : o.subject D ≠ some c) : ((o.run s).2.ctx c).next = (s.ctx c).next := by
  cases o with
  | pushFront b =>
    have hcb : c ≠ b := fun e => ho (e ▸ rfl)
    simp only [run, ThreadPrivate.readyPushFront, ThreadPrivate.modCtx_ctx, if_neg hcb]
  | pushBack b =>
    have hcb : c ≠ b := fun e => ho (e ▸ rfl)
    simp only [run, ThreadPrivate.readyPushBack]
    cases ht : s.readyTail with
    | none => simp only [ThreadPrivate.modCtx_ctx, if_neg hcb]
    | some t =>
      -- the old tail is the only other context whose link `ready_push_back` writes
      have htD : t ∈ D := List.mem_of_getLast? (h.tail ▸ ht)
      have hct : c ≠ t := fun e => hc (e ▸ htD)
      simp only [ThreadPrivate.modCtx_ctx, if_neg hcb, if_neg hct]
  | popFront =>
    simp only [run, ThreadPrivate.readyPopFront]
    cases hh : s.readyHead with
    | none => rfl
    | some a =>
      have haD : a ∈ D := List.mem_of_mem_head? (h.head ▸ hh)
      have hca : c ≠ a := fun e => hc (e ▸ haD)
      simp only [ThreadPrivate.modCtx_ctx, if_neg hca]

/-- `ready_pop_front` clears the link of the context it returns. -/
theorem readyPopFront_clears {s : ThreadPrivate} {c : CtxId} (h : s.readyPopFront.1 = some c) :
    (s.readyPopFront.2.ctx c).next = none := by
  revert h
  unfold ThreadPrivate.readyPopFront
  cases s.readyHead with
  | none => rintro ⟨⟩
  | some a =>
    rintro ⟨⟩
    simp

/-! ## Every sequence of operations -/

/-- What a step keeps. -/
theorem HoldsDeque.step {x x' : ReadySys} {a : ReadyStep} {e} (h : HoldsDeque x.1 x.2)
    (hs : readyStep x a = some (x', e)) : HoldsDeque x'.1 x'.2 := by
  cases a with
  | op o =>
    simp only [readyStep] at hs
    split at hs
    · next ho =>
      cases hs
      exact (h.run ho).2
    · cases hs
  | scribble c n =>
    simp only [readyStep] at hs
    split at hs
    · cases hs
    · next hc =>
      cases hs
      exact h.scribble hc n

/-- The pointers hold the queue after every run from an empty list. -/
theorem holdsDeque_run {s₀ : ThreadPrivate} (hh : s₀.readyHead = none) (ht : s₀.readyTail = none) {x : ReadySys}
    {es} {ok} (h : Run readyStep ok (s₀, []) x es) : HoldsDeque x.1 x.2 :=
  h.inv (fun _ x => HoldsDeque x.1 x.2) (show HoldsDeque s₀ [] from ⟨hh, ht⟩) fun _ _ _ _ _ hI _ hs => hI.step hs

/-- The ready list refines the queue: after every sequence of operations from an empty list, with arbitrary links
outside it, the links from `ready_head` hold the queue in order and end in null without a cycle, `ready_tail` is
its last context, and both are null together. The next operation gives the answer of the queue, pop clears the link
of what it returns, and no other link outside the queue changes. -/
theorem ready_list_refines_deque {s₀ : ThreadPrivate} (hh : s₀.readyHead = none) (ht : s₀.readyTail = none)
    {s : ThreadPrivate} {D : List CtxId} {es} (h : Run readyStep (fun _ _ _ _ => True) (s₀, []) (s, D) es) :
    Chain (fun c => (s.ctx c).next) s.readyHead D ∧ D.Nodup ∧ s.readyTail = D.getLast? ∧
      (s.readyHead = none ↔ s.readyTail = none) ∧
      ∀ o : ReadyOp, o.enabled D →
        (o.run s).1 = (o.spec D).1 ∧
        HoldsDeque (o.run s).2 (o.spec D).2 ∧
        (∀ c, o = .popFront → (o.run s).1 = some c → ((o.run s).2.ctx c).next = none) ∧
        (∀ c, c ∉ D → o.subject D ≠ some c → ((o.run s).2.ctx c).next = (s.ctx c).next) := by
  have hD : HoldsDeque s D := holdsDeque_run hh ht h
  refine ⟨hD.chain, hD.nodup, hD.tail, hD.head_none_iff, fun o ho => ?_⟩
  obtain ⟨hans, hnext⟩ := hD.run ho
  refine ⟨hans, hnext, ?_, fun c hc hs => ReadyOp.run_frame hD o hc hs⟩
  rintro c rfl hpop
  exact readyPopFront_clears hpop

/-- From empty to one context and back, then a push at each end, over links that start dirty. -/
theorem ready_list_refines_deque_three :
    ∃ s : ThreadPrivate, s.readyHead = some 2 ∧ s.readyTail = some 1 ∧ (s.readyPopFront).1 = some 2 ∧
      Chain (fun c => (s.ctx c).next) s.readyHead [2, 1] := by
  let s₀ : ThreadPrivate := { ctx := fun c => { next := some c } }
  obtain ⟨⟨s, D⟩, es, hrun, hf⟩ := run_of_check readyStep (fun _ _ _ _ => True) (fun _ _ _ _ => true) (s₀, [])
    (fun x es => x.2 = [2, 1] ∧ x.1.readyHead = some 2 ∧ x.1.readyTail = some 1 ∧ es.length = 4)
    [.op (.pushFront 0), .scribble 7 (some 0), .op .popFront, .scribble 1 (some 5), .op (.pushBack 1),
      .op (.pushFront 2)] (fun _ _ _ _ _ => trivial) (by decide)
  obtain ⟨rfl, hh, ht, -⟩ : D = [2, 1] ∧ s.readyHead = some 2 ∧ s.readyTail = some 1 ∧ es.length = 4 := by
    simpa using hf
  obtain ⟨hc, -, -, -, hop⟩ := ready_list_refines_deque (show s₀.readyHead = none from rfl) rfl hrun
  exact ⟨s, hh, ht, (hop .popFront trivial).1, hc⟩

end BoostCmt
