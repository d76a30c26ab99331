import BoostCmt.Lib.Heap
import BoostCmt.Thread
/-!
# The task queues of one thread

What `enqueue` and `dequeue` do to `task_in_queue`, `task_pqueue` and
`task_sch_queue`: tasks move between them, and `dequeue` takes out the task that
it returns.
-/

namespace BoostCmt

open StdHeap

namespace ThreadPrivate

/-- The tasks that wait in the queues of a thread. -/
def tasks (s : ThreadPrivate) : List Task := s.taskInQueue ++ (s.taskPqueue ++ s.taskSchQueue)

variable {s s' : ThreadPrivate}

theorem enqueue1_perm (now : Int) (s : ThreadPrivate) (t : Task) :
    ((s.enqueue1 now t).taskPqueue ++ (s.enqueue1 now t).taskSchQueue).Perm
      (t :: (s.taskPqueue ++ s.taskSchQueue)) := by
  unfold enqueue1
  split
  · exact ((pushHeap_perm _ _).append_left _).trans (by rw [← List.append_assoc]; exact List.perm_append_singleton t _)
  · refine ((pushHeap_perm _ _).append_right _).trans ?_
    exact ((List.perm_append_singleton t _).append_right _).trans (by simp)

theorem enqueue1_inQueue (now : Int) (s : ThreadPrivate) (t : Task) :
    (s.enqueue1 now t).taskInQueue = s.taskInQueue := by
  unfold enqueue1
  split <;> rfl

theorem enqueue_perm (now : Int) (l : List Task) (s : ThreadPrivate) :
    (s.enqueue now l).taskInQueue = s.taskInQueue ∧
      ((s.enqueue now l).taskPqueue ++ (s.enqueue now l).taskSchQueue).Perm (l ++ (s.taskPqueue ++ s.taskSchQueue)) := by
  induction l generalizing s with
  | nil => exact ⟨rfl, .refl _⟩
  | cons t l ih =>
    obtain ⟨h₁, h₂⟩ := ih (s.enqueue1 now t)
    refine ⟨h₁.trans (enqueue1_inQueue now s t), h₂.trans ?_⟩
    exact ((enqueue1_perm now s t).append_left l).trans List.perm_middle

theorem not_due {now : Int} {t : Task} {v : List Task} (hq : s.taskSchQueue = t :: v) (hw : ¬ t.when ≤ now) :
    ∀ t' v', s.taskSchQueue = t' :: v' → now < t'.when := by
  intro t' v' he
  obtain ⟨rfl, -⟩ := List.cons.inj (hq.symm.trans he)
  exact Int.lt_of_not_ge hw

/-- Where `dequeue` takes the next task from once the chain is drained. -/
theorem takeNext_cases {now : Int} {o : Option Task} (h : s.takeNext now = (o, s')) :
    (∃ t v, o = some t ∧ s.taskSchQueue = t :: v ∧ t.when ≤ now ∧
      s' = { s with taskSchQueue := (popHeap taskWhenLess (t :: v)).dropLast }) ∨
    ((∀ t v, s.taskSchQueue = t :: v → now < t.when) ∧
      ((o = none ∧ s.taskPqueue = [] ∧ s' = s) ∨
        ∃ t v, o = some t ∧ s.taskPqueue = t :: v ∧
          s' = { s with taskPqueue := (popHeap taskPriorityLess (t :: v)).dropLast })) := by
  cases hp : s.taskPqueue with
  | nil =>
    simp only [takeNext, hp] at h
    split at h
    · next hq =>
      obtain ⟨rfl, rfl⟩ := Prod.mk.inj h
      exact .inr ⟨by simp [hq], .inl ⟨rfl, rfl, rfl⟩⟩
    · next t v hq =>
      split at h
      · next hw =>
        obtain ⟨rfl, rfl⟩ := Prod.mk.inj h
        exact .inl ⟨t, v, rfl, hq, hw, by rw [hq]⟩
      · next hw =>
        obtain ⟨rfl, rfl⟩ := Prod.mk.inj h
        exact .inr ⟨not_due hq hw, .inl ⟨rfl, rfl, rfl⟩⟩
  | cons p l =>
    simp only [takeNext, hp] at h
    split at h
    · next hq =>
      obtain ⟨rfl, rfl⟩ := Prod.mk.inj h
      exact .inr ⟨by simp [hq], .inr ⟨p, l, rfl, rfl, rfl⟩⟩
    · next t v hq =>
      split at h
      · next hw =>
        obtain ⟨rfl, rfl⟩ := Prod.mk.inj h
        exact .inl ⟨t, v, rfl, hq, hw, by rw [hq]⟩
      · next hw =>
        obtain ⟨rfl, rfl⟩ := Prod.mk.inj h
        exact .inr ⟨not_due hq hw, .inr ⟨p, l, rfl, rfl, rfl⟩⟩

theorem takeNext_perm {now : Int} {o : Option Task} (h : s.takeNext now = (o, s')) :
    s'.taskInQueue = s.taskInQueue ∧
      (s.taskPqueue ++ s.taskSchQueue).Perm (o.toList ++ (s'.taskPqueue ++ s'.taskSchQueue)) := by
  rcases takeNext_cases h with ⟨t, v, rfl, hq, -, rfl⟩ | ⟨-, ⟨rfl, hq, rfl⟩ | ⟨t, v, rfl, hq, rfl⟩⟩
  · refine ⟨rfl, ?_⟩
    rw [hq]
    exact (List.perm_middle.trans (((popHeap_dropLast_perm _ t v).symm.append_left _).cons t))
  · exact ⟨rfl, .refl _⟩
  · refine ⟨rfl, ?_⟩
    rw [hq]
    exact ((popHeap_dropLast_perm _ t v).symm.append_right _).cons t

/-- `dequeue` drains the chain and takes out the task it returns. -/
theorem dequeue_perm {t₁ t₂ : Int} {o : Option Task} (h : s.dequeue t₁ t₂ = (o, s')) :
    s'.taskInQueue = [] ∧ s.tasks.Perm (o.toList ++ s'.tasks) := by
  obtain ⟨h₁, h₂⟩ := enqueue_perm t₁ s.taskInQueue { s with taskInQueue := [] }
  obtain ⟨h₃, h₄⟩ := takeNext_perm h
  refine ⟨h₃.trans h₁, ?_⟩
  rw [tasks, tasks, h₃.trans h₁]
  exact h₂.symm.trans h₄

end ThreadPrivate

open ThreadPrivate

variable {s s' : ThreadPrivate}

/-- Everything of a thread but its task queues. -/
structure SameSched (s s' : ThreadPrivate) : Prop where
  sleep : s'.sleepPqueue = s.sleepPqueue
  done : s'.done = s.done
  current : s'.current = s.current
  readyHead : s'.readyHead = s.readyHead
  readyTail : s'.readyTail = s.readyTail
  blocked : s'.blocked = s.blocked
  ctx : s'.ctx = s.ctx
  nctx : s'.nctx = s.nctx

theorem enqueue_sched (now : Int) (l : List Task) (s : ThreadPrivate) : SameSched s (s.enqueue now l) := by
  induction l generalizing s with
  | nil => exact ⟨rfl, rfl, rfl, rfl, rfl, rfl, rfl, rfl⟩
  | cons t l ih =>
    have h₁ : SameSched s (s.enqueue1 now t) := by
      unfold enqueue1; split <;> exact ⟨rfl, rfl, rfl, rfl, rfl, rfl, rfl, rfl⟩
    have h₂ := ih (s.enqueue1 now t)
    exact ⟨h₂.1.trans h₁.1, h₂.2.trans h₁.2, h₂.3.trans h₁.3, h₂.4.trans h₁.4, h₂.5.trans h₁.5, h₂.6.trans h₁.6,
      h₂.7.trans h₁.7, h₂.8.trans h₁.8⟩

theorem dequeue_sched {t₁ t₂ : Int} {o : Option Task} (h : s.dequeue t₁ t₂ = (o, s')) : SameSched s s' := by
  have h₁ := enqueue_sched t₁ s.taskInQueue { s with taskInQueue := [] }
  have h₂ : SameSched { s with taskInQueue := [] } s' := by
    unfold ThreadPrivate.dequeue takeNext at h
    generalize ThreadPrivate.enqueue t₁ { s with taskInQueue := [] } s.taskInQueue = u at h h₁
    dsimp only at h
    split at h
    · split at h
      · obtain ⟨-, rfl⟩ := Prod.mk.inj h; exact h₁
      · obtain ⟨-, rfl⟩ := Prod.mk.inj h; exact ⟨h₁.1, h₁.2, h₁.3, h₁.4, h₁.5, h₁.6, h₁.7, h₁.8⟩
    · split at h
      · obtain ⟨-, rfl⟩ := Prod.mk.inj h; exact ⟨h₁.1, h₁.2, h₁.3, h₁.4, h₁.5, h₁.6, h₁.7, h₁.8⟩
      · split at h
        · obtain ⟨-, rfl⟩ := Prod.mk.inj h; exact h₁
        · obtain ⟨-, rfl⟩ := Prod.mk.inj h; exact ⟨h₁.1, h₁.2, h₁.3, h₁.4, h₁.5, h₁.6, h₁.7, h₁.8⟩
  exact ⟨h₂.1, h₂.2, h₂.3, h₂.4, h₂.5, h₂.6, h₂.7, h₂.8⟩

end BoostCmt
