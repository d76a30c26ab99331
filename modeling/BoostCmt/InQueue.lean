import BoostCmt.Lib.Chain
import BoostCmt.Lib.Runs
import BoostCmt.Queues
/-!
# Posting tasks to a thread

`thread::async(task::ptr)` and the part of `process_tasks` that takes posted tasks
and goes to sleep, at the grain of single memory accesses. `task_in_queue` is a
stack of task addresses, linked through `task::next`; any number of threads push to
it with `compare_exchange_weak`, which may fail without a reason, and the owner takes
the whole stack with `exchange`. A task that has been run is freed, and its address
may be used again while some thread still holds it in `stale_head`.

Party 0 is the thread that owns the queue. It posts too, from its tasks, and then
neither locks `task_ready_mutex` nor notifies.

`readings`, `posted` and `returned` record what has happened and are not part of the program.
-/

namespace BoostCmt.InQueue

open Linked Runs ThreadPrivate

abbrev Addr := Nat
abbrev Party := Nat

/-- Where a thread is in `async`. -/
inductive PostPc where
  | idle
  /-- The task is constructed; the load of `task_in_queue` is next. -/
  | ready (t : Addr)
  /-- At `t->next = stale_head`. -/
  | loaded (t : Addr) (staleHead : Option Addr)
  /-- At `compare_exchange_weak`. -/
  | linked (t : Addr) (staleHead : Option Addr)
  /-- The task is posted; the lock of `task_ready_mutex` is next. -/
  | posted
  /-- At `notify_all`. -/
  | locked
  /-- At the unlock. -/
  | notified
  deriving DecidableEq, Repr

/-- The task that is being posted. -/
def PostPc.task : PostPc → Option Addr
  | .ready t => some t
  | .loaded t _ => some t
  | .linked t _ => some t
  | _ => none

/-- Where the owner is. `lk` says that it holds `task_ready_mutex`, in the last branch of `process_tasks`. -/
inductive OwnerPc where
  /-- Anywhere else in `process_tasks`, or in a task. -/
  | running
  /-- The mutex is locked; `dequeue` is next. -/
  | locked
  /-- In the loop of `enqueue`, at the clock reading `now`. -/
  | draining (lk : Bool) (now : Int) (cur : Option Addr)
  /-- In `dequeue`, after `enqueue`. -/
  | taking (lk : Bool)
  /-- `dequeue` has found nothing; `task_ready.wait` is next. -/
  | empty
  /-- Inside `task_ready.wait` or `timed_wait`, without the mutex. -/
  | parked
  /-- Woken, and waiting for the mutex. -/
  | woken
  /-- At the end of the branch, with the mutex. -/
  | leaving
  deriving DecidableEq, Repr

/-- What `enqueue` still has to go through. -/
def OwnerPc.cur : OwnerPc → Option Addr
  | .draining _ _ cur => cur
  | _ => none

structure State where
  /-- `task_in_queue`. -/
  head : Option Addr := none
  /-- `task::next` of the task at an address. -/
  next : Addr → Option Addr := fun _ => none
  /-- The tasks that exist. -/
  mem : Addr → Option Task := fun _ => none
  taskCount : Nat := 0
  /-- `task_pqueue` and `task_sch_queue`. -/
  thr : ThreadPrivate := {}
  /-- The party that holds `task_ready_mutex`. -/
  mutex : Option Party := none
  post : Party → PostPc := fun _ => .idle
  owner : OwnerPc := .running
  /-- What the clock has read so far. -/
  readings : List Int := []
  posted : List (Task × Party) := []
  returned : List Task := []

inductive Act where
  /-- A party constructs a task at a free address and calls `async`. -/
  | post (k : Party) (t : Addr) (when prio : Int) (body : TaskBody)
  | load (k : Party)
  | link (k : Party)
  | cas (k : Party) (spurious : Bool)
  | lock (k : Party)
  | notifyAll (k : Party)
  | unlock (k : Party)
  | ownerLock
  /-- `task_in_queue.exchange(0)`, and the clock reading of `enqueue` if it is called. -/
  | exchange (t : Int)
  /-- One turn of the loop of `enqueue`. -/
  | enqueue
  /-- The rest of `dequeue`, with its clock reading if some task is scheduled. -/
  | take (t : Int)
  | wait
  /-- A wake-up without a notification: the time is up, or there is no reason. -/
  | wake
  | relock
  | leave
  /-- A task that was returned is freed. -/
  | free (t : Addr)
  deriving DecidableEq, Repr

def setPost (s : State) (k : Party) (pc : PostPc) : State :=
  { s with post := fun j => if j = k then pc else s.post j }

/-- What `notify_all` does to the owner. -/
def OwnerPc.wakeUp : OwnerPc → OwnerPc
  | .parked => .woken
  | pc => pc

/-- One step. The owner posts from its tasks only, and does nothing else meanwhile. -/
def step (s : State) : Act → Option (State × List Empty)
  | .post k t when prio body =>
    if s.post k = .idle ∧ s.mem t = none ∧ (k = 0 → s.owner = .running) then
      let n := s.taskCount + 1
      let s := { s with
        taskCount := n
        mem := fun a => if a = t then some { postedNum := n, when, prio, body } else s.mem a }
      some (setPost s k (.ready t), [])
    else none
  | .load k =>
    match s.post k with
    | .ready t => some (setPost s k (.loaded t s.head), [])
    | _ => none
  | .link k =>
    match s.post k with
    | .loaded t stale =>
      some (setPost { s with next := fun a => if a = t then stale else s.next a } k (.linked t stale), [])
    | _ => none
  | .cas k spurious =>
    match s.post k with
    | .linked t stale =>
      match s.mem t with
      | some tsk =>
        if s.head = stale ∧ spurious = false then
          some (setPost { s with head := some t, posted := (tsk, k) :: s.posted } k (if k = 0 then .idle else .posted), [])
        else some (setPost s k (.loaded t s.head), [])
      | none => none
    | _ => none
  | .lock k =>
    if s.post k = .posted ∧ s.mutex = none then some (setPost { s with mutex := some k } k .locked, []) else none
  | .notifyAll k =>
    if s.post k = .locked then some (setPost { s with owner := s.owner.wakeUp } k .notified, []) else none
  | .unlock k =>
    if s.post k = .notified then some (setPost { s with mutex := none } k .idle, []) else none
  | .ownerLock =>
    if s.post 0 = .idle ∧ s.owner = .running ∧ s.mutex = none then
      some ({ s with owner := .locked, mutex := some 0 }, [])
    else none
  | .exchange t =>
    if s.post 0 = .idle ∧ (s.owner = .running ∨ s.owner = .locked) then
      let lk := s.owner == .locked
      if s.head = none then some ({ s with owner := .taking lk }, [])
      else some ({ s with head := none, owner := .draining lk t s.head, readings := t :: s.readings }, [])
    else none
  | .enqueue =>
    match s.owner with
    | .draining lk now (some a) =>
      match s.mem a with
      | some tsk => some ({ s with thr := s.thr.enqueue1 now tsk, owner := .draining lk now (s.next a) }, [])
      | none => none
    | .draining lk _ none => some ({ s with owner := .taking lk }, [])
    | _ => none
  | .take t =>
    match s.owner with
    | .taking lk =>
      let readings := if s.thr.taskSchQueue = [] then s.readings else t :: s.readings
      match s.thr.takeNext t with
      | (some tsk, thr) =>
        let pc : OwnerPc := if lk then .leaving else .running
        some ({ s with thr, owner := pc, readings, returned := tsk :: s.returned }, [])
      | (none, thr) =>
        let pc : OwnerPc := if lk then .empty else .running
        some ({ s with thr, owner := pc, readings }, [])
    | _ => none
  | .wait => if s.owner = .empty then some ({ s with owner := .parked, mutex := none }, []) else none
  | .wake => if s.owner = .parked then some ({ s with owner := .woken }, []) else none
  | .relock =>
    if s.owner = .woken ∧ s.mutex = none then some ({ s with owner := .leaving, mutex := some 0 }, []) else none
  | .leave => if s.owner = .leaving then some ({ s with owner := .running, mutex := none }, []) else none
  | .free t =>
    match s.mem t with
    | some tsk =>
      if tsk ∈ s.returned then some ({ s with mem := fun a => if a = t then none else s.mem a }, []) else none
    | none => none

/-! ## Sleeping and notifying -/

/-- The owner holds the mutex. -/
def OwnerPc.holds : OwnerPc → Bool
  | .locked => true
  | .draining lk _ _ => lk
  | .taking lk => lk
  | .empty => true
  | .leaving => true
  | _ => false

/-- The owner has emptied `task_in_queue` under the mutex and goes to sleep, or sleeps. -/
def OwnerPc.commits : OwnerPc → Bool
  | .draining lk _ _ => lk
  | .taking lk => lk
  | .empty => true
  | .parked => true
  | _ => false

/-- A thread has posted a task and has not notified yet. -/
def Unnotified (s : State) : Prop := ∃ k, k ≠ 0 ∧ (s.post k = .posted ∨ s.post k = .locked)

structure Awake (s : State) : Prop where
  ownerMutex : s.owner.holds = true → s.mutex = some 0
  postMutex : ∀ k, s.post k = .locked ∨ s.post k = .notified → s.mutex = some k
  ownerSilent : s.post 0 ≠ .posted ∧ s.post 0 ≠ .locked ∧ s.post 0 ≠ .notified
  ownerPosts : s.post 0 ≠ .idle → s.owner = .running
  pending : s.owner.commits = true → s.head ≠ none → Unnotified s

theorem setPost_post (s : State) (k j : Party) (pc : PostPc) :
    (setPost s k pc).post j = if j = k then pc else s.post j := rfl

/-- A party before or after the part of `async` that follows its compare-exchange. -/
def PostPc.quiet : PostPc → Bool
  | .posted => false
  | .locked => false
  | .notified => false
  | _ => true

section Awake
variable {s s' : State}

/-- A party is somewhere before its compare-exchange, and moves on. -/
theorem Awake.quiet {k : Party} {pc : PostPc} (h : Awake s) (ho : s'.owner = s.owner) (hm : s'.mutex = s.mutex)
    (hh : s'.head = s.head) (hp : s'.post = s.post) (hk : (s.post k).quiet = true) (hpc : pc.quiet = true)
    (hr : k = 0 → s.owner = .running) : Awake (setPost s' k pc) := by
  refine ⟨fun hl => ?_, fun j hj => ?_, ?_, fun hi => ?_, fun hc hn => ?_⟩
  · rw [show (setPost s' k pc).mutex = s.mutex from hm]
    exact h.ownerMutex (ho ▸ hl)
  · rw [setPost_post] at hj
    rw [show (setPost s' k pc).mutex = s.mutex from hm]
    split at hj
    · rcases hj with rfl | rfl <;> cases hpc
    · exact h.postMutex j (hp ▸ hj)
  · rw [setPost_post, hp]
    split
    · cases pc <;> simp_all [PostPc.quiet]
    · exact h.ownerSilent
  · rw [show (setPost s' k pc).owner = s.owner from ho]
    rw [setPost_post, hp] at hi
    split at hi
    · next e => exact hr e.symm
    · exact h.ownerPosts hi
  · obtain ⟨j, hj, hpj⟩ := h.pending (ho ▸ hc) (hh ▸ hn)
    have hjk : j ≠ k := by
      rintro rfl
      rcases hpj with e | e <;> rw [e] at hk <;> cases hk
    exact ⟨j, hj, by rw [setPost_post, if_neg hjk, hp]; exact hpj⟩

theorem Awake.running (h : Awake s) {k : Party} {t : Addr} (ht : (s.post k).task = some t) :
    k = 0 → s.owner = .running := by
  rintro rfl
  refine h.ownerPosts (fun e => ?_)
  rw [e] at ht
  cases ht

/-- A step of the owner that is not inside `async`. -/
theorem Awake.owner (h : Awake s) (hp : s'.post = s.post) (hi : s'.owner ≠ .running → s.post 0 = .idle)
    (hm : s'.owner.holds = true → s'.mutex = some 0) (hj : ∀ j, s.mutex = some j → s.post j = .locked ∨ s.post j = .notified →
      s'.mutex = some j)
    (hc : s'.owner.commits = true → s'.head ≠ none → s.owner.commits = true ∧ s.head ≠ none) : Awake s' := by
  refine ⟨hm, fun j hpj => ?_, ?_, fun hne => ?_, fun hcm hn => ?_⟩
  · rw [hp] at hpj
    exact hj j (h.postMutex j hpj) hpj
  · rw [hp]; exact h.ownerSilent
  · rw [hp] at hne
    by_contra hr
    exact hne (hi hr)
  · obtain ⟨j, hj0, hpj⟩ := h.pending (hc hcm hn).1 (hc hcm hn).2
    exact ⟨j, hj0, by rw [hp]; exact hpj⟩

end Awake

theorem Awake.step {s s' : State} {a : Act} {e : List Empty} (h : Awake s) (hs : step s a = some (s', e)) :
    Awake s' := by
  -- nobody else is between lock and unlock while the owner holds the mutex
  have hfree : s.mutex = some 0 ∨ s.mutex = none → ∀ j, s.mutex = some j →
      s.post j = .locked ∨ s.post j = .notified → False := by
    intro hm j hj hpj
    rcases hm with hm | hm
    · obtain rfl := Option.some.inj (hm.symm.trans hj)
      exact hpj.elim h.ownerSilent.2.1 h.ownerSilent.2.2
    · rw [hm] at hj
      cases hj
  have hidle : s.owner ≠ .running → s.post 0 = .idle := fun hr => by
    by_contra hne
    exact hr (h.ownerPosts hne)
  cases a with
  | post k t when prio body =>
    simp only [InQueue.step] at hs
    split at hs
    · next hc =>
      obtain ⟨rfl, -⟩ := Prod.mk.inj (Option.some.inj hs)
      exact h.quiet rfl rfl rfl rfl (by rw [hc.1]; rfl) rfl hc.2.2
    · cases hs
  | load k =>
    simp only [InQueue.step] at hs
    split at hs
    · next t hk =>
      obtain ⟨rfl, -⟩ := Prod.mk.inj (Option.some.inj hs)
      exact h.quiet rfl rfl rfl rfl (by rw [hk]; rfl) rfl (h.running (by rw [hk]; rfl))
    · cases hs
  | link k =>
    simp only [InQueue.step] at hs
    split at hs
    · next t stale hk =>
      obtain ⟨rfl, -⟩ := Prod.mk.inj (Option.some.inj hs)
      exact h.quiet rfl rfl rfl rfl (by rw [hk]; rfl) rfl (h.running (by rw [hk]; rfl))
    · cases hs
  | cas k spurious =>
    simp only [InQueue.step] at hs
    split at hs
    · next t stale hk =>
      have hrun := h.running (t := t) (by rw [hk]; rfl)
      split at hs
      · split at hs
        · obtain ⟨rfl, -⟩ := Prod.mk.inj (Option.some.inj hs)
          by_cases hk0 : k = 0
          · -- the owner has posted: it is running
            subst hk0
            have hr := hrun rfl
            refine ⟨h.ownerMutex, fun j hj => ?_, by simp [setPost_post], fun hi => absurd hi (by simp [setPost_post]),
              fun hcm _ => ?_⟩
            · rw [setPost_post] at hj
              split at hj
              · simp at hj
              · exact h.postMutex j hj
            · have hcm : s.owner.commits = true := hcm
              rw [hr] at hcm
              cases hcm
          · -- the party that has posted is the one that will notify
            refine ⟨h.ownerMutex, fun j hj => ?_, ?_, fun hi => ?_, fun _ _ => ⟨k, hk0, ?_⟩⟩
            · rw [setPost_post] at hj
              split at hj
              · simp at hj
              · exact h.postMutex j hj
            · rw [setPost_post, if_neg (Ne.symm hk0)]
              exact h.ownerSilent
            · rw [setPost_post, if_neg (Ne.symm hk0)] at hi
              exact h.ownerPosts hi
            · simp [setPost_post, hk0]
        · obtain ⟨rfl, -⟩ := Prod.mk.inj (Option.some.inj hs)
          exact h.quiet rfl rfl rfl rfl (by rw [hk]; rfl) rfl hrun
      · cases hs
    · cases hs
  | lock k =>
    simp only [InQueue.step] at hs
    split at hs
    · next hc =>
      obtain ⟨rfl, -⟩ := Prod.mk.inj (Option.some.inj hs)
      have hk0 : k ≠ 0 := by rintro rfl; exact h.ownerSilent.1 hc.1
      refine ⟨fun hl => ?_, fun j hj => ?_, ?_, fun hi => ?_, fun _ _ => ⟨k, hk0, by simp [setPost_post]⟩⟩
      · exact absurd (h.ownerMutex hl) (by simp [hc.2])
      · rw [setPost_post] at hj
        split at hj
        · next e => rw [e]; rfl
        · exact absurd (h.postMutex j hj) (by simp [hc.2])
      · rw [setPost_post, if_neg (Ne.symm hk0)]
        exact h.ownerSilent
      · rw [setPost_post, if_neg (Ne.symm hk0)] at hi
        exact h.ownerPosts hi
    · cases hs
  | notifyAll k =>
    simp only [InQueue.step] at hs
    split at hs
    · next hc =>
      obtain ⟨rfl, -⟩ := Prod.mk.inj (Option.some.inj hs)
      have hk0 : k ≠ 0 := by rintro rfl; exact h.ownerSilent.2.1 hc
      have hmx := h.postMutex k (.inl hc)
      -- the notifier holds the mutex, so the owner sleeps or is outside the branch
      have hnot : s.owner.holds = false := by
        by_contra hl
        have := h.ownerMutex (by simpa using hl)
        exact hk0 (Option.some.inj (hmx.symm.trans this))
      have hw : s.owner.wakeUp.holds = false ∧ s.owner.wakeUp.commits = false := by
        cases ho : s.owner <;> simp_all [OwnerPc.wakeUp, OwnerPc.holds, OwnerPc.commits]
      refine ⟨fun hl => ?_, fun j hj => ?_, ?_, fun hi => ?_, fun hcm _ => ?_⟩
      · exact absurd hl (by simp [setPost, hw.1])
      · rw [setPost_post] at hj
        split at hj
        · next e => rw [e]; exact hmx
        · exact h.postMutex j hj
      · rw [setPost_post, if_neg (Ne.symm hk0)]
        exact h.ownerSilent
      · rw [setPost_post, if_neg (Ne.symm hk0)] at hi
        show s.owner.wakeUp = _
        rw [h.ownerPosts hi]
        rfl
      · exact absurd hcm (by simp [setPost, hw.2])
    · cases hs
  | unlock k =>
    simp only [InQueue.step] at hs
    split at hs
    · next hc =>
      obtain ⟨rfl, -⟩ := Prod.mk.inj (Option.some.inj hs)
      have hk0 : k ≠ 0 := by rintro rfl; exact h.ownerSilent.2.2 hc
      have hmx := h.postMutex k (.inr hc)
      refine ⟨fun hl => ?_, fun j hj => ?_, ?_, fun hi => ?_, fun hcm hn => ?_⟩
      · exact absurd (Option.some.inj (hmx.symm.trans (h.ownerMutex hl))) hk0
      · rw [setPost_post] at hj
        split at hj
        · simp at hj
        · next hjk => exact absurd (Option.some.inj (hmx.symm.trans (h.postMutex j hj))) (Ne.symm hjk)
      · rw [setPost_post, if_neg (Ne.symm hk0)]
        exact h.ownerSilent
      · rw [setPost_post, if_neg (Ne.symm hk0)] at hi
        exact h.ownerPosts hi
      · obtain ⟨j, hj0, hpj⟩ := h.pending hcm hn
        have hjk : j ≠ k := by rintro rfl; simp [hc] at hpj
        exact ⟨j, hj0, by rw [setPost_post, if_neg hjk]; exact hpj⟩
    · cases hs
  | ownerLock =>
    simp only [InQueue.step] at hs
    split at hs
    · next hc =>
      obtain ⟨rfl, -⟩ := Prod.mk.inj (Option.some.inj hs)
      refine h.owner rfl (fun _ => hc.1) (fun _ => rfl) (fun j hj hpj => ?_) (fun hcm _ => by cases hcm)
      exact absurd hpj (fun hpj => hfree (.inr hc.2.2) j hj hpj)
    · cases hs
  | exchange t =>
    simp only [InQueue.step] at hs
    split at hs
    · next hc =>
      have hl : (s.owner == .locked) = true → s.mutex = some 0 := fun e => by
        refine h.ownerMutex ?_
        rw [beq_iff_eq.1 e]
        rfl
      split at hs
      · next hn =>
        obtain ⟨rfl, -⟩ := Prod.mk.inj (Option.some.inj hs)
        exact h.owner rfl (fun _ => hc.1) hl (fun j hj _ => hj) (fun _ hne => absurd hn hne)
      · obtain ⟨rfl, -⟩ := Prod.mk.inj (Option.some.inj hs)
        exact h.owner rfl (fun _ => hc.1) hl (fun j hj _ => hj) (fun _ hn => absurd rfl hn)
    · cases hs
  | enqueue =>
    simp only [InQueue.step] at hs
    split at hs
    · next lk now a ho =>
      split at hs
      · obtain ⟨rfl, -⟩ := Prod.mk.inj (Option.some.inj hs)
        refine h.owner rfl (fun _ => hidle (by rw [ho]; simp)) (fun hl => h.ownerMutex (by rw [ho]; exact hl))
          (fun j hj _ => hj) (fun hcm hn => ⟨by rw [ho]; exact hcm, hn⟩)
      · cases hs
    · next lk now ho =>
      obtain ⟨rfl, -⟩ := Prod.mk.inj (Option.some.inj hs)
      exact h.owner rfl (fun _ => hidle (by rw [ho]; simp)) (fun hl => h.ownerMutex (by rw [ho]; exact hl))
        (fun j hj _ => hj) (fun hcm hn => ⟨by rw [ho]; exact hcm, hn⟩)
    · cases hs
  | take t =>
    simp only [InQueue.step] at hs
    split at hs
    · next lk ho =>
      split at hs
      · obtain ⟨rfl, -⟩ := Prod.mk.inj (Option.some.inj hs)
        cases lk with
        | true =>
          exact h.owner rfl (fun _ => hidle (by rw [ho]; simp)) (fun _ => h.ownerMutex (by rw [ho]; rfl))
            (fun j hj _ => hj) (fun hcm _ => by cases hcm)
        | false =>
          exact h.owner rfl (fun hr => absurd rfl hr) (fun hl => by cases hl) (fun j hj _ => hj)
            (fun hcm _ => by cases hcm)
      · obtain ⟨rfl, -⟩ := Prod.mk.inj (Option.some.inj hs)
        cases lk with
        | true =>
          exact h.owner rfl (fun _ => hidle (by rw [ho]; simp)) (fun _ => h.ownerMutex (by rw [ho]; rfl))
            (fun j hj _ => hj) (fun hcm hn => ⟨by rw [ho]; rfl, hn⟩)
        | false =>
          exact h.owner rfl (fun hr => absurd rfl hr) (fun hl => by cases hl) (fun j hj _ => hj)
            (fun hcm _ => by cases hcm)
    · cases hs
  | wait =>
    simp only [InQueue.step] at hs
    split at hs
    · next ho =>
      obtain ⟨rfl, -⟩ := Prod.mk.inj (Option.some.inj hs)
      refine h.owner rfl (fun _ => hidle (by rw [ho]; simp)) (fun hl => by cases hl) (fun j hj hpj => ?_)
        (fun _ hn => ⟨by rw [ho]; rfl, hn⟩)
      exact absurd hpj (fun hpj => hfree (.inl (h.ownerMutex (by rw [ho]; rfl))) j hj hpj)
    · cases hs
  | wake =>
    simp only [InQueue.step] at hs
    split at hs
    · next ho =>
      obtain ⟨rfl, -⟩ := Prod.mk.inj (Option.some.inj hs)
      exact h.owner rfl (fun _ => hidle (by rw [ho]; simp)) (fun hl => by cases hl) (fun j hj _ => hj) (fun hcm _ => by cases hcm)
    · cases hs
  | relock =>
    simp only [InQueue.step] at hs
    split at hs
    · next ho =>
      obtain ⟨rfl, -⟩ := Prod.mk.inj (Option.some.inj hs)
      refine h.owner rfl (fun _ => hidle (by rw [ho.1]; simp)) (fun _ => rfl) (fun j hj hpj => ?_) (fun hcm _ => by cases hcm)
      exact absurd hpj (fun hpj => hfree (.inr ho.2) j hj hpj)
    · cases hs
  | leave =>
    simp only [InQueue.step] at hs
    split at hs
    · next ho =>
      obtain ⟨rfl, -⟩ := Prod.mk.inj (Option.some.inj hs)
      refine h.owner rfl (fun hr => absurd rfl hr) (fun hl => by cases hl) (fun j hj hpj => ?_) (fun hcm _ => by cases hcm)
      exact absurd hpj (fun hpj => hfree (.inl (h.ownerMutex (by rw [ho]; rfl))) j hj hpj)
    · cases hs
  | free t =>
    simp only [InQueue.step] at hs
    split at hs
    · split at hs
      · obtain ⟨rfl, -⟩ := Prod.mk.inj (Option.some.inj hs)
        exact ⟨h.ownerMutex, h.postMutex, h.ownerSilent, h.ownerPosts, h.pending⟩
      · cases hs
    · cases hs

/-! ## Where tasks are -/

/-- The tasks at these addresses. -/
def tasksAt (s : State) (l : List Addr) : List Task := l.filterMap s.mem

/-- `l` hangs from `task_in_queue` and `d` is what `enqueue` still has to go through; together with the two queues
and what `dequeue` has returned they hold every posted task once. -/
structure Places (s : State) (l d : List Addr) : Prop where
  chain : Chain s.next s.head l
  drained : Chain s.next s.owner.cur d
  apart : (l ++ d).Nodup
  held : ∀ k a, (s.post k).task = some a → a ∉ l ++ d
  heldOnce : ∀ k k' a, (s.post k).task = some a → (s.post k').task = some a → k = k'
  linked : ∀ k a stale, s.post k = .linked a stale → s.next a = stale
  live : ∀ a, a ∈ l ++ d ∨ (∃ k, (s.post k).task = some a) → s.mem a ≠ none
  memOnce : ∀ a b t, s.mem a = some t → s.mem b = some t → a = b
  numbered : ∀ t, (∃ a, s.mem a = some t) ∨ t ∈ s.posted.map Prod.fst → t.postedNum ≤ s.taskCount
  unposted : ∀ k a t, (s.post k).task = some a → s.mem a = some t → t ∉ s.posted.map Prod.fst
  nodup : (s.posted.map Prod.fst).Nodup
  perm : (s.posted.map Prod.fst).Perm
    (tasksAt s l ++ (tasksAt s d ++ (s.thr.taskPqueue ++ s.thr.taskSchQueue ++ s.returned)))
  due : ∀ t, t ∈ s.thr.taskPqueue ∨ t ∈ s.returned → ∃ r ∈ s.readings, t.when ≤ r
  drainNow : ∀ lk now cur, s.owner = .draining lk now cur → now ∈ s.readings
  foreign : s.owner.commits = true → ∀ a ∈ l, ∀ t, s.mem a = some t → (t, 0) ∉ s.posted

section Places
variable {s s' : State} {l d : List Addr}

theorem tasksAt_congr {s s' : State} {l : List Addr} (h : ∀ a ∈ l, s'.mem a = s.mem a) :
    tasksAt s' l = tasksAt s l :=
  List.filterMap_congr h

/-- A step that only changes where the parties are. -/
theorem Places.relabel (h : Places s l d) (hmem : s'.head = s.head ∧ s'.next = s.next ∧ s'.mem = s.mem)
    (hrest : s'.taskCount = s.taskCount ∧ s'.thr = s.thr ∧ s'.posted = s.posted ∧ s'.returned = s.returned)
    (hnow : s'.readings = s.readings) (hpost : ∀ k, (s'.post k).task = (s.post k).task)
    (hlink : ∀ k a stale, s'.post k = .linked a stale → s.next a = stale) (hcur : s'.owner.cur = s.owner.cur)
    (hd : ∀ lk now cur, s'.owner = .draining lk now cur → now ∈ s.readings)
    (hc : s'.owner.commits = true → s.owner.commits = true ∨ s.head = none) : Places s' l d := by
  obtain ⟨h₁, h₂, h₃⟩ := hmem
  obtain ⟨h₄, h₅, h₆, h₇⟩ := hrest
  have ht : ∀ l, tasksAt s' l = tasksAt s l := fun l => tasksAt_congr (fun a _ => by rw [h₃])
  constructor
  · rw [h₁, h₂]; exact h.chain
  · rw [hcur, h₂]; exact h.drained
  · exact h.apart
  · intro k a hk; exact h.held k a (hpost k ▸ hk)
  · intro k k' a hk hk'; exact h.heldOnce k k' a (hpost k ▸ hk) (hpost k' ▸ hk')
  · intro k a stale hk; rw [h₂]; exact hlink k a stale hk
  · intro a ha
    rw [h₃]
    exact h.live a (ha.imp_right (fun ⟨k, hk⟩ => ⟨k, hpost k ▸ hk⟩))
  · rw [h₃]; exact h.memOnce
  · rw [h₃, h₆, h₄]; exact h.numbered
  · intro k a t hk; rw [h₃, h₆]; exact h.unposted k a t (hpost k ▸ hk)
  · rw [h₆]; exact h.nodup
  · rw [h₆, ht, ht, h₅, h₇]; exact h.perm
  · intro t htm
    rw [h₅, h₇] at htm
    rw [hnow]
    exact h.due t htm
  · rw [hnow]; exact hd
  · intro hcm
    rw [h₃, h₆]
    rcases hc hcm with hc | hn
    · exact h.foreign hc
    · -- the chain is empty
      have : l = [] := Chain.unique (hn ▸ h.chain) rfl
      rw [this]
      simp

/-- A party is somewhere else in `async`, with the same task. -/
theorem Places.setPost {k : Party} {pc : PostPc} (h : Places s l d) (hpc : pc.task = (s.post k).task)
    (hl : ∀ a stale, pc = .linked a stale → s.next a = stale) : Places (setPost s k pc) l d := by
  refine h.relabel ⟨rfl, rfl, rfl⟩ ⟨rfl, rfl, rfl, rfl⟩ rfl (fun j => ?_) (fun j a stale hj => ?_) rfl
    h.drainNow .inl
  · rw [setPost_post]
    split
    · next e => rw [e, hpc]
    · rfl
  · rw [setPost_post] at hj
    split at hj
    · exact hl a stale hj
    · exact h.linked j a stale hj

/-- A new task at a free address. -/
theorem Places.post {k : Party} {t : Addr} {tsk : Task} (h : Places s l d) (hk : (s.post k).task = none)
    (hm : s.mem t = none) (hn : tsk.postedNum = s.taskCount + 1) :
    Places (InQueue.setPost { s with
      taskCount := s.taskCount + 1
      mem := fun a => if a = t then some tsk else s.mem a } k (.ready t)) l d := by
  have hne : ∀ a ∈ l ++ d, a ≠ t := fun a ha e => h.live a (.inl ha) (e ▸ hm)
  have hpost : ∀ j a, ((InQueue.setPost s k (.ready t)).post j).task = some a →
      (j = k ∧ a = t) ∨ (j ≠ k ∧ (s.post j).task = some a ∧ a ≠ t) := by
    intro j a hj
    rw [setPost_post] at hj
    split at hj
    · next e => exact .inl ⟨e, (Option.some.inj hj).symm⟩
    · next e => exact .inr ⟨e, hj, fun e' => h.live a (.inr ⟨j, hj⟩) (e' ▸ hm)⟩
  have hfresh : ∀ x, (∃ a, s.mem a = some x) ∨ x ∈ s.posted.map Prod.fst → x ≠ tsk := by
    intro x hx e
    have := h.numbered x hx
    rw [e, hn] at this
    omega
  have ht : ∀ l' : List Addr, (∀ a ∈ l', a ∈ l ++ d) →
      l'.filterMap (fun a => if a = t then some tsk else s.mem a) =
      tasksAt s l' := fun l' hl' => List.filterMap_congr (fun a ha => if_neg (hne a (hl' a ha)))
  constructor
  · exact h.chain
  · exact h.drained
  · exact h.apart
  · intro j a hj ha
    rcases hpost j a hj with ⟨rfl, rfl⟩ | ⟨-, hj, -⟩
    · exact hne a ha rfl
    · exact h.held j a hj ha
  · intro j j' a hj hj'
    rcases hpost j a hj with ⟨rfl, rfl⟩ | ⟨-, hj, hat⟩
    · rcases hpost j' a hj' with ⟨rfl, -⟩ | ⟨-, -, hat⟩
      · rfl
      · exact absurd rfl hat
    · rcases hpost j' a hj' with ⟨-, rfl⟩ | ⟨-, hj', -⟩
      · exact absurd rfl hat
      · exact h.heldOnce j j' a hj hj'
  · intro j a stale hj
    rw [setPost_post] at hj
    split at hj
    · cases hj
    · exact h.linked j a stale hj
  · intro a ha
    show (if a = t then some tsk else s.mem a) ≠ none
    split
    · simp
    · next hat =>
      refine h.live a (ha.imp_right (fun ⟨j, hj⟩ => ⟨j, ?_⟩))
      rcases hpost j a hj with ⟨-, e⟩ | ⟨-, hj, -⟩
      · exact absurd e hat
      · exact hj
  · intro a b x (ha : (if a = t then some tsk else s.mem a) = some x) (hb : (if b = t then some tsk else s.mem b) = some x)
    split at ha
    · next ea =>
      split at hb
      · next eb => rw [ea, eb]
      · exact absurd (Option.some.inj ha).symm (hfresh x (.inl ⟨b, hb⟩))
    · split at hb
      · exact absurd (Option.some.inj hb).symm (hfresh x (.inl ⟨a, ha⟩))
      · exact h.memOnce a b x ha hb
  · rintro x (⟨a, ha⟩ | hx)
    · replace ha : (if a = t then some tsk else s.mem a) = some x := ha
      show x.postedNum ≤ s.taskCount + 1
      split at ha
      · exact Nat.le_of_eq (by rw [← Option.some.inj ha, hn])
      · exact Nat.le_succ_of_le (h.numbered x (.inl ⟨a, ha⟩))
    · exact Nat.le_succ_of_le (h.numbered x (.inr hx))
  · intro j a x hj (ha : (if a = t then some tsk else s.mem a) = some x) hx
    rcases hpost j a hj with ⟨-, rfl⟩ | ⟨-, hj, hat⟩
    · rw [if_pos rfl] at ha
      exact hfresh x (.inr hx) (Option.some.inj ha).symm
    · rw [if_neg hat] at ha
      exact h.unposted j a x hj ha hx
  · exact h.nodup
  · have := h.perm
    rwa [← ht l (fun a ha => List.mem_append_left _ ha), ← ht d (fun a ha => List.mem_append_right _ ha)] at this
  · exact h.due
  · exact h.drainNow
  · intro hc a ha x (hx : (if a = t then some tsk else s.mem a) = some x)
    rw [if_neg (hne a (List.mem_append_left _ ha))] at hx
    exact h.foreign hc a ha x hx

/-- `t->next = stale_head` writes the link of a task that is in no queue. -/
theorem Places.link {k : Party} {t : Addr} {stale : Option Addr} (h : Places s l d)
    (hk : s.post k = .loaded t stale) :
    Places (InQueue.setPost { s with next := fun a => if a = t then stale else s.next a } k (.linked t stale)) l d := by
  have htask : (s.post k).task = some t := by rw [hk]; rfl
  have hne : ∀ a ∈ l ++ d, a ≠ t := fun a ha e => h.held k t htask (e ▸ ha)
  have hp : Places { s with next := fun a => if a = t then stale else s.next a } l d := by
    refine { h with chain := ?_, drained := ?_, linked := ?_ }
    · exact h.chain.congr (fun a ha => if_neg (hne a (List.mem_append_left _ ha)))
    · exact h.drained.congr (fun a ha => if_neg (hne a (List.mem_append_right _ ha)))
    · intro j a st hj
      have hjk : a ≠ t := by
        rintro rfl
        have : j = k := h.heldOnce j k a (by rw [hj]; rfl) htask
        rw [this, hk] at hj
        cases hj
      exact (if_neg hjk).trans (h.linked j a st hj)
  refine hp.setPost (by rw [hk]; rfl) (fun a st e => ?_)
  obtain ⟨rfl, rfl⟩ := PostPc.linked.inj e
  exact if_pos rfl

/-- The compare-exchange that succeeds pushes the task. -/
theorem Places.cas {k : Party} {t : Addr} {tsk : Task} (h : Places s l d) (hk : s.post k = .linked t s.head)
    (hm : s.mem t = some tsk) (hown : k = 0 → s.owner.commits = false) (pc : PostPc) (hpc : pc.task = none) :
    Places (InQueue.setPost { s with head := some t, posted := (tsk, k) :: s.posted } k pc) (t :: l) d := by
  have htask : (s.post k).task = some t := by rw [hk]; rfl
  have hnot := h.held k t htask
  have hpost : ∀ j a, ((InQueue.setPost s k pc).post j).task = some a → j ≠ k ∧ (s.post j).task = some a := by
    intro j a hj
    rw [setPost_post] at hj
    split at hj
    · rw [hpc] at hj; cases hj
    · next e => exact ⟨e, hj⟩
  have hunp := h.unposted k t tsk htask hm
  constructor
  · refine ⟨rfl, ?_⟩
    show Chain s.next (s.next t) l
    rw [h.linked k t s.head hk]
    exact h.chain
  · exact h.drained
  · rw [List.cons_append, List.nodup_cons]; exact ⟨hnot, h.apart⟩
  · intro j a hj ha
    obtain ⟨hjk, hj'⟩ := hpost j a hj
    rcases List.mem_cons.1 ha with e | ha
    · exact hjk (h.heldOnce j k t (e ▸ hj') htask)
    · exact h.held j a hj' ha
  · intro j j' a hj hj'
    exact h.heldOnce j j' a (hpost j a hj).2 (hpost j' a hj').2
  · intro j a stale hj
    rw [setPost_post] at hj
    split at hj
    · rw [hj] at hpc; cases hpc
    · exact h.linked j a stale hj
  · rintro a (ha | ⟨j, hj⟩)
    · rcases List.mem_cons.1 ha with rfl | ha
      · exact h.live a (.inr ⟨k, htask⟩)
      · exact h.live a (.inl ha)
    · exact h.live a (.inr ⟨j, (hpost j a hj).2⟩)
  · exact h.memOnce
  · rintro x (hx | hx)
    · exact h.numbered x (.inl hx)
    · rcases List.mem_cons.1 hx with e | hx
      · exact h.numbered x (.inl ⟨t, e ▸ hm⟩)
      · exact h.numbered x (.inr hx)
  · intro j a x hj hx hmem
    obtain ⟨hjk, hj'⟩ := hpost j a hj
    rcases List.mem_cons.1 hmem with e | hmem
    · have hat : a = t := h.memOnce a t x hx (e ▸ hm)
      exact hjk (h.heldOnce j k t (hat ▸ hj') htask)
    · exact h.unposted j a x hj' hx hmem
  · exact List.nodup_cons.2 ⟨hunp, h.nodup⟩
  · have ht : tasksAt s (t :: l) = tsk :: tasksAt s l := by simp [tasksAt, hm]
    show (tsk :: s.posted.map Prod.fst).Perm (tasksAt s (t :: l) ++ _)
    rw [ht]
    exact h.perm.cons tsk
  · exact h.due
  · exact h.drainNow
  · intro hc a ha x hx hmem
    have hk0 : (0 : Party) ≠ k := fun e => by
      have := hown e.symm
      rw [show s.owner.commits = true from hc] at this
      cases this
    rcases List.mem_cons.1 hmem with e | hmem
    · exact hk0 (Prod.mk.inj e).2
    · rcases List.mem_cons.1 ha with e | ha
      · have hxt : tsk = x := Option.some.inj (hm.symm.trans (e ▸ hx))
        exact hunp (List.mem_map.2 ⟨(x, 0), hmem, hxt.symm⟩)
      · exact h.foreign hc a ha x hx hmem

/-- `exchange` takes the chain. -/
theorem Places.exchange {lk : Bool} {t : Int} (h : Places s l d) (hd : s.owner.cur = none) :
    Places { s with head := none, owner := .draining lk t s.head, readings := t :: s.readings } [] l := by
  have hnil : d = [] := by
    have := h.drained
    rw [hd] at this
    exact this.unique rfl
  subst hnil
  have hl : ∀ a, a ∈ [] ++ l → a ∈ l ++ [] := by simp
  refine { h with
    chain := rfl, drained := h.chain, apart := by simpa using h.apart
    held := fun k a hk ha => h.held k a hk (hl a ha), live := fun a ha => h.live a (ha.imp_left (hl a))
    perm := ?_, due := fun x hx => ?_, drainNow := ?_, foreign := by simp }
  · simpa [tasksAt] using h.perm
  · obtain ⟨r, hr, hxr⟩ := h.due x hx
    exact ⟨r, List.mem_cons_of_mem _ hr, hxr⟩
  · intro lk' now cur e
    obtain ⟨-, rfl, -⟩ := OwnerPc.draining.inj e
    exact List.mem_cons_self

/-- One turn of the loop of `enqueue`. -/
theorem Places.enqueue {lk : Bool} {now : Int} {a : Addr} {tsk : Task} (h : Places s l d)
    (ho : s.owner = .draining lk now (some a)) (hm : s.mem a = some tsk) :
    ∃ d', Places { s with thr := s.thr.enqueue1 now tsk, owner := .draining lk now (s.next a) } l d' := by
  cases d with
  | nil =>
    have := h.drained
    rw [ho] at this
    cases this
  | cons x d' =>
    have hdr := h.drained
    rw [ho] at hdr
    obtain ⟨hx, hdr⟩ := hdr
    obtain rfl : a = x := Option.some.inj hx
    have hsub : ∀ y, y ∈ l ++ d' → y ∈ l ++ a :: d' := fun y hy => by
      simp only [List.mem_append, List.mem_cons] at hy ⊢
      tauto
    have hd : tasksAt s (a :: d') = tsk :: tasksAt s d' := by simp [tasksAt, hm]
    refine ⟨d', { h with
      drained := hdr
      apart := (List.nodup_middle.1 h.apart).tail
      held := fun k y hk hy => h.held k y hk (hsub y hy), live := fun y hy => h.live y (hy.imp_left (hsub y))
      perm := ?_, due := fun t ht => ?_, drainNow := ?_, foreign := fun hc => h.foreign (by rw [ho]; exact hc) }⟩
    · refine h.perm.trans (List.Perm.append_left _ ?_)
      rw [hd]
      refine List.Perm.trans ?_ (((enqueue1_perm now s.thr tsk).symm.append_right s.returned).append_left (tasksAt s d'))
      exact List.perm_middle.symm
    · rcases ht with ht | ht
      · simp only [enqueue1] at ht
        split at ht
        · exact h.due t (.inl ht)
        · next hw =>
          rcases List.mem_append.1 ((StdHeap.pushHeap_perm _ _).subset ht) with ht | ht
          · exact h.due t (.inl ht)
          · rw [List.mem_singleton.1 ht]
            exact ⟨now, h.drainNow _ _ _ ho, Int.not_lt.1 hw⟩
      · exact h.due t (.inr ht)
    · intro lk' now' cur' e
      obtain ⟨-, rfl, -⟩ := OwnerPc.draining.inj e
      exact h.drainNow _ _ _ ho

/-- The rest of `dequeue` takes out what it returns. -/
theorem Places.take {lk : Bool} {t : Int} {o : Option Task} {thr : ThreadPrivate} {pc : OwnerPc} (h : Places s l d)
    (ho : s.owner = .taking lk) (htk : s.thr.takeNext t = (o, thr)) (hcur : pc.cur = none)
    (hpc : ∀ lk now cur, pc ≠ .draining lk now cur) (hc : pc.commits = true → lk = true) :
    Places { s with
      thr, owner := pc
      readings := if s.thr.taskSchQueue = [] then s.readings else t :: s.readings
      returned := o.toList ++ s.returned } l d := by
  have hperm := (takeNext_perm htk).2
  refine { h with
    drained := by rw [hcur]; have := h.drained; rwa [ho] at this
    perm := ?_, due := fun x hx => ?_, drainNow := fun lk now cur e => absurd e (hpc lk now cur)
    foreign := fun hcm => h.foreign (by rw [ho]; exact hc hcm) }
  · refine h.perm.trans (List.Perm.append_left _ (List.Perm.append_left _ ?_))
    refine (hperm.append_right s.returned).trans ?_
    rw [List.append_assoc]
    exact List.perm_append_comm_assoc o.toList (thr.taskPqueue ++ thr.taskSchQueue) s.returned
  · have hold : ∀ x, x ∈ s.thr.taskPqueue ∨ x ∈ s.returned →
        ∃ r ∈ if s.thr.taskSchQueue = [] then s.readings else t :: s.readings, x.when ≤ r := fun x hx => by
      obtain ⟨r, hr, hxr⟩ := h.due x hx
      refine ⟨r, ?_, hxr⟩
      split
      · exact hr
      · exact List.mem_cons_of_mem _ hr
    rcases takeNext_cases htk with ⟨y, v, rfl, hq, hy, rfl⟩ | ⟨-, ⟨rfl, hq, rfl⟩ | ⟨y, v, rfl, hq, rfl⟩⟩
    · rcases hx with hx | hx
      · exact hold x (.inl hx)
      · rcases List.mem_cons.1 hx with rfl | hx
        · exact ⟨t, by simp [hq], hy⟩
        · exact hold x (.inr hx)
    · exact hold x hx
    · rcases hx with hx | hx
      · refine hold x (.inl ?_)
        rw [hq]
        exact List.mem_cons_of_mem _ ((StdHeap.popHeap_dropLast_perm _ y v).subset hx)
      · rcases List.mem_cons.1 hx with rfl | hx
        · exact hold x (.inl (by rw [hq]; simp))
        · exact hold x (.inr hx)

/-- A task that was returned is in no queue, so it can be freed. -/
theorem Places.free {t : Addr} {tsk : Task} (h : Places s l d) (hm : s.mem t = some tsk) (hr : tsk ∈ s.returned) :
    Places { s with mem := fun a => if a = t then none else s.mem a } l d := by
  have hnd := h.perm.nodup_iff.1 h.nodup
  have hne : ∀ a ∈ l ++ d, a ≠ t := by
    rintro a ha rfl
    have hmem : tsk ∈ tasksAt s l ∨ tsk ∈ tasksAt s d := by
      rcases List.mem_append.1 ha with ha | ha
      · exact .inl (List.mem_filterMap.2 ⟨a, ha, hm⟩)
      · exact .inr (List.mem_filterMap.2 ⟨a, ha, hm⟩)
    rcases hmem with hmem | hmem
    · exact (List.nodup_append.1 hnd).2.2 tsk hmem tsk (by simp [hr]) rfl
    · exact (List.nodup_append.1 (List.nodup_append.1 hnd).2.1).2.2 tsk hmem tsk (by simp [hr]) rfl
  have hposted : tsk ∈ s.posted.map Prod.fst := h.perm.mem_iff.2 (by simp [hr])
  have hheld : ∀ k a, (s.post k).task = some a → a ≠ t := by
    rintro k a hk rfl
    exact h.unposted k a tsk hk hm hposted
  have hmem : ∀ a x, (if a = t then none else s.mem a) = some x → s.mem a = some x := by
    intro a x hx
    split at hx
    · cases hx
    · exact hx
  refine { h with
    live := ?_, memOnce := fun a b x ha hb => h.memOnce a b x (hmem a x ha) (hmem b x hb)
    numbered := fun x hx => h.numbered x (hx.imp_left (fun ⟨a, ha⟩ => ⟨a, hmem a x ha⟩))
    unposted := fun k a x hk hx => h.unposted k a x hk (hmem a x hx)
    perm := ?_, foreign := fun hc a ha x hx => h.foreign hc a ha x (hmem a x hx) }
  · rintro a (ha | ⟨k, hk⟩)
    · exact (if_neg (hne a ha)).trans_ne (h.live a (.inl ha))
    · exact (if_neg (hheld k a hk)).trans_ne (h.live a (.inr ⟨k, hk⟩))
  · have ht : ∀ l' : List Addr, (∀ a ∈ l', a ∈ l ++ d) →
        tasksAt { s with mem := fun a => if a = t then none else s.mem a } l' = tasksAt s l' := fun l' hl' =>
      tasksAt_congr (fun a ha => if_neg (hne a (hl' a ha)))
    rw [ht l (fun a ha => List.mem_append_left _ ha), ht d (fun a ha => List.mem_append_right _ ha)]
    exact h.perm

theorem Places.step {a : Act} {e : List Empty} (h : Places s l d) (hA : Awake s)
    (hs : InQueue.step s a = some (s', e)) :
    ∃ l' d', Places s' l' d' := by
  have hdr := h.drainNow
  cases a with
  | post k t when prio body =>
    simp only [InQueue.step] at hs
    split at hs
    · next hc =>
      obtain ⟨rfl, -⟩ := Prod.mk.inj (Option.some.inj hs)
      exact ⟨l, d, h.post (by rw [hc.1]; rfl) hc.2.1 rfl⟩
    · cases hs
  | load k =>
    simp only [InQueue.step] at hs
    split at hs
    · next t hk =>
      obtain ⟨rfl, -⟩ := Prod.mk.inj (Option.some.inj hs)
      exact ⟨l, d, h.setPost (by rw [hk]; rfl) (by simp)⟩
    · cases hs
  | link k =>
    simp only [InQueue.step] at hs
    split at hs
    · next t stale hk =>
      obtain ⟨rfl, -⟩ := Prod.mk.inj (Option.some.inj hs)
      exact ⟨l, d, h.link hk⟩
    · cases hs
  | cas k spurious =>
    simp only [InQueue.step] at hs
    split at hs
    · next t stale hk =>
      split at hs
      · next tsk hm =>
        split at hs
        · next hc =>
          obtain ⟨rfl, -⟩ := Prod.mk.inj (Option.some.inj hs)
          obtain ⟨rfl, -⟩ := hc
          refine ⟨t :: l, d, h.cas hk hm (fun hk0 => ?_) _ (by split <;> rfl)⟩
          rw [hA.running (t := t) (by rw [hk]; rfl) hk0]
          rfl
        · obtain ⟨rfl, -⟩ := Prod.mk.inj (Option.some.inj hs)
          exact ⟨l, d, h.setPost (by rw [hk]; rfl) (by simp)⟩
      · cases hs
    · cases hs
  | lock k =>
    simp only [InQueue.step] at hs
    split at hs
    · next hc =>
      obtain ⟨rfl, -⟩ := Prod.mk.inj (Option.some.inj hs)
      refine ⟨l, d, Places.setPost ?_ (by rw [show _ = _ from hc.1]; rfl) (by simp)⟩
      exact h.relabel ⟨rfl, rfl, rfl⟩ ⟨rfl, rfl, rfl, rfl⟩ rfl (fun _ => rfl) h.linked rfl hdr .inl
    · cases hs
  | notifyAll k =>
    simp only [InQueue.step] at hs
    split at hs
    · next hc =>
      obtain ⟨rfl, -⟩ := Prod.mk.inj (Option.some.inj hs)
      have hw : s.owner.wakeUp.cur = s.owner.cur ∧ (s.owner.wakeUp.commits = true → s.owner.commits = true) ∧
          ∀ lk now cur, s.owner.wakeUp = .draining lk now cur → s.owner = .draining lk now cur := by
        cases s.owner <;> simp [OwnerPc.wakeUp, OwnerPc.cur, OwnerPc.commits]
      refine ⟨l, d, Places.setPost ?_ (by rw [show _ = _ from hc]; rfl) (by simp)⟩
      exact h.relabel ⟨rfl, rfl, rfl⟩ ⟨rfl, rfl, rfl, rfl⟩ rfl (fun _ => rfl) h.linked hw.1
        (fun lk now cur ho => hdr lk now cur (hw.2.2 lk now cur ho)) (fun hc => .inl (hw.2.1 hc))
    · cases hs
  | unlock k =>
    simp only [InQueue.step] at hs
    split at hs
    · next hc =>
      obtain ⟨rfl, -⟩ := Prod.mk.inj (Option.some.inj hs)
      refine ⟨l, d, Places.setPost ?_ (by rw [show _ = _ from hc]; rfl) (by simp)⟩
      exact h.relabel ⟨rfl, rfl, rfl⟩ ⟨rfl, rfl, rfl, rfl⟩ rfl (fun _ => rfl) h.linked rfl hdr .inl
    · cases hs
  | ownerLock =>
    simp only [InQueue.step] at hs
    split at hs
    · next hc =>
      obtain ⟨rfl, -⟩ := Prod.mk.inj (Option.some.inj hs)
      exact ⟨l, d, h.relabel ⟨rfl, rfl, rfl⟩ ⟨rfl, rfl, rfl, rfl⟩ rfl (fun _ => rfl) h.linked
        (by rw [hc.2.1]; rfl) (by simp) (by simp [OwnerPc.commits])⟩
    · cases hs
  | exchange t =>
    simp only [InQueue.step] at hs
    split at hs
    · next hc =>
      have hcur : s.owner.cur = none := by rcases hc.2 with ho | ho <;> rw [ho] <;> rfl
      split at hs
      · next hn =>
        obtain ⟨rfl, -⟩ := Prod.mk.inj (Option.some.inj hs)
        exact ⟨l, d, h.relabel ⟨rfl, rfl, rfl⟩ ⟨rfl, rfl, rfl, rfl⟩ rfl (fun _ => rfl) h.linked (by rw [hcur]; rfl)
          (by simp) (fun _ => .inr hn)⟩
      · obtain ⟨rfl, -⟩ := Prod.mk.inj (Option.some.inj hs)
        exact ⟨[], l, h.exchange hcur⟩
    · cases hs
  | enqueue =>
    simp only [InQueue.step] at hs
    split at hs
    · next lk now a ho =>
      split at hs
      · next tsk hm =>
        obtain ⟨rfl, -⟩ := Prod.mk.inj (Option.some.inj hs)
        exact ⟨l, h.enqueue ho hm⟩
      · cases hs
    · next lk now ho =>
      obtain ⟨rfl, -⟩ := Prod.mk.inj (Option.some.inj hs)
      exact ⟨l, d, h.relabel ⟨rfl, rfl, rfl⟩ ⟨rfl, rfl, rfl, rfl⟩ rfl (fun _ => rfl) h.linked
        (by rw [ho]; rfl) (by simp) (by rw [ho]; exact .inl)⟩
    · cases hs
  | take t =>
    simp only [InQueue.step] at hs
    split at hs
    · next lk ho =>
      split at hs
      · next tsk thr htk =>
        obtain ⟨rfl, -⟩ := Prod.mk.inj (Option.some.inj hs)
        refine ⟨l, d, h.take ho htk ?_ ?_ ?_⟩
        · cases lk <;> rfl
        · cases lk <;> simp
        · cases lk <;> simp [OwnerPc.commits]
      · next thr htk =>
        obtain ⟨rfl, -⟩ := Prod.mk.inj (Option.some.inj hs)
        refine ⟨l, d, h.take ho htk ?_ ?_ ?_⟩
        · cases lk <;> rfl
        · cases lk <;> simp
        · cases lk <;> simp [OwnerPc.commits]
    · cases hs
  | wait =>
    simp only [InQueue.step] at hs
    split at hs
    · next ho =>
      obtain ⟨rfl, -⟩ := Prod.mk.inj (Option.some.inj hs)
      exact ⟨l, d, h.relabel ⟨rfl, rfl, rfl⟩ ⟨rfl, rfl, rfl, rfl⟩ rfl (fun _ => rfl) h.linked
        (by rw [ho]; rfl) (by simp) (fun _ => .inl (by rw [ho]; rfl))⟩
    · cases hs
  | wake =>
    simp only [InQueue.step] at hs
    split at hs
    · next ho =>
      obtain ⟨rfl, -⟩ := Prod.mk.inj (Option.some.inj hs)
      exact ⟨l, d, h.relabel ⟨rfl, rfl, rfl⟩ ⟨rfl, rfl, rfl, rfl⟩ rfl (fun _ => rfl) h.linked
        (by rw [ho]; rfl) (by simp) (by simp [OwnerPc.commits])⟩
    · cases hs
  | relock =>
    simp only [InQueue.step] at hs
    split at hs
    · next ho =>
      obtain ⟨rfl, -⟩ := Prod.mk.inj (Option.some.inj hs)
      exact ⟨l, d, h.relabel ⟨rfl, rfl, rfl⟩ ⟨rfl, rfl, rfl, rfl⟩ rfl (fun _ => rfl) h.linked
        (by rw [ho.1]; rfl) (by simp) (by simp [OwnerPc.commits])⟩
    · cases hs
  | leave =>
    simp only [InQueue.step] at hs
    split at hs
    · next ho =>
      obtain ⟨rfl, -⟩ := Prod.mk.inj (Option.some.inj hs)
      exact ⟨l, d, h.relabel ⟨rfl, rfl, rfl⟩ ⟨rfl, rfl, rfl, rfl⟩ rfl (fun _ => rfl) h.linked
        (by rw [ho]; rfl) (by simp) (by simp [OwnerPc.commits])⟩
    · cases hs
  | free t =>
    simp only [InQueue.step] at hs
    split at hs
    · next tsk hm =>
      split at hs
      · next hr =>
        obtain ⟨rfl, -⟩ := Prod.mk.inj (Option.some.inj hs)
        exact ⟨l, d, h.free hm hr⟩
      · cases hs
    · cases hs

end Places

/-! ## Every interleaving -/

/-- The states that some interleaving reaches. -/
def Reachable (s : State) : Prop := ∃ es, Run step (fun _ _ _ _ => True) {} s es

theorem Reachable.inv {s : State} (h : Reachable s) : Awake s ∧ ∃ l d, Places s l d := by
  obtain ⟨es, h⟩ := h
  refine h.inv (fun _ s => Awake s ∧ ∃ l d, Places s l d) ⟨?_, [], [], ?_⟩ (fun _ s a s' e hI _ hs => ?_)
  · exact ⟨by simp [OwnerPc.holds], by simp, by simp, by simp, by simp⟩
  · exact ⟨rfl, rfl, by simp, by simp, by simp [PostPc.task], by simp, by simp [PostPc.task], by simp, by simp, by simp,
      by simp, by simp [tasksAt], by simp, by simp, by simp⟩
  · obtain ⟨hA, l, d, hP⟩ := hI
    exact ⟨hA.step hs, hP.step hA hs⟩

/-- No wake-up is lost: while the owner sleeps and `task_in_queue` is not empty, some other thread has pushed a
task and has not notified yet, and no task in the queue was posted by the owner itself. -/
theorem no_lost_wakeup {s : State} (h : Reachable s) (hp : s.owner = .parked) (hn : s.head ≠ none) :
    (∃ k, k ≠ 0 ∧ (s.post k = .posted ∨ s.post k = .locked)) ∧
      ∃ l, Chain s.next s.head l ∧ ∀ a ∈ l, ∃ t k, s.mem a = some t ∧ (t, k) ∈ s.posted ∧ (t, 0) ∉ s.posted := by
  obtain ⟨hA, l, d, hP⟩ := h.inv
  have hc : s.owner.commits = true := by rw [hp]; rfl
  refine ⟨hA.pending hc hn, l, hP.chain, fun a ha => ?_⟩
  obtain ⟨t, ht⟩ := Option.ne_none_iff_exists'.1 (hP.live a (.inl (List.mem_append_left _ ha)))
  have hmem : t ∈ s.posted.map Prod.fst :=
    hP.perm.mem_iff.2 (List.mem_append_left _ (List.mem_filterMap.2 ⟨a, ha, ht⟩))
  obtain ⟨⟨x, k⟩, hk, rfl⟩ := List.mem_map.1 hmem
  exact ⟨x, k, ht, hk, hP.foreign hc a ha x ht⟩

/-- Thread 1 pushes between the owner's `dequeue` and its own notification. -/
theorem no_lost_wakeup_late_post : ∃ s : State, (Reachable s ∧ s.owner = .parked ∧ s.head ≠ none) ∧
    ((∃ k, k ≠ 0 ∧ (s.post k = .posted ∨ s.post k = .locked)) ∧
      ∃ l, Chain s.next s.head l ∧ ∀ a ∈ l, ∃ t k, s.mem a = some t ∧ (t, k) ∈ s.posted ∧ (t, 0) ∉ s.posted) := by
  obtain ⟨s, es, hrun, hf⟩ := run_of_check step (fun _ _ _ _ => True) (fun _ _ _ _ => true) {}
    (fun s _ => s.owner == .parked && s.head != none)
    [.ownerLock, .exchange 0, .take 0, .post 1 7 0 0 .vtask, .load 1, .wait, .link 1, .cas 1 true, .link 1, .cas 1 false]
    (fun _ _ _ _ _ => trivial) (by decide)
  simp only [Bool.and_eq_true, beq_iff_eq, bne_iff_ne] at hf
  exact ⟨s, ⟨⟨es, hrun⟩, hf⟩, no_lost_wakeup ⟨es, hrun⟩ hf.1 hf.2⟩

/-- Every posted task is in one place: in the chain at `task_in_queue`, in what `enqueue` still has to go through,
in one of the two queues, or returned by `dequeue`, and then some clock reading has reached its date. Outside of
the loop of `enqueue` the second of these is empty. -/
theorem posted_tasks_kept {s : State} (h : Reachable s) :
    ∃ l d, Chain s.next s.head l ∧ Chain s.next s.owner.cur d ∧
    ((∀ lk now cur, s.owner ≠ .draining lk now cur) → d = []) ∧
      (∀ a ∈ l ++ d, s.mem a ≠ none) ∧ (s.posted.map Prod.fst).Nodup ∧
      (s.posted.map Prod.fst).Perm
        (tasksAt s l ++ (tasksAt s d ++ (s.thr.taskPqueue ++ s.thr.taskSchQueue ++ s.returned))) ∧
      ∀ t ∈ s.returned, ∃ r ∈ s.readings, t.when ≤ r := by
  obtain ⟨-, l, d, hP⟩ := h.inv
  refine ⟨l, d, hP.chain, hP.drained, fun hd => ?_, fun a ha => hP.live a (.inl ha), hP.nodup, hP.perm,
    fun t ht => hP.due t (.inr ht)⟩
  have hc : s.owner.cur = none := by
    cases ho : s.owner with
    | draining lk now cur => exact absurd ho (hd lk now cur)
    | _ => rfl
  have := hP.drained
  rw [hc] at this
  exact this.unique rfl

/-- Two threads post; the owner takes one task, and is going through the chain with the other. -/
theorem posted_tasks_kept_two_posters : ∃ s : State, (Reachable s ∧ s.posted.length = 2 ∧ s.returned.length = 1) ∧
    ∃ l d, Chain s.next s.head l ∧ Chain s.next s.owner.cur d ∧
    ((∀ lk now cur, s.owner ≠ .draining lk now cur) → d = []) ∧
      (∀ a ∈ l ++ d, s.mem a ≠ none) ∧ (s.posted.map Prod.fst).Nodup ∧
      (s.posted.map Prod.fst).Perm
        (tasksAt s l ++ (tasksAt s d ++ (s.thr.taskPqueue ++ s.thr.taskSchQueue ++ s.returned))) ∧
      ∀ t ∈ s.returned, ∃ r ∈ s.readings, t.when ≤ r := by
  obtain ⟨s, es, hrun, hf⟩ := run_of_check step (fun _ _ _ _ => True) (fun _ _ _ _ => true) {}
    (fun s _ => s.posted.length == 2 && s.returned.length == 1)
    [.post 1 7 5 0 .vtask, .post 2 8 9 0 .vtask, .load 1, .load 2, .link 2, .cas 2 false, .link 1, .cas 1 false, .exchange 6,
      .enqueue, .enqueue, .take 9, .link 1, .cas 1 false, .link 1,
      .cas 1 false, .exchange 9] (fun _ _ _ _ _ => trivial) (by decide)
  simp only [Bool.and_eq_true, beq_iff_eq] at hf
  exact ⟨s, ⟨⟨es, hrun⟩, hf⟩, posted_tasks_kept ⟨es, hrun⟩⟩

/-- Right after `exchange` a posted task is neither in the chain nor in a queue, and has not been returned. -/
theorem drained_task_in_no_queue : ∃ s : State, Reachable s ∧ ∃ t ∈ s.posted.map Prod.fst, ∀ l, Chain s.next s.head l →
    t ∉ tasksAt s l ∧ t ∉ s.thr.taskPqueue ∧ t ∉ s.thr.taskSchQueue ∧ t ∉ s.returned := by
  obtain ⟨s, es, hrun, hf⟩ := run_of_check step (fun _ _ _ _ => True) (fun _ _ _ _ => true) {}
    (fun s _ => s.posted.length == 1 && s.head == none && s.thr.taskPqueue == [] && s.thr.taskSchQueue == [] &&
      s.returned == []) [.post 1 7 0 0 .vtask, .load 1, .link 1, .cas 1 false, .exchange 0]
    (fun _ _ _ _ _ => trivial) (by decide)
  simp only [Bool.and_eq_true, beq_iff_eq] at hf
  obtain ⟨⟨⟨⟨hp, hn⟩, hq⟩, hs⟩, hr⟩ := hf
  obtain ⟨x, hx⟩ := List.length_eq_one_iff.1 hp
  refine ⟨s, ⟨es, hrun⟩, x.1, by simp [hx], fun l hl => ?_⟩
  obtain rfl : l = [] := by
    rw [hn] at hl
    exact hl.unique rfl
  simp [tasksAt, hq, hs, hr]

/-! ## `dequeue` in one piece

What the other modules take as one step is what the accesses above do when the owner makes them all in a row. -/

section Whole
variable {s : State}

/-- The loop of `enqueue` over the rest `d` of the chain. -/
theorem enqueue_steps (lk : Bool) (now : Int) (d : List Addr) (hd : Chain s.next s.owner.cur d)
    (hl : ∀ a ∈ d, s.mem a ≠ none) (ho : ∃ cur, s.owner = .draining lk now cur) :
    exec step (fun _ _ _ _ => true) [] s (List.replicate (d.length + 1) .enqueue) =
      some ({ s with thr := s.thr.enqueue now (tasksAt s d), owner := .taking lk }, []) := by
  induction d generalizing s with
  | nil =>
    obtain ⟨cur, ho⟩ := ho
    rw [ho] at hd
    obtain rfl : cur = none := hd
    simp [exec, step, ho, tasksAt, ThreadPrivate.enqueue]
  | cons a d ih =>
    obtain ⟨cur, ho⟩ := ho
    rw [ho] at hd
    obtain ⟨rfl, hd⟩ : cur = some a ∧ _ := hd
    obtain ⟨t, ht⟩ := Option.ne_none_iff_exists'.1 (hl a List.mem_cons_self)
    have hstep : step s .enqueue = some ({ s with thr := s.thr.enqueue1 now t, owner := .draining lk now (s.next a) }, []) := by
      simp [step, ho, ht]
    rw [List.length_cons, List.replicate_succ, exec, hstep]
    have := ih (s := { s with thr := s.thr.enqueue1 now t, owner := .draining lk now (s.next a) }) hd
      (fun b hb => hl b (List.mem_cons_of_mem _ hb)) ⟨_, rfl⟩
    refine this.trans ?_
    simp [tasksAt, ht, ThreadPrivate.enqueue]

/-- `exchange`, the loop of `enqueue` and the rest of `dequeue` in a row are `ThreadPrivate.dequeue` on the drained
chain. -/
theorem dequeue_steps {l : List Addr} {t₁ t₂ : Int} (hc : Chain s.next s.head l) (hl : ∀ a ∈ l, s.mem a ≠ none)
    (hi : s.post 0 = .idle) (ho : s.owner = .running) (hq : s.thr.taskInQueue = []) :
    ∃ as s', exec step (fun _ _ _ _ => true) [] s as = some (s', []) ∧ s'.head = none ∧ s'.owner = .running ∧
      ∃ o, ({ s.thr with taskInQueue := tasksAt s l }).dequeue t₁ t₂ = (o, s'.thr) ∧
        s'.returned = o.toList ++ s.returned := by
  -- the step after the chain is drained
  have htake : ∀ s' : State, s'.owner = .taking false → ∃ s'', step s' (.take t₂) = some (s'', []) ∧
      s''.head = s'.head ∧
      s''.owner = .running ∧ s''.thr = (s'.thr.takeNext t₂).2 ∧
      s''.returned = (s'.thr.takeNext t₂).1.toList ++ s'.returned := by
    intro s' ho'
    cases htk : s'.thr.takeNext t₂ with
    | mk o thr => cases o <;> simp [step, ho', htk]
  have hthr : ({ s.thr with taskInQueue := [] } : ThreadPrivate) = s.thr := by rw [← hq]
  rw [ThreadPrivate.dequeue, hthr]
  cases l with
  | nil =>
    have hn : s.head = none := hc
    obtain ⟨s'', hs, hh, ho', ht, hr⟩ := htake { s with owner := .taking false } rfl
    refine ⟨[.exchange t₁, .take t₂], s'', ?_, hh.trans hn, ho', _, ?_, hr⟩
    · simp [exec, hs, show step s (.exchange t₁) = some ({ s with owner := .taking false }, []) by simp [step, hi, ho, hn]]
    · rw [ht]
      rfl
  | cons a l =>
    have hn : s.head ≠ none := by rw [hc.1]; simp
    have he : step s (.exchange t₁) =
        some ({ s with head := none, owner := .draining false t₁ s.head, readings := t₁ :: s.readings }, []) := by
      simp [step, hi, ho, hn]
    have hd := enqueue_steps (s := { s with head := none, owner := .draining false t₁ s.head, readings := t₁ :: s.readings })
      false t₁ (a :: l) hc hl ⟨_, rfl⟩
    obtain ⟨s'', hs, hh, ho', ht, hr⟩ := htake
      { s with
        head := none, owner := .taking false, readings := t₁ :: s.readings
        thr := s.thr.enqueue t₁ (tasksAt s (a :: l)) } rfl
    refine ⟨.exchange t₁ :: (List.replicate ((a :: l).length + 1) .enqueue ++ [.take t₂]), s'', ?_, hh, ho', _, ?_, hr⟩
    · rw [exec, he]
      refine (exec_append _ _ _ _).trans ?_
      rw [List.nil_append, hd]
      have hone : ∀ s' s'' : State, step s' (.take t₂) = some (s'', []) →
          exec step (fun _ _ _ _ => true) [] s' [.take t₂] = some (s'', []) := fun s' s'' h => by simp [exec, h]
      exact hone _ _ hs
    · rw [ht]

end Whole

end BoostCmt.InQueue
