import BoostCmt.ContextReuse
import BoostCmt.SelfSwitch
import BoostCmt.Shapes
/-!
# Every call of the library ends

What the library does in one step ends, and follows no pointer that is null: the walks
of `notify` and of `check_for_timeouts` over intact lists come to their ends, although
the second one calls the first. So a thread can always go on, unless its context has
returned from the function that it was made with, and only `task_canceled` takes it
there.
-/

namespace BoostCmt

open ThreadPrivate Runs

variable {V : Type}

namespace World

section Walks
variable {w w' : World V} {i : ThreadId} {ph : Phase} {R B : List CtxId}

/-! ## The walks end -/

theorem PlacedAs.notify_own_some (h : PlacedAs R B ph w i) (p : PromId) : ∃ s, (w.thr i).notify p = some s := by
  have hl := h.2.lists
  rcases first_waiter B (fun c => ((w.thr i).ctx c).prom = some p) with hnone | ⟨B₁, c, B₂, rfl, hfirst, hc⟩
  · exact ⟨_, hl.notify_none hnone⟩
  · have hcB : c ∈ B₁ ++ c :: B₂ := by simp
    obtain ⟨s, hs, -⟩ := hl.notify_some hfirst hc (fun y hy e =>
      (h.2.single c hcB y ((hl.sleep_prom y hy).1 (by simp [e])) hy (hc.trans e.symm)).symm)
    exact ⟨s, hs⟩

theorem PlacedAs.notify_some (h : PlacedAs R B ph w i) (t : ThreadId) (p : PromId) : ∃ w', w.notify i t p = some w' := by
  simp only [World.notify]
  split
  · obtain ⟨s, hs⟩ := h.notify_own_some p
    exact ⟨_, by rw [hs]; rfl⟩
  · exact ⟨_, rfl⟩

theorem PlacedAs.setException_some (h : PlacedAs R B ph w i) (p : PromId) (e : Error) :
    ∃ w', w.setException i p e = some w' := by
  have h' : PlacedAs R B ph (w.modProm p (fun q => { q with error := some e })) i :=
    ⟨h.1, h.2.congr ⟨rfl, rfl, rfl, rfl, rfl, fun _ _ => ⟨rfl, rfl, rfl, rfl⟩⟩ (fun _ _ => rfl)⟩
  simp only [World.setException, notifyBase]
  split
  · exact ⟨_, rfl⟩
  · exact h'.notify_some _ p

/-- The loop of `check_for_timeouts`, with fuel for every sleeper. -/
theorem expire_some (fuel : Nat) : ∀ {w : World V}, Placed ph w i → (w.thr i).sleepPqueue.length < fuel →
    ∃ w' es, expire i fuel w = some (w', es) ∧ Placed ph w' i := by
  induction fuel with
  | zero => exact fun _ hf => absurd hf (Nat.not_lt_zero _)
  | succ fuel ih =>
    intro w h hf
    cases hq : (w.thr i).sleepPqueue with
    | nil => exact ⟨w, [], by simp only [expire, hq], h⟩
    | cons c v =>
      by_cases hdue : ((w.thr i).ctx c).resumeTime ≤ w.now
      · obtain ⟨R, B, hRB⟩ := h
        have hpop : (w.thr i).sleepPop.sleepPqueue.length < fuel := by
          have hlen := (sleepPop_perm hq).length_eq
          rw [hq, List.length_cons] at hf
          omega
        cases hp : ((w.thr i).ctx c).prom with
        | none =>
          have hback : (((w.setThr i (w.thr i).sleepPop).thr i).readyPushBack c).sleepPqueue.length < fuel := by
            rw [setThr_thr, if_pos rfl, (readyPushBack_core _ _).2.1]
            exact hpop
          obtain ⟨w', es, he, hw'⟩ := ih (w := w.setThr i ((w.thr i).sleepPop.readyPushBack c))
            ⟨_, _, hRB.expireSleep hq hp⟩ (by simpa using hback)
          refine ⟨w', es, ?_, hw'⟩
          simp only [expire, hq, ge_iff_le, if_pos hdue, hp, setThr_thr, if_true, setThr_setThr]
          exact he
        | some p =>
          have hpopped : PlacedAs R B ph (w.setThr i (w.thr i).sleepPop) i := by
            refine ⟨fun hs => by rw [setThr_thr, if_pos rfl]; exact hRB.1 hs, ?_⟩
            have hr : runs ph ((w.setThr i (w.thr i).sleepPop).thr i) = runs ph (w.thr i) := by
              cases ph <;> simp only [runs, setThr_thr, if_true] <;> rfl
            rw [hr]
            exact hRB.2.sleepPop hq (by simp [hp])
          obtain ⟨w₁, hx⟩ := hpopped.setException_some p .futureWaitTimeout
          obtain ⟨R', B', h₁, -⟩ := hpopped.setException hx
          have hlen := (setException_sleep hx).1.length_le
          rw [setThr_thr, if_pos rfl] at hlen
          obtain ⟨w', es, he, hw'⟩ := ih ⟨R', B', h₁⟩ (Nat.lt_of_le_of_lt hlen hpop)
          refine ⟨w', .expired i c p :: es, ?_, hw'⟩
          simp only [expire, hq, ge_iff_le, if_pos hdue, hp, Option.bind_eq_bind, hx, Option.bind_some, he]
          rfl
      · exact ⟨w, [], by simp only [expire, hq, ge_iff_le, if_neg hdue], h⟩

theorem checkForTimeouts_some (h : Placed ph w i) :
    ∃ tm w' es, w.checkForTimeouts i = some (tm, w', es) ∧ Placed ph w' i := by
  simp only [checkForTimeouts]
  split
  · exact ⟨_, _, _, rfl, h⟩
  · split
    · exact ⟨_, _, _, rfl, h⟩
    · obtain ⟨w', es, he, hw'⟩ := expire_some _ h (Nat.lt_succ_self _)
      exact ⟨timePointMin, w', es, by rw [he]; rfl, hw'⟩

theorem startNextTask_some (h : Placed ph w i) (r : Bool) (k : List (Frame V)) :
    ∃ u, w.startNextTask i r k = some u := by
  obtain ⟨tm, w', es, he, -⟩ := checkForTimeouts_some h
  exact ⟨_, by simp only [startNextTask, he]; rfl⟩

theorem runTask_some {t : Task} (h : Placed .out w i) (tm : Int) (k : List (Frame V)) :
    ∃ u, w.runTask i t tm k = some u := by
  simp only [runTask]
  split
  · split <;> exact ⟨_, rfl⟩
  · next p _ =>
    obtain ⟨R, B, hRB⟩ := h
    obtain ⟨s, hs⟩ := hRB.notify_own_some p
    exact ⟨_, by simp only [modCell, hs]; rfl⟩
  · exact ⟨_, rfl⟩

theorem loopWith_some {t : Task} (h : Placed .out w i) (k : List (Frame V)) : ∃ u, w.loopWith i t k = some u := by
  simp only [loopWith]
  split
  · exact ⟨_, rfl⟩
  · obtain ⟨tm, w', es, he, hw'⟩ := checkForTimeouts_some h
    obtain ⟨u, hu⟩ := runTask_some (t := t) hw' tm k
    exact ⟨_, by rw [he]; simp only [Option.bind_eq_bind, Option.bind_some, hu]; rfl⟩

theorem Placed.dequeue {t₁ t₂ : Int} {o : Option Task} (h : Placed .out w i) (hd : w.dequeue i t₁ t₂ = (o, w')) :
    Placed .out w' i := by
  obtain ⟨R, B, -, hok⟩ := h
  unfold World.dequeue at hd
  rcases hs : (w.thr i).dequeue t₁ t₂ with ⟨o', s⟩
  rw [hs] at hd
  obtain ⟨-, rfl⟩ := Prod.mk.inj hd
  have hsched := dequeue_sched hs
  refine ⟨R, B, by simp, ?_⟩
  have hr : runs .out ((w.setThr i s).thr i) = runs .out (w.thr i) := by
    rw [setThr_thr, if_pos rfl]
    exact hsched.current
  rw [hr]
  refine hok.congr ?_ (fun c _ => stack_setThr ?_ i c)
  · rw [setThr_thr, if_pos rfl]
    exact hsched.lists.mono fun _ _ => trivial
  · rw [hsched.current]
    rfl

theorem Placed.setNow (h : Placed ph w i) (t : Int) : Placed ph (w.setNow t) i := by
  obtain ⟨R, B, hRB⟩ := h
  exact ⟨R, B, hRB.setNow t⟩

/-- The stack that is saved does not matter for the walk. -/
theorem startNextTask_setCpu_some {k : List (Frame V)} (h : Placed ph (w.setCpu i k) i) (r : Bool)
    (saved : List (Frame V)) : ∃ u, w.startNextTask i r saved = some u := by
  obtain ⟨tm, w', es, he, -⟩ := checkForTimeouts_some h
  rw [checkForTimeouts_setCpu] at he
  obtain ⟨u, hu, -⟩ := Option.map_eq_some_iff.1 he
  exact ⟨_, by simp only [startNextTask, hu]; rfl⟩

/-! ## The steps -/

theorem stepProcessTasks_some (h : Placed .out w i) (t₁ t₂ t₃ tm : Int) (k : List (Frame V)) (pc : ProcPc) :
    ∃ u, w.stepProcessTasks i t₁ t₂ t₃ tm k pc = some u := by
  have hloop : ∀ {o : Option Task} {w' : World V} {t : Task}, w.dequeue i t₁ t₂ = (o, w') →
      ∃ u, (w'.setNow t₃).loopWith i t k = some u := fun hd => loopWith_some ((h.dequeue hd).setNow t₃) k
  cases pc with
  | running t | release t | sleeping => exact ⟨_, rfl⟩
  | start | lock =>
    simp only [stepProcessTasks]
    rcases hd : w.dequeue i t₁ t₂ with ⟨_ | t, w'⟩
    · exact ⟨_, rfl⟩
    · exact hloop hd
  | top =>
    simp only [stepProcessTasks]
    split
    · exact ⟨_, rfl⟩
    · obtain ⟨tm', w', es, he, -⟩ := checkForTimeouts_some (h.setNow t₁)
      exact ⟨_, by rw [he]; rfl⟩
  | again =>
    obtain ⟨tm', w₁, es, he, h₁⟩ := checkForTimeouts_some (h.setNow t₁)
    simp only [stepProcessTasks, he, Option.bind_eq_bind, Option.bind_some]
    rcases hd : w₁.dequeue i t₂ t₃ with ⟨_ | t, w₂⟩
    · exact ⟨_, rfl⟩
    · obtain ⟨u, hu⟩ := runTask_some (t := t) ((h₁.dequeue hd).setNow t₃) tm' k
      exact ⟨_, by simp only [hu]; rfl⟩
  | tests =>
    simp only [stepProcessTasks]
    split
    · exact ⟨_, rfl⟩
    · split
      · exact ⟨_, rfl⟩
      · split
        · exact ⟨_, rfl⟩
        · exact startNextTask_some (h.setNow t₃) true _
  | switched =>
    simp only [stepProcessTasks]
    split
    · exact ⟨_, rfl⟩
    · rcases hd : w.dequeue i t₁ t₂ with ⟨_ | t, w'⟩
      · exact ⟨_, rfl⟩
      · exact hloop hd

theorem stepWait_some (hv : Valid w) (hone : OneTimed w) (h : Placed .start w i) {pc : WaitPc} {p : PromId} {d : Int}
    {k : List (Frame V)} (hcpu : w.cpu i = .wait pc p d :: k) (t₁ t₂ : Int) :
    ∃ u, w.stepWait i t₁ t₂ p d k pc = some u := by
  cases pc with
  | check | finish =>
    simp only [stepWait]
    split <;> exact ⟨_, rfl⟩
  | ready | resumed =>
    simp only [stepWait]
    split <;> exact ⟨_, rfl⟩
  | block =>
    simp only [stepWait]
    split
    · exact ⟨_, rfl⟩
    · obtain ⟨R, B, hRB⟩ := h
      have hsusp := (hRB.waitOn hv hone hcpu).setNow t₂
      exact startNextTask_setCpu_some ⟨_, _, hsusp⟩ false _

theorem stepSet_some (h : Placed .start w i) (p : PromId) (o : Outcome V) (b : Bool) (k : List (Frame V)) (pc : SetPc) :
    ∃ u, w.stepSet i p o b k pc = some u := by
  cases pc with
  | store =>
    cases o with
    | value v =>
      simp only [stepSet]
      split <;> exact ⟨_, rfl⟩
    | error e => exact ⟨_, rfl⟩
  | notify =>
    simp only [stepSet]
    split <;> exact ⟨_, rfl⟩
  | post t =>
    obtain ⟨R, B, hRB⟩ := h
    obtain ⟨w', hn⟩ := hRB.notify_some t p
    exact ⟨_, by simp only [stepSet, hn]; rfl⟩

end Walks

/-- What the code outside the library can call, `quit` apart: it names promises that are shared with it. -/
def admissible (w : World V) : Call V → Bool
  | .wait p _ => w.shared p
  | .set p _ => w.shared p
  | .cancel p => w.shared p
  | .quit => false
  | _ => true

/-- Whatever thread `i` is about to do ends. -/
structure Unstuck (w : World V) (i : ThreadId) : Prop where
  library : ∀ t₁ t₂ t₃, w.now ≤ t₁ → t₁ ≤ t₂ → t₂ ≤ t₃ → t₃ ≤ timePointMax → ¬ external (w.cpu i) →
    (w.step (.run i t₁ t₂ t₃)).isSome = true
  contended : ∀ t, w.now ≤ t → t ≤ timePointMax → locks (w.cpu i) = true → (w.step (.contend i t)).isSome = true
  calls : ∀ t c, w.now ≤ t → t ≤ timePointMax → external (w.cpu i) → w.admissible c = true →
    (w.step (.call i t c)).isSome = true

section Steps
variable {w : World V} {i : ThreadId}

theorem stepCall_some (hi : Intact w) (c : Call V) (hc : w.admissible c = true) (t : Int) (k : List (Frame V)) :
    ∃ u, w.stepCall i t k c = some u := by
  obtain ⟨R, B, hRB⟩ := hi.2 i
  have hstart : PlacedAs R B .start w i := hRB.phase (by simp) (by simp)
  cases c with
  | newPromise | async | asyncVoid | scheduleVoid | exec | sync => exact ⟨_, rfl⟩
  | wait p d | set p o =>
    simp only [admissible] at hc
    exact ⟨_, by simp only [stepCall, hc]; rfl⟩
  | cancel p =>
    simp only [admissible] at hc
    simp only [stepCall, hc, if_true]
    split <;> exact ⟨_, rfl⟩
  | sleepUntil tp =>
    simp only [stepCall]
    split
    · exact ⟨_, rfl⟩
    · have hsusp := (hstart.sleepOn hi.1.valid tp (w.cpu i)).setNow t
      exact startNextTask_setCpu_some ⟨_, _, hsusp⟩ false _
  | yield => exact startNextTask_some (Placed.setNow ⟨R, B, hRB⟩ t) true _
  | quit => cases hc

theorem Intact.unstuck (hi : Intact w) (hone : OneTimed w) (hne : w.cpu i ≠ []) : Unstuck w i := by
  have hout : Placed .out w i := hi.2 i
  obtain ⟨R, B, hRB⟩ := hi.2 i
  have hstart : Placed .start w i := ⟨R, B, hRB.phase (by simp) (by simp)⟩
  refine ⟨fun t₁ t₂ t₃ h₁ h₂ h₃ hmax hx => ?_, fun t h hmax hl => ?_, fun t c h hmax hx hc => ?_⟩
  · rw [Option.isSome_iff_exists]
    simp only [World.step]
    rw [if_pos ⟨h₁, h₂, h₃, hmax⟩]
    simp only [stepRun]
    split
    · exact stepProcessTasks_some hout ..
    · next pc p d k hcpu =>
      exact stepWait_some (w := w.setNow t₁) hi.1.valid hone (hstart.setNow t₁) hcpu ..
    · exact stepSet_some hstart ..
    · split <;> exact ⟨_, rfl⟩
    · split <;> exact ⟨_, rfl⟩
    · exact ⟨_, rfl⟩
    · next hcpu => exact absurd (by rw [hcpu]; trivial) hx
    · next hcpu => exact absurd (by rw [hcpu]; trivial) hx
    · next hcpu => exact absurd hcpu hne
  · rw [Option.isSome_iff_exists]
    simp only [World.step]
    rw [if_pos ⟨h, hmax, hl⟩]
    exact startNextTask_some (Placed.setNow ⟨R, B, hRB⟩ t) true _
  · rw [Option.isSome_iff_exists]
    simp only [World.step]
    rw [if_pos ⟨h, hmax⟩]
    split
    · exact stepCall_some hi c hc t _
    · exact stepCall_some hi c hc t _
    · next hnu hnt =>
      cases hcpu : w.cpu i with
      | nil => exact absurd hcpu hne
      | cons f k =>
        rw [hcpu] at hx
        cases f with
        | user => exact absurd hcpu (hnu k)
        | task t => exact absurd hcpu (hnt t k)
        | _ => cases hx

end Steps

/-! ## The bottom of a stack -/

section Rooted
variable {w₀ w w' : World V} {i : ThreadId} {ph ph' : Phase} {es es₀ : List (Event V)} {f g : Frame V}
  {k k' : List (Frame V)} {c : CtxId}

/-- The code that was there before the first context, or the function that a context is made with. -/
def base : Frame V → Prop
  | .user => True
  | .processTasks _ _ => True
  | _ => False

/-- The stack has not lost its bottom. -/
def Rooted (k : List (Frame V)) : Prop := ∃ f, k.getLast? = some f ∧ base f

theorem Rooted.push (h : Rooted k) (f : Frame V) : Rooted (f :: k) := by
  obtain ⟨g, hg, hb⟩ := h
  exact ⟨g, by rw [List.getLast?_cons, hg]; rfl, hb⟩

theorem Rooted.pop (h : Rooted (f :: k)) (hf : ¬ base f) : Rooted k := by
  obtain ⟨g, hg, hb⟩ := h
  cases k with
  | nil =>
    obtain rfl := Option.some.inj hg
    exact absurd hb hf
  | cons x k => exact ⟨g, by rwa [List.getLast?_cons_cons] at hg, hb⟩

theorem Rooted.replace (h : Rooted (f :: k)) (hfg : base f → base g) : Rooted (g :: k) := by
  cases k with
  | nil =>
    obtain ⟨x, hx, hb⟩ := h
    obtain rfl := Option.some.inj hx
    exact ⟨g, rfl, hfg hb⟩
  | cons x k =>
    obtain ⟨y, hy, hb⟩ := h
    exact ⟨y, by rwa [List.getLast?_cons_cons] at hy ⊢, hb⟩

theorem mem_raise (h : w.currentCanceled i = true) : ∃ c, .raised i c ∈ w.raise i := by
  unfold currentCanceled at h
  unfold raise
  split at h
  · next c hc => exact ⟨c, List.mem_singleton_self _⟩
  · cases h

/-- Only an exception and a `quit` take the bottom of a stack away. -/
theorem Local.rooted (hl : Local w i k k' es) (hd : (w.thr i).done = false) (hr : ∀ c, .raised i c ∉ es)
    (h : Rooted k) : Rooted k' := by
  cases hl with
  | callWait | callSet | callExec | startYield => exact h.push _
  | finishSet => exact h.replace (fun hb => by cases hb)
  | exit _ hdone =>
    rw [hd] at hdone
    cases hdone
  | again | toLock | toSwitch | wakeup => exact h.replace fun _ => trivial
  | isReady | notReady | notifyRead => exact h.replace fun hb => hb
  | raiseSwitched hc =>
    obtain ⟨c, hmem⟩ := mem_raise hc
    exact absurd hmem (hr c)
  | raiseYield hc =>
    obtain ⟨c, hmem⟩ := mem_raise hc
    exact absurd (List.mem_append_left _ hmem) (hr c)
  | _ => exact h.pop fun hb => hb

/-- What a move leaves on the running stack. -/
theorem Move.rooted_cpu (hm : Move w₀ i ph w ph' w' es) (hsw : ∀ r, w' ≠ w.switch i r (w.cpu i))
    (hd : (w.thr i).done = false) (hr : ∀ c, .raised i c ∉ es) (h : Rooted (w.cpu i)) : Rooted (w'.cpu i) := by
  have hset : ∀ {u : World V} {k : List (Frame V)}, Rooted k → Rooted ((u.setCpu i k).cpu i) := by
    intro u k hk
    rwa [setCpu_cpu, if_pos rfl]
  cases hm with
  | switch | reschedule => exact absurd rfl (hsw _)
  | cancel => rwa [show (w.cancelTask _).cpu = w.cpu by simp only [cancelTask]; split <;> rfl]
  | quit hq => rwa [(quit_stacks hq).2.1]
  | expireWait _ _ _ _ hx => rwa [(setException_frame hx).cpu]
  | stackTop hst hl =>
    obtain ⟨t, -, rfl⟩ := hst
    exact hset (hl.rooted hd hr h)
  | sync => exact hset ((h.push _).push _)
  | sleepOn => exact hset (h.push _)
  | waitOn _ hcpu | enqueueThread _ hcpu | resumeWait _ hcpu | storeValue _ hcpu | storeError _ hcpu =>
    rw [hcpu] at h
    exact hset (h.replace fun hb => hb)
  | ran hcpu | release hcpu | drain hcpu | check hcpu =>
    rw [hcpu] at h
    exact hset (h.replace fun _ => trivial)
  | finishError _ hcpu | post _ hcpu | resumeSleep hcpu =>
    rw [hcpu] at h
    exact hset (h.pop fun hb => hb)
  | abandon _ hdone =>
    rw [hd] at hdone
    cases hdone
  | runTask hcpu hrun =>
    rw [hcpu] at h
    have hrunning : ∀ {t : Task} {tm : Int}, Rooted (.processTasks (.running t) tm :: _) :=
      fun {t tm} => h.replace fun _ => trivial
    rcases runTask_cpu hrun with ⟨p, -, -, e⟩ | ⟨-, e⟩ | ⟨p, -, -, e⟩ <;> rw [e]
    · exact hrunning.push _
    · exact hrunning.push _
    · exact hrunning
  | _ => exact h

/-- The first context is the one that is there before any is made. -/
theorem first_cur (hv : ValidThr (w.thr i)) {n : Nat} (hn : n = (w.thr i).nctx ∨ n ≤ 1) (hc : c < n) :
    c < (w.thr i).nctx ∨ c = w.cur i := by
  rcases hn with rfl | hn
  · exact .inl hc
  · cases hcur : (w.thr i).current with
    | none =>
      refine .inr ?_
      rw [cur, hcur]
      exact Nat.lt_one_iff.1 (Nat.lt_of_lt_of_le hc hn)
    | some x => exact .inl (Nat.lt_of_lt_of_le hc (Nat.le_trans hn (Nat.succ_le_of_lt (Nat.zero_lt_of_lt (hv.current x hcur)))))

theorem switch_new {r : Bool} (hv : Valid w) (hc : c < ((w.switch i r (w.cpu i)).thr i).nctx) :
    (c < (w.thr i).nctx ∨ c = w.cur i) ∨ (w.switch i r (w.cpu i)).stack i c = [.processTasks .start 0] := by
  obtain ⟨hve, -, -, -⟩ := (hv i).ensureCurrent
  rcases hp : (w.thr i).ensureCurrent.2.readyPopFront with ⟨o, s⟩
  obtain ⟨-, -, hn, -⟩ := hve.readyPopFront hp
  have hn' := (readyPushBack_nctx s (w.thr i).ensureCurrent.1 r).trans hn
  cases o with
  | some next =>
    rw [switch_ready hp] at hc
    simp only [setCpu, setThr_thr, if_true] at hc
    exact .inl (first_cur (hv i) (ensureCurrent_nctx (hv i)) (hn' ▸ hc))
  | none =>
    have hlt : c < (w.thr i).ensureCurrent.2.nctx + 1 := by
      rw [switch_fresh hp] at hc
      simp only [setCpu, setThr_thr, if_true] at hc
      rw [← hn']
      exact hc
    by_cases hlast : c = (w.thr i).ensureCurrent.2.nctx
    · refine .inr ?_
      rw [switch_fresh hp, hn', stack, if_pos, setCpu_cpu, if_pos rfl]
      simp [cur, setCpu, hlast]
    · exact .inl (first_cur (hv i) (ensureCurrent_nctx (hv i)) (Nat.lt_of_le_of_ne (Nat.le_of_lt_succ hlt) hlast))

theorem switch_current (w : World V) (i : ThreadId) (r : Bool) (k : List (Frame V)) :
    ∃ c, ((w.switch i r k).thr i).current = some c := by
  rcases hp : (w.thr i).ensureCurrent.2.readyPopFront with ⟨_ | next, s⟩
  · rw [switch_fresh hp]
    simp only [setCpu, setThr_thr, if_true]
    exact ⟨_, rfl⟩
  · rw [switch_ready hp]
    simp only [setCpu, setThr_thr, if_true]
    exact ⟨_, rfl⟩

/-- The contexts that a thread has. -/
def hasContext (w : World V) (j : ThreadId) (c : CtxId) : Prop := c < (w.thr j).nctx ∨ c = w.cur j

/-- No stack of a thread at which `task_canceled` was never thrown has lost its bottom. -/
def AllRooted (es : List (Event V)) (w : World V) : Prop :=
  ∀ j, (∀ c, .raised j c ∉ es) → ∀ c, w.hasContext j c → Rooted (w.stack j c)

theorem Move.allRooted (hm : Move w₀ i ph w ph' w' es) (hv : Valid w) (hd : (w.thr i).done = false)
    (h : AllRooted es₀ w) : AllRooted (es₀ ++ es) w' := by
  intro j hr c hc
  have hrest : ∀ c, w.hasContext j c → Rooted (w.stack j c) := h j fun c hm => hr c (List.mem_append_left _ hm)
  have hraise : ∀ c, .raised j c ∉ es := fun c hm => hr c (List.mem_append_right _ hm)
  by_cases hsw : ∃ r, w' = w.switch i r (w.cpu i)
  · obtain ⟨r, rfl⟩ := hsw
    rcases stack_switch (i := i) hv r j c with hs | ⟨-, -, -, -, hs⟩
    · by_cases hj : j = i
      · subst hj
        have hlt : c < ((w.switch j r (w.cpu j)).thr j).nctx := by
          rcases hc with hlt | rfl
          · exact hlt
          · obtain ⟨x, hx⟩ := switch_current w j r (w.cpu j)
            rw [cur, hx]
            exact (hm.valid hv j).current x hx
        rcases switch_new hv hlt with hold | hnew
        · exact hs ▸ hrest c hold
        · exact hnew ▸ ⟨_, rfl, trivial⟩
      · rw [hs]
        refine hrest c ?_
        rw [hasContext, cur, switch_thr_other w r _ hj] at hc
        exact hc
    · exact hs ▸ ⟨_, rfl, trivial⟩
  · have hst := (hm.stackStep hv).resolve_right hsw
    have hold : w.hasContext j c := by
      rcases hc with hlt | rfl
      · by_cases hj : j = i
        · subst hj
          refine first_cur (hv j) ((hm.first_context hv).resolve_right fun hfirst => ?_) hlt
          obtain ⟨r, e, -⟩ := hfirst
          exact hsw ⟨r, e⟩
        · exact .inl ((hm.foreign hj).nctx ▸ hlt)
      · exact .inr (hst.cur j)
    rw [hst.stack]
    split
    · next hjc =>
      obtain ⟨rfl, rfl⟩ := hjc
      refine hm.rooted_cpu (fun r e => hsw ⟨r, e⟩) hd hraise ?_
      have hcur := hrest _ hold
      rwa [stack_cur] at hcur
    · exact hrest c hold

/-- What the invariant of a run says about the middle of a step. -/
structure RootedIn (es : List (Event V)) (w : World V) : Prop where
  valid : Valid w
  undone : ∀ j, (w.thr j).done = false
  rooted : AllRooted es w

theorem Move.rootedIn (hm : Move w₀ i ph w ph' w' es) (hq : NoQuit es) (h : RootedIn es₀ w) :
    RootedIn (es₀ ++ es) w' :=
  ⟨hm.valid h.valid, fun j => (hm.done hq j).trans (h.undone j), hm.allRooted h.valid (h.undone i) h.rooted⟩

theorem rootedIn_init : RootedIn [] (init : World V) := by
  refine ⟨sane_init.valid, fun j => rfl, fun j _ c hc => ?_⟩
  obtain rfl := hc.resolve_left (Nat.not_lt_zero c)
  exact ⟨.user, by rw [stack_cur]; rfl, trivial⟩

theorem rootedIn_run {w : World V} {es : List (Event V)} (h : Run step (fun _ _ _ e => NoQuit e) init w es) :
    RootedIn es w := by
  refine h.inv RootedIn rootedIn_init (fun es₀ w a w' e hI hq hs => ?_)
  exact (step_moves hs).inv_events es₀ (fun es _ w => RootedIn es w)
    (fun _ _ _ _ _ _ hm he hI => hm.rootedIn (fun j hj => hq j (he _ hj)) hI) hI

end Rooted

end World

end BoostCmt
