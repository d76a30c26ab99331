import BoostCmt.Timeout
/-!
# Deadlines from timeouts

`thread::wait(p, timeout_us)` and `usleep` add a count of microseconds to the
clock. Time points are 64-bit counts of nanoseconds, so the scaling and the
addition wrap around, and only `microseconds::max()` is told apart.

The deadline is what was asked for exactly when the sum is a time point. Where it
is, the scheduler keeps the request: `SleepsUntil` says what holds a sleeper back,
and nothing but its date releases it.
-/

namespace BoostCmt

open ThreadPrivate Runs

/-! ## The arithmetic -/

/-- `now + timeout_us`: the count is scaled to nanoseconds, and both operations are 64 bits wide. -/
def addMicroseconds (now us : Int64) : Int64 := now + us * 1000

/-- The deadline of `thread::wait(p, timeout_us)`. -/
def waitDeadline (now timeoutUs : Int64) : Int64 :=
  if timeoutUs = Int64.maxValue then Int64.maxValue else addMicroseconds now timeoutUs

/-- The deadline of `usleep`: `microseconds` takes the unsigned count as a signed one. -/
def usleepDeadline (now : Int64) (timeoutUs : UInt64) : Int64 := addMicroseconds now timeoutUs.toInt64

/-- A count of nanoseconds that a `time_point` can hold. -/
def IsTimePoint (t : Int) : Prop := timePointMin ≤ t ∧ t ≤ timePointMax

instance (t : Int) : Decidable (IsTimePoint t) := inferInstanceAs (Decidable (_ ∧ _))

/-- The sum modulo 2^64, which is what the two operations leave of it. -/
theorem addMicroseconds_toInt (now us : Int64) :
    (addMicroseconds now us).toInt = (now.toInt + 1000 * us.toInt).bmod (2 ^ 64) := by
  rw [addMicroseconds, Int64.toInt_add, Int64.toInt_mul, Int.add_bmod_bmod, Int.mul_comm]
  rfl

theorem bmod_eq_iff {x : Int} : x.bmod (2 ^ 64) = x ↔ IsTimePoint x := by
  unfold IsTimePoint timePointMin timePointMax
  refine ⟨fun h => ?_, fun ⟨h₁, h₂⟩ => Int.bmod_eq_of_le (by omega) (by omega)⟩
  have h₁ := Int.le_bmod (x := x) (m := 2 ^ 64) (by decide)
  have h₂ := Int.bmod_lt (x := x) (m := 2 ^ 64) (by decide)
  rw [h] at h₁ h₂
  omega

/-- `wait` computes the requested time exactly when that is a time point. -/
theorem waitDeadline_exact {now us : Int64} (hmax : us ≠ Int64.maxValue) :
    (waitDeadline now us).toInt = now.toInt + 1000 * us.toInt ↔ IsTimePoint (now.toInt + 1000 * us.toInt) := by
  rw [waitDeadline, if_neg hmax, addMicroseconds_toInt, bmod_eq_iff]

/-- The unsigned count reads the same modulo 2^64. -/
theorem usleepDeadline_toInt (now : Int64) (us : UInt64) :
    (usleepDeadline now us).toInt = (now.toInt + 1000 * (us.toNat : Int)).bmod (2 ^ 64) := by
  have hus : us.toInt64.toInt = (us.toNat : Int).bmod (2 ^ 64) := BitVec.toInt_eq_toNat_bmod us.toBitVec
  rw [usleepDeadline, addMicroseconds_toInt, hus]
  conv_lhs => rw [← Int.add_bmod_bmod, Int.mul_bmod_bmod, Int.add_bmod_bmod]

theorem usleepDeadline_exact (now : Int64) (us : UInt64) :
    (usleepDeadline now us).toInt = now.toInt + 1000 * (us.toNat : Int) ↔
      IsTimePoint (now.toInt + 1000 * (us.toNat : Int)) := by
  rw [usleepDeadline_toInt, bmod_eq_iff]

/-! ## A sleeper stays asleep -/

/-- Context `c` is on `sleep_pqueue`, waits on no promise, and its date is `tp`. -/
structure SleepsUntil (s : ThreadPrivate) (c : CtxId) (tp : Int) : Prop where
  queued : c ∈ s.sleepPqueue
  plain : (s.ctx c).prom = none
  date : (s.ctx c).resumeTime = tp

namespace SleepsUntil
variable {s s' : ThreadPrivate} {c x : CtxId} {tp : Int}

theorem lists {P : CtxId → Prop} (h : SleepsUntil s c tp) (hs : SameLists P s s') (hc : P c) :
    SleepsUntil s' c tp := by
  obtain ⟨-, -, hp, ht⟩ := hs.ctx c hc
  exact ⟨hs.sleep ▸ h.queued, hp.trans h.plain, ht.trans h.date⟩

/-- `notify` takes only contexts off `sleep_pqueue` that wait on a promise. -/
theorem notifySleep {p : PromId} (h : SleepsUntil s c tp) : SleepsUntil (notifySleep p s) c tp := by
  by_cases hw : ∃ x ∈ s.sleepPqueue, (s.ctx x).prom = some p
  · obtain ⟨x, hx, hp⟩ := hw
    obtain ⟨i, y, v, hi, hy, hv, heq, -⟩ := notifySleep_first hx hp
    have hcy : c ≠ y := by
      rintro rfl
      rw [h.plain] at hy
      cases hy
    rw [heq]
    refine ⟨hv.mem_iff.2 ?_, ?_, ?_⟩
    · obtain ⟨j, hj, hjc⟩ := List.mem_iff_getElem.1 h.queued
      refine List.mem_eraseIdx_iff_getElem.2 ⟨j, hj, fun e => ?_, hjc⟩
      subst e
      rw [List.getElem?_eq_getElem hj, hjc] at hi
      exact hcy (Option.some.inj hi)
    · simp only [modCtx_ctx, if_neg hcy, h.plain]
    · simp only [modCtx_ctx, if_neg hcy, h.date]
  · rwa [notifySleep_skip fun x hx e => hw ⟨x, hx, e⟩]

theorem unblock (h : SleepsUntil s c tp) (prev : Option CtxId) (x : CtxId) :
    SleepsUntil (s.unblock prev x) c tp := by
  obtain ⟨core, hs, hp, -⟩ := unblock_core s prev x
  exact ⟨hs ▸ h.queued, (hp c).trans h.plain, (core.resumeTime c).trans h.date⟩

theorem notify {p : PromId} (h : SleepsUntil s c tp) (hn : s.notify p = some s') : SleepsUntil s' c tp := by
  simp only [ThreadPrivate.notify, Option.map_eq_some_iff] at hn
  obtain ⟨u, hu, rfl⟩ := hn
  exact (notifyBlocked_keeps (P := (SleepsUntil · c tp)) (fun _ prev x hx => hx.unblock prev x) h hu).notifySleep

theorem pushBack (h : SleepsUntil s c tp) (x : CtxId) : SleepsUntil (s.readyPushBack x) c tp := by
  obtain ⟨core, hs, -, hx⟩ := readyPushBack_core s x
  exact ⟨hs ▸ h.queued, (hx c).1.trans h.plain, (core.resumeTime c).trans h.date⟩

theorem popFront (h : SleepsUntil s c tp) : SleepsUntil s.readyPopFront.2 c tp := by
  unfold readyPopFront
  split
  · exact h
  · next x _ =>
    refine ⟨h.queued, ?_, ?_⟩ <;> simp only [modCtx_ctx] <;> split
    · exact h.plain
    · exact h.plain
    · exact h.date
    · exact h.date

theorem newContext (h : SleepsUntil s c tp) (hlt : c < s.nctx) : SleepsUntil s.newContext.2 c tp := by
  have hne : c ≠ s.nctx := Nat.ne_of_lt hlt
  refine ⟨h.queued, ?_, ?_⟩ <;> simp only [ThreadPrivate.newContext, modCtx_ctx, if_neg hne]
  · exact h.plain
  · exact h.date

theorem ensureCurrent (h : SleepsUntil s c tp) (hlt : c < s.nctx) : SleepsUntil s.ensureCurrent.2 c tp := by
  unfold ThreadPrivate.ensureCurrent
  split
  · exact h
  · have h' := h.newContext hlt
    exact ⟨h'.queued, h'.plain, h'.date⟩

/-- Another context goes to sleep, for itself. -/
theorem sleepOn (h : SleepsUntil s c tp) (hne : c ≠ x) (t : Int) : SleepsUntil (s.sleepOn x t) c tp := by
  have hc := (sleepOn_core s x t).2.2.1 c hne
  refine ⟨(sleepPush_perm _ _).mem_iff.2 (List.mem_cons_of_mem _ h.queued), ?_, ?_⟩
  · rw [hc, h.plain]
  · rw [hc, h.date]

/-- Another context goes to sleep as a waiter. -/
theorem waitOn (h : SleepsUntil s c tp) (hne : c ≠ x) (p : PromId) (d : Int) :
    SleepsUntil (s.waitOn x p d) c tp := by
  obtain ⟨-, -, -, -, -, hctx, -⟩ := waitOn_core s x p d
  refine ⟨(waitOn_sleep s x p d).mem_iff.2 ?_, ?_, ?_⟩
  · split
    · exact List.mem_cons_of_mem _ h.queued
    · exact h.queued
  · rw [hctx c hne, h.plain]
  · rw [hctx c hne, h.date]

/-- The front of `sleep_pqueue` leaves. -/
theorem sleepPop {v : List CtxId} (h : SleepsUntil s c tp) (hs : s.sleepPqueue = x :: v) (hne : c ≠ x) :
    SleepsUntil s.sleepPop c tp := by
  have hq := h.queued
  rw [hs] at hq
  exact ⟨(sleepPop_perm hs).mem_iff.2 ((List.mem_cons.1 hq).resolve_left hne), h.plain, h.date⟩

end SleepsUntil

namespace World

variable {V : Type} {w₀ w w' : World V} {i : ThreadId} {ph ph' : Phase} {es : List (Event V)} {c : CtxId}
    {tp : Int}
  {R B : List CtxId}

theorem notify_sleepsUntil {t : ThreadId} {p : PromId} (h : SleepsUntil (w.thr i) c tp)
    (hn : w.notify i t p = some w') : SleepsUntil (w'.thr i) c tp := by
  simp only [World.notify] at hn
  split at hn
  · simp only [Option.map_eq_some_iff] at hn
    obtain ⟨s, hs, rfl⟩ := hn
    rw [setThr_thr, if_pos rfl]
    exact h.notify hs
  · next hti =>
    obtain rfl := Option.some.inj hn
    simp only [async, setThr_thr, if_neg (Ne.symm hti)]
    exact h

theorem setException_sleepsUntil {p : PromId} {e : Error} (h : SleepsUntil (w.thr i) c tp)
    (hn : w.setException i p e = some w') : SleepsUntil (w'.thr i) c tp := by
  simp only [setException, notifyBase] at hn
  split at hn
  · obtain rfl := Option.some.inj hn
    exact h
  · exact notify_sleepsUntil (w := w.modProm p _) h hn

theorem runTask_sleepsUntil {t : Task} {tm : Int} {k : List (Frame V)} (h : SleepsUntil (w.thr i) c tp)
    (hr : w.runTask i t tm k = some (w', es)) : SleepsUntil (w'.thr i) c tp := by
  simp only [runTask] at hr
  split at hr
  · split at hr <;> (obtain ⟨rfl, -⟩ := Prod.mk.inj (Option.some.inj hr); exact h)
  · simp only [Option.map_eq_some_iff] at hr
    obtain ⟨s, hs, he⟩ := hr
    obtain ⟨rfl, -⟩ := Prod.mk.inj he
    simp only [setCpu, setThr, if_true]
    exact h.notify hs
  · obtain ⟨rfl, -⟩ := Prod.mk.inj (Option.some.inj hr)
    exact h

theorem switch_sleepsUntil (hv : ValidThr (w.thr i)) (h : SleepsUntil (w.thr i) c tp) (r : Bool)
    (k : List (Frame V)) :
    SleepsUntil ((w.switch i r k).thr i) c tp := by
  have hlt := hv.sleep c h.queued
  have he := h.ensureCurrent hlt
  have hpop := he.popFront
  have hpush : ∀ {s : ThreadPrivate}, SleepsUntil s c tp →
      SleepsUntil (if r then s.readyPushBack (w.thr i).ensureCurrent.1 else s) c tp := by
    intro s hs
    split
    · exact hs.pushBack _
    · exact hs
  obtain ⟨x, s, hp⟩ : ∃ x s, (w.thr i).ensureCurrent.2.readyPopFront = (x, s) := ⟨_, _, rfl⟩
  rw [hp] at hpop
  have h' := hpush hpop
  cases x with
  | some next =>
    rw [switch_ready hp]
    simp only [setCpu, setThr, if_true]
    exact ⟨h'.queued, h'.plain, h'.date⟩
  | none =>
    have hn : s.nctx = (w.thr i).ensureCurrent.2.nctx := (hv.ensureCurrent.1.readyPopFront hp).2.2.1
    have hs : c < s.nctx := Nat.lt_of_lt_of_le hlt (hn ▸ hv.ensureCurrent.2.2.2)
    have hnew : c < (if r then s.readyPushBack (w.thr i).ensureCurrent.1 else s).nctx := by
      split
      · rwa [(readyPushBack_core _ _).1.nctx]
      · exact hs
    have h'' := h'.newContext hnew
    rw [switch_fresh hp]
    simp only [setCpu, setThr, if_true]
    exact ⟨h''.queued, h''.plain, h''.date⟩

/-- Nothing takes a sleeper off `sleep_pqueue` before its date. -/
theorem Move.sleepsUntil (hm : Move w₀ i ph w ph' w' es) (hq : NoQuit es) (hv : Valid w)
    (hc : ph ≠ .suspended → c ≠ w.cur i) (h : SleepsUntil (w.thr i) c tp) :
    SleepsUntil (w'.thr i) c tp ∨ tp ≤ w.now := by
  have hlt : c < (w.thr i).nctx := (hv i).sleep c h.queued
  have hsched : ∀ {s : ThreadPrivate}, SameSched (w.thr i) s → SleepsUntil s c tp :=
    fun hs => h.lists hs.lists trivial
  have hforeign : ∀ {w' : World V}, Foreign (w.thr i) (w'.thr i) → SleepsUntil (w'.thr i) c tp :=
    fun hf => h.lists hf.lists trivial
  have hens := h.ensureCurrent hlt
  have hcur : ph ≠ .suspended → c ≠ (w.thr i).ensureCurrent.1 := fun hph => by
    rw [(hv i).ensureCurrent.2.2.1]
    exact hc hph
  -- the running context, which `c` is not, writes a field of its own
  have hmod : ph ≠ .suspended → ∀ f, SleepsUntil ((w.thr i).ensureCurrent.2.modCtx (w.thr i).ensureCurrent.1 f) c tp :=
    fun hph f => hens.lists (SameLists.modCtx _ _ f) (hcur hph)
  cases hm with
  | quit hx => exact absurd (List.mem_singleton.2 rfl) (hq i)
  | sleepOn t =>
    left
    simpa [setCpu] using hens.sleepOn (hcur (by simp)) t
  | waitOn =>
    left
    simpa [setCpu] using hens.waitOn (hcur (by simp)) _ _
  | @expireSleep _ _ x _ _ hs hle =>
    by_cases hcx : c = x
    · subst hcx
      exact .inr (h.date ▸ hle)
    · left
      simpa using (h.sleepPop hs hcx).pushBack x
  | @expireWait _ _ _ x _ p _ hs hle hp hx =>
    have hcx : c ≠ x := by
      rintro rfl
      rw [h.plain] at hp
      cases hp
    refine .inl (setException_sleepsUntil ?_ hx)
    simpa using h.sleepPop hs hcx
  | switch | reschedule => exact .inl (switch_sleepsUntil (hv i) h _ _)
  | dequeue _ _ _ _ hd =>
    left
    simpa using hsched (dequeue_sched hd)
  | drain _ _ _ _ hd =>
    left
    simpa [setCpu] using hsched (dequeue_sched hd)
  | runTask _ hr => exact .inl (runTask_sleepsUntil h hr)
  | resumeWait | resumeSleep =>
    left
    simpa [setCpu] using hmod (by simp) _
  | post _ _ hn =>
    left
    simpa [setCpu] using notify_sleepsUntil h hn
  | async | asyncVoid | sync => exact .inl (hforeign (foreign_async _ _ _ _))
  | cancel => exact .inl (hforeign (cancelTask_foreign _ _ _))
  | release =>
    left
    show SleepsUntil ((w.release _).thr i) c tp
    rwa [release_thr]
  | _ => exact .inl h

/-- Context `c` of thread `i` is inside the `sleep_until` that it called with the stack `k`, or the time `tp` it
asked for has come. -/
def KeptAsleep (i : ThreadId) (c : CtxId) (tp : Int) (k : List (Frame V)) (w : World V) : Prop :=
  tp ≤ w.now ∨ (SleepsUntil (w.thr i) c tp ∧ w.stack i c = .sleep :: k)

/-- What a move of any thread keeps. -/
theorem Move.keptAsleep {j : ThreadId} {k : List (Frame V)} (hm : Move w₀ i ph w ph' w' es) (hq : NoQuit es)
    (hI : IntactIn ph w i) (h : KeptAsleep j c tp k w) : KeptAsleep j c tp k w' := by
  have hnow := hm.now_le
  rcases h with h | ⟨h, hk⟩
  · exact .inl (Int.le_trans h hnow)
  have hv := hI.sane.valid
  by_cases hj : j = i
  · subst hj
    obtain ⟨R, B, -, hok⟩ := hI.placed
    have hcur : ph ≠ .suspended → c ≠ w.cur j := fun hph => by
      rw [runs_of_ne hph] at hok
      exact hok.ne_cur (hv j) (.inr (.inr h.queued))
    rcases hm.sleepsUntil hq hv hcur h with h' | h'
    · refine .inr ⟨h', ?_⟩
      by_cases hph : ph = .start
      · rw [hm.stack_suspended hv fun _ => ⟨hcur (by simp [hph]), (hv j).sleep c h.queued⟩]
        exact hk
      · exact hm.stack_later hph hI.sane hk (by simp)
    · exact .inl (Int.le_trans h' hnow)
  · refine .inr ⟨h.lists (hm.foreign hj).lists trivial, ?_⟩
    rw [hm.stack_suspended hv fun e => absurd e hj]
    exact hk

theorem Moves.keptAsleep {j : ThreadId} {k : List (Frame V)} (hm : Moves w₀ i ph w ph' w' es) (hq : NoQuit es)
    (hone : OneTimed w₀) (hI : IntactIn ph w i) (h : KeptAsleep j c tp k w) : KeptAsleep j c tp k w' :=
  (hm.inv (fun ph w => IntactIn ph w i ∧ KeptAsleep j c tp k w)
    (fun _ _ _ _ _ hm he hI =>
      have hq := fun j hj => hq j (he _ hj)
      ⟨hm.intactIn hq hone hI.1, hm.keptAsleep hq hI.1 hI.2⟩) ⟨hI, h⟩).2

/-- `sleep_until` puts the context that calls it to sleep. -/
theorem sleepUntil_keptAsleep {t : Int} (hI : Intact w) (hone : OneTimed w) (hd : (w.thr i).done = false)
    (hs : w.step (.call i t (.sleepUntil tp)) = some (w', es)) (hq : NoQuit es) :
    KeptAsleep i (w.cur i) tp (w.cpu i) w' := by
  obtain ⟨hx, hle, hmax, hn⟩ : external (w.cpu i) ∧ w.now ≤ t ∧ t ≤ timePointMax ∧
      ((w.setThr i ((w.thr i).ensureCurrent.2.sleepOn (w.thr i).ensureCurrent.1 tp)).setNow t).startNextTask i false
        (.sleep :: w.cpu i) = some (w', es) := by
    simp only [step] at hs
    split at hs
    · next ht =>
      split at hs <;> first | cases hs | (
        next hcpu =>
          simp only [stepCall, hd, Bool.false_eq_true, if_false] at hs
          exact ⟨by rw [hcpu]; trivial, ht.1, ht.2, hs⟩)
    · cases hs
  obtain ⟨-, hcur, hcur', -⟩ := (hI.1.valid i).ensureCurrent
  have hm : Move w i .start w .suspended _ [] := .sleepOn tp ⟨w.now, Int.le_refl _, rfl⟩ hx
  have hms : Moves w i .suspended _ .out w' es :=
    suspend_moves (w := w.setThr i ((w.thr i).ensureCurrent.2.sleepOn (w.thr i).ensureCurrent.1 tp)) hle hmax hn
  refine hms.keptAsleep hq hone (hm.intactIn (by simp [NoQuit]) hone (hI.start i)) ?_
  have hthr : ∀ s : ThreadPrivate, (((w.setThr i s).setCpu i (.sleep :: w.cpu i)).thr i) = s := fun s => by
    simp [setCpu]
  obtain ⟨hc, -, -, hdate, -⟩ := sleepOn_core (w.thr i).ensureCurrent.2 (w.thr i).ensureCurrent.1 tp
  have he : w.cur i = (w.thr i).ensureCurrent.1 := hcur'.symm
  refine .inr ⟨?_, ?_⟩
  · rw [hthr, he]
    refine ⟨(sleepPush_perm _ _).mem_iff.2 (List.mem_cons_self), ?_, hdate⟩
    simp [ThreadPrivate.sleepOn, sleepPush]
  · rw [stack, if_pos, setCpu_cpu, if_pos rfl]
    rw [he]
    simp only [cur, hthr, hc, hcur, Option.getD_some]

/-- In every run without `quit` whose lists stay intact, a `sleep_until` does not return before its date. -/
theorem keptAsleep_run {j : ThreadId} {k : List (Frame V)} (hI : Intact w)
    (h : Run step (fun _ w _ e => OneTimed w ∧ NoQuit e) w w' es) (hk : KeptAsleep j c tp k w) :
    KeptAsleep j c tp k w' :=
  (h.inv (fun _ w => Intact w ∧ KeptAsleep j c tp k w) ⟨hI, hk⟩ fun _ _ a _ _ hI hok hs =>
    ⟨hI.1.step hs hok.2 hok.1, (step_moves hs).keptAsleep hok.2 hok.1 (hI.1.start a.thread) hI.2⟩).2

/-! ## What callers rely on -/

/-- Calls of `wait` at the time `now` with the timeout `us` get what they ask for. -/
structure WaitKept (V : Type) (now us : Int64) : Prop where
  exact : (waitDeadline now us).toInt = now.toInt + 1000 * us.toInt
  /-- A shorter timeout whose time exists does not give a later deadline. -/
  monotone : ∀ us' : Int64, us'.toInt ≤ us.toInt → IsTimePoint (now.toInt + 1000 * us'.toInt) →
    (waitDeadline now us').toInt ≤ (waitDeadline now us).toInt
  /-- No wait with this deadline times out before the requested time. -/
  timeout : ∀ {w w' : World V} {es e : List (Event V)} {a : Action V},
    Run step (fun _ w _ e => TimeoutsApart w e) init w es → w.step a = some (w', e) → TimeoutsApart w e →
    ∀ i p b, Event.waitDone i p (waitDeadline now us).toInt b (.error .futureWaitTimeout) ∈ e →
      now.toInt + 1000 * us.toInt ≤ w'.now

/-- Calls of `usleep` at the time `now` with the count `us` get what they ask for. -/
structure SleepKept (V : Type) (now : Int64) (us : UInt64) : Prop where
  exact : (usleepDeadline now us).toInt = now.toInt + 1000 * (us.toNat : Int)
  /-- A shorter count does not give a later deadline. -/
  monotone : ∀ us' : UInt64, us'.toNat ≤ us.toNat → (usleepDeadline now us').toInt ≤ (usleepDeadline now us).toInt
  /-- A context that sleeps is still inside of `sleep_until` while the requested time has not come. -/
  wake : ∀ {w₀ w w' : World V} {es₀ e es : List (Event V)} {i : ThreadId} {t : Int},
    Run step (fun _ w _ e => OneTimed w ∧ NoQuit e) init w₀ es₀ → (w₀.thr i).done = false →
    w₀.step (.call i t (.sleepUntil (usleepDeadline now us).toInt)) = some (w, e) → OneTimed w₀ ∧ NoQuit e →
    Run step (fun _ w _ e => OneTimed w ∧ NoQuit e) w w' es →
      now.toInt + 1000 * (us.toNat : Int) ≤ w'.now ∨ w'.stack i (w₀.cur i) = .sleep :: w₀.cpu i

theorem waitKept_of {now us : Int64} (hmax : us ≠ Int64.maxValue) (h : IsTimePoint (now.toInt + 1000 * us.toInt)) :
    WaitKept V now us := by
  have hexact := (waitDeadline_exact hmax).2 h
  refine ⟨hexact, fun us' hle h' => ?_, fun hrun hs hok i p b he => ?_⟩
  · have hmax' : us' ≠ Int64.maxValue := by
      rintro rfl
      exact hmax (Int64.toInt_inj.1 (Int.le_antisymm us.toInt_le hle))
    rw [hexact, (waitDeadline_exact hmax').2 h']
    omega
  · rw [← hexact]
    exact ((timeoutsIsolated_step (timeoutsInv_run hrun _) hs hok).1 i p _ b he).1

theorem sleepKept_of {now : Int64} {us : UInt64} (h0 : 0 ≤ now.toInt)
    (h : now.toInt + 1000 * (us.toNat : Int) ≤ timePointMax) : SleepKept V now us := by
  have hle : ∀ us' : UInt64, us'.toNat ≤ us.toNat → IsTimePoint (now.toInt + 1000 * (us'.toNat : Int)) := by
    intro us' hle
    simp only [IsTimePoint, timePointMin, timePointMax] at h ⊢
    omega
  have hexact := (usleepDeadline_exact now us).2 (hle us (Nat.le_refl _))
  refine ⟨hexact, fun us' hus => ?_, fun hrun hd hs hok hrun' => ?_⟩
  · rw [hexact, (usleepDeadline_exact now us').2 (hle us' hus)]
    omega
  · have hI := intact_run hrun
    have hk := sleepUntil_keptAsleep hI hok.1 hd hs hok.2
    rw [hexact] at hk hs
    exact (keptAsleep_run (hI.step hs hok.2 hok.1) hrun' hk).imp_right And.right

end World

end BoostCmt
