import BoostCmt.Signals
/-!
# What `thread::sync` leaves behind

The promise and the task of `sync` are on its stack, so nothing may refer to them
when it returns. `Synced` follows the caller through its wait: what is going to
wake it finds it in the lists of its thread, and when the wait ends the target
thread is done with both.
-/

namespace BoostCmt

open Linked ThreadPrivate Places Runs

variable {V : Type}

/-- The calls of a `sync` with the promise `p`. -/
def Frame.syncs (p : PromId) : Frame V → Prop
  | .wait _ q _ => q = p
  | .sync q _ => q = p
  | _ => False

theorem Frame.syncs.refers {f : Frame V} {p : PromId} (h : f.syncs p) : f.refers p := by
  cases f <;> first | exact h | exact h.elim

/-- The place belongs to thread `j`, where thread `i` moves. -/
def Place.inside (i j : ThreadId) : Place → Prop
  | .queue _ => False
  | .hand => j = i
  | .stack j' _ => j' = j

namespace World

variable {w₀ w w' : World V} {i : ThreadId} {ph ph' : Phase} {es : List (Event V)} {a : Action V} {p : PromId}

/-! ## The promise of a call of `sync` -/

theorem release_onStack (w : World V) (t : Task) (q : PromId) :
    ((w.release t).prom q).onStack = (w.prom q).onStack ∧ (w.release t).promCount = w.promCount := by
  simp only [World.release]
  split
  · split
    · refine ⟨?_, rfl⟩
      simp only [modProm]
      split <;> rfl
    · exact ⟨rfl, rfl⟩
  · exact ⟨rfl, rfl⟩

/-- The promises stay where they are. A new one can be named by the code outside the library, or is that of a
`sync`. -/
theorem Move.promises (hm : Move w₀ i ph w ph' w' es) (hq : NoQuit es) :
    (∀ q, q < w.promCount → (w'.prom q).onStack = (w.prom q).onStack) ∧
      (w'.promCount = w.promCount ∨ (w'.promCount = w.promCount + 1 ∧ (w'.shared w.promCount = true ∨
        ∃ d t, w'.cpu i = .wait .check w.promCount d :: .sync w.promCount t :: w.cpu i))) := by
  cases hm with
  | newPromise | async =>
    refine ⟨fun q hlt => ?_, .inr ⟨rfl, .inl ?_⟩⟩
    · simp [World.newPromise, newTask, modProm, modCell, World.async, setThr, Nat.ne_of_lt hlt]
    · simp [shared, World.newPromise, newTask, modProm, modCell, World.async, setThr]
  | sync ov j prio d =>
    refine ⟨fun q hlt => ?_, .inr ⟨rfl, .inr ⟨d, _, if_pos rfl⟩⟩⟩
    simp [World.newPromise, newTask, modProm, modCell, World.async, setThr, setCpu, Nat.ne_of_lt hlt]
  | cancel => exact ⟨fun q _ => by rw [cancelTask_prom], .inl (by simp only [cancelTask]; split <;> rfl)⟩
  | quit => exact absurd (by simp) (hq i)
  | expireWait _ _ _ _ hx =>
    refine ⟨fun q _ => ?_, .inl (setException_frame hx).promCount⟩
    rw [setException_prom hx]
    simp only [modProm]
    split <;> rfl
  | switch | reschedule =>
    exact ⟨fun q _ => by rw [switch_prom], .inl (by simp only [World.switch]; split <;> rfl)⟩
  | runTask _ hr => exact ⟨fun q _ => by rw [runTask_prom hr], .inl (runTask_globals hr).2⟩
  | release => exact ⟨fun q _ => (release_onStack w _ q).1, .inl (release_onStack w _ 0).2⟩
  | post _ _ hn => exact ⟨fun q _ => by rw [← notify_prom hn]; rfl, .inl (notify_frame hn).promCount⟩
  | finishError | storeError | storeValue | enqueueThread =>
    refine ⟨fun q _ => ?_, .inl rfl⟩
    simp only [setCpu, modProm]
    split <;> rfl
  | _ => exact ⟨fun _ _ => rfl, .inl rfl⟩

/-- Whether the code outside the library can name a promise does not change. -/
theorem Move.shared_kept (hm : Move w₀ i ph w ph' w' es) (hq : NoQuit es) (hlt : p < w.promCount) :
    w'.shared p = w.shared p := by
  simp only [shared, (hm.promises hq).1 p hlt, hlt, Nat.lt_of_lt_of_le hlt hm.globals.2]

/-- A call of `sync` has the task of its promise, which the code outside the library cannot name. -/
def SyncFrames (w : World V) : Prop :=
  ∀ j c p t, Frame.sync p t ∈ w.stack j c → t.body = .rtask p ∧ p < w.promCount ∧ w.shared p = false

theorem Move.syncFrames (hm : Move w₀ i ph w ph' w' es) (hq : NoQuit es) (hv : Valid w) (h : SyncFrames w) :
    SyncFrames w' := by
  intro j c p t hf
  rcases hm.frame_from hv hf with hf | hf | ⟨rfl, rfl, hnf⟩
  · obtain ⟨hb, hlt, hp⟩ := h j c p t hf
    exact ⟨hb, Nat.lt_of_lt_of_le hlt hm.globals.2, (hm.shared_kept hq hlt).trans hp⟩
  · cases hf
  · cases hnf with
    | sync hc hb hp => exact ⟨hb, by rw [hc]; exact Nat.lt_succ_self _, hp⟩

/-- Where a call of a `sync` comes from. -/
theorem Move.syncs_from (hm : Move w₀ i ph w ph' w' es) (hv : Valid w) (hp : w.shared p = false) {j : ThreadId}
    {c : CtxId} {f : Frame V} (hf : f ∈ w'.stack j c) (hs : f.syncs p) :
    (∃ f' ∈ w.stack j c, f'.syncs p) ∨ (j = i ∧ c = w.cur i ∧ p = w.promCount) := by
  rcases hm.frame_from hv hf with hf | rfl | ⟨rfl, rfl, hnf⟩
  · exact .inl ⟨f, hf, hs⟩
  · exact hs.elim
  · cases hnf with
    | waitStart _ hnew =>
      obtain rfl := hs
      rcases hnew with hsh | ⟨hnew, -⟩
      · rw [hp] at hsh
        cases hsh
      · exact .inr ⟨rfl, rfl, hnew⟩
    | @wait pc _ q d _ hcpu => exact .inl ⟨.wait pc q d, by rw [stack_cur, hcpu]; exact List.mem_cons_self, hs⟩
    | sync => exact .inr ⟨rfl, rfl, Eq.symm hs⟩
    | _ => exact hs.elim

/-! ## The way of the caller -/

/-- The call of `sync` with the promise `p`, and what is on the way to it: nobody is inside it but one context, its
task stores once, and what is going to wake it reaches it, unless it has found `p` ready itself. -/
structure Synced (p : PromId) (ph : Phase) (w : World V) (i : ThreadId) : Prop extends Enrolled p ph w i where
  fresh : w.promCount ≤ p → (w.prom p).ready = false ∧ (w.prom p).blockedThread = none
  place : ∀ j c j' c' f f', f ∈ w.stack j c → f' ∈ w.stack j' c' → f.syncs p → f'.syncs p → (j, c) = (j', c')
  sole : AtMostOne (ahead p ph w)
  single : AtMostOne (signals p ph w)
  settled : (w.prom p).ready = true → ∀ x, ahead p ph w x = 0
  signalled : ∀ x, signals p ph w x ≠ 0 → p < w.promCount ∧ (w.prom p).ready = true
  awake : ∀ j c pc d k, w.stack j c = .wait pc p d :: k →
    pc = .finish ∨ (pc = .resumed ∧ ¬ (w.thr j).BlockedOn p c) → (w.prom p).ready = true
  unread : ∀ j c d, Frame.wait .check p d ∈ w.stack j c → (w.prom p).blockedThread = none
  posting : ∀ j c t o b, Frame.set (.post t) p o b ∈ w.stack j c → (w.prom p).blockedThread = some t
  reached : ∀ j c pc d x, Frame.wait pc p d ∈ w.stack j c → signals p ph w x ≠ 0 → ¬ x.inside i j →
    pc = .ready ∨ Unserved w p j c ∨ (pc = .check ∧ ∃ j' c', x = .stack j' c')
  finished : p < w.promCount → (∀ j c pc d, Frame.wait pc p d ∉ w.stack j c) → Finished p ph w

/-- What `Synced` asks of a move: no deadline passes, a wait on `p` that was woken is not cancelled, and when it
ends with what `p` holds, or finds `p` ready before it blocks, the other threads are done with `p`. -/
structure Unhurried (p : PromId) (w₀ : World V) (i : ThreadId) (es : List (Event V)) (w' : World V) : Prop where
  noQuit : NoQuit es
  oneTimed : OneTimed w₀
  alone : AloneWait p w₀
  inTime : ∀ c, .expired i c p ∉ es
  prompt : ∀ j d b o k, .waitDone j p d b o ∈ es → w₀.cpu i ≠ .wait .block p d :: k
  unmarked : ∀ j d b o pc k, .waitDone j p d b o ∈ es →
    w₀.cpu i = .wait .resumed p d :: k ∨ w₀.cpu i = .yield :: .wait pc p d :: k → w₀.currentCanceled i = false
  released : ∀ j d b o pc k, .waitDone j p d b o ∈ es → w₀.cpu i = .wait pc p d :: k → pc = .check ∨ pc = .finish →
    (w₀.prom p).ready = true → ∀ j c, j ≠ i → ∀ f ∈ w₀.stack j c, ¬ f.refers p
  told : ∀ d k, w₀.cpu i = .wait .ready p d :: k → w'.stack i (w₀.cur i) ≠ w₀.cpu i → (w₀.prom p).ready = true →
    ¬ Signalled .start w₀ p

/-- A wait that is past its locks is on top of its stack. -/
theorem Nested.top_of_past {k : List (Frame V)} {pc : WaitPc} {d : Int} (h : Nested k) (hf : Frame.wait pc p d ∈ k)
    (hc : pc ≠ .check) (hr : pc ≠ .ready) : ∃ l, k = .wait pc p d :: l := by
  obtain ⟨l, rfl | rfl, -⟩ := h.mem_top hf (by simp [Frame.calls]) (by simp)
  · exact ⟨l, rfl⟩
  · exact absurd h (Nested.not_above_past hc hr)

/-- Who has to be woken is where it blocks, or past it. -/
theorem Unserved.past {j : ThreadId} {c : CtxId} {pc : WaitPc} {d : Int} (hu : Unserved w p j c)
    (h : Orderly ph w i)
    (hf : Frame.wait pc p d ∈ w.stack j c) : pc = .block ∨ (pc = .resumed ∧ (w.thr j).BlockedOn p c) := by
  rcases hu with hb | ⟨d', k, hk⟩
  · obtain ⟨ph', R, B, -, hok⟩ := h.placedAt j
    obtain ⟨-, d', k, hk⟩ := hok.blockedOn_stack hb
    exact .inr ⟨((h.nested j c).wait_unique hf (by rw [hk]; exact List.mem_cons_self)).1, hb⟩
  · exact .inl ((h.nested j c).wait_unique hf (by rw [hk]; exact List.mem_cons_self)).1

section Synced

theorem Alloc.none_ahead (h : Alloc ph w) (hp : w.promCount ≤ p) (x : Place) : ahead p ph w x = 0 := by
  by_contra hx
  refine Nat.not_lt.2 hp (h.lt_of_heldBy (fun f hf => ?_) hx)
  cases f with
  | task t => exact (show t.body = .rtask p by simpa [Frame.toStore, settles] using hf)
  | set pc q o b => cases pc <;> first | cases hf | exact (show q = p by simpa [Frame.toStore] using hf)
  | _ => cases hf

/-- What stores into `p` is there before the store, so that `p` is not ready. -/
theorem Move.store_first (hm : Move w₀ i ph w ph' w' es) (h : Synced p ph w i) {o : Outcome V}
    (ho : .stored p o ∈ es) :
    (w.prom p).ready = false ∧ p < w.promCount ∧ ∀ x, signals p ph w x = 0 := by
  obtain ⟨x, hx⟩ := (hm.ahead_stored ho h.sole).1
  have hr : (w.prom p).ready = false := by
    by_contra hr
    exact hx (h.settled (by simpa using hr) x)
  refine ⟨hr, ?_, fun y => ?_⟩
  · by_contra hlt
    exact hx (h.alloc.none_ahead (Nat.not_lt.1 hlt) x)
  · by_contra hy
    rw [(h.signalled y hy).2] at hr
    cases hr

theorem Synced.lt_of_ready (h : Synced p ph w i) (hr : (w.prom p).ready = true) : p < w.promCount := by
  by_contra hlt
  rw [(h.fresh (Nat.not_lt.1 hlt)).1] at hr
  cases hr

/-- When a wait on `p` ends, nothing is left. -/
theorem Move.ended (hm : Move w₀ i ph w ph' w' es) (hu : Unhurried p w₀ i es w') (h : Synced p ph w i)
    {j : ThreadId} {d : Int} {b : Bool} {o : Outcome V} (hd : .waitDone j p d b o ∈ es) : Finished p ph w := by
  obtain ⟨⟨t, -, rfl⟩, rfl, hends⟩ := hm.waitEnds hd
  have hmain : ∀ pc k, (w₀.setNow t).cpu j = .wait pc p d :: k → pc = .check ∨ pc = .finish →
      ((w₀.setNow t).prom p).ready = true → Finished p ph (w₀.setNow t) := by
    intro pc k hcpu hpc hr
    have hown := h.toShaped.none_own hcpu (h.settled hr)
    have hothers := hu.released j d b o pc k hd hcpu hpc hr
    have hf : Frame.wait pc p d ∈ (w₀.setNow t).stack j ((w₀.setNow t).cur j) := by
      rw [stack_cur, hcpu]
      exact List.mem_cons_self
    refine ⟨h.settled hr, fun x => ?_, fun j' c' f hf' hproc href => ?_⟩
    · by_contra hx
      cases x with
      | queue j' =>
        rcases h.reached j _ pc d _ hf hx (by simp [Place.inside]) with rfl | hun | ⟨-, j'', c', e⟩
        · rcases hpc with hpc | hpc <;> cases hpc
        · rcases hun.past h.toOrderly hf with rfl | ⟨rfl, -⟩ <;> rcases hpc with hpc | hpc <;> cases hpc
        · cases e
      | hand =>
        cases ph with
        | hand t' =>
          obtain ⟨pc', tm, k', hcpu', -⟩ := h.tasks.inHand t' rfl
          rw [hcpu] at hcpu'
          cases hcpu'
        | _ => exact absurd rfl hx
      | stack j' c' =>
        obtain ⟨f, hf', hs⟩ := List.countP_pos_iff.1 (Nat.pos_of_ne_zero hx)
        obtain ⟨pc', o', b', rfl, hpc'⟩ := Frame.hasStored_iff.1 hs
        by_cases hj : j' = j
        · subst hj
          exact (hown c').1 pc' o' b' hpc' hf'
        · exact hothers j' c' hj _ hf' rfl
    · by_cases hj : j' = j
      · subst hj
        exact (hown c').2 f hf' hproc href
      · exact hothers j' c' hj f hf' href
  generalize hk : (w₀.setNow t).cpu j = k at hends
  cases hends with
  | error hpc he => exact hmain _ _ hk hpc (by simp [Promise.ready, he])
  | value hpc _ hv => exact hmain _ _ hk hpc (by simp [Promise.ready, hv])
  | none he hv =>
    have hr := h.awake j _ .finish d _ ((stack_cur _ j).trans hk) (.inl rfl)
    simp [Promise.ready, he, hv] at hr
  | late => exact absurd hk (hu.prompt _ _ _ _ _ hd)
  | cancel hc =>
    have hmark : w₀.currentCanceled j = false := hu.unmarked _ _ _ _ .check _ hd (.inl hk)
    have hc : w₀.currentCanceled j = true := hc
    rw [hmark] at hc
    cases hc
  | cancelYield hc =>
    have hmark : w₀.currentCanceled j = false := hu.unmarked _ _ _ _ _ _ hd (.inr hk)
    have hc : w₀.currentCanceled j = true := hc
    rw [hmark] at hc
    cases hc

theorem Move.sync_fresh (hm : Move w₀ i ph w ph' w' es) (hu : Unhurried p w₀ i es w') (h : Synced p ph w i)
    (hp : w'.promCount ≤ p) : (w'.prom p).ready = false ∧ (w'.prom p).blockedThread = none := by
  have hle := Nat.le_trans hm.globals.2 hp
  obtain ⟨hr, hb⟩ := h.fresh hle
  refine ⟨?_, ?_⟩
  · by_contra hr'
    rcases hm.ready_from hu.noQuit hr (by simpa using hr') with ⟨o, b, k, -, hes⟩ | ⟨c, hc⟩
    · have ho : .stored p o ∈ es := by
        rw [hes]
        exact List.mem_singleton_self _
      exact Nat.not_lt.2 hle (hm.store_first h ho).2.1
    · exact hu.inTime c hc
  · rcases hm.blockedThread_cases hu.noQuit p with e | ⟨-, e⟩ | ⟨d, k, -, hcpu, -⟩
    · exact e.trans hb
    · exact e
    · refine absurd ?_ (Nat.not_lt.2 hle)
      exact h.alloc.frames i (w.cur i) p (.wait .check p d) (by rw [stack_cur, hcpu]; exact List.mem_cons_self) rfl

theorem Move.sync_place (hm : Move w₀ i ph w ph' w' es) (hp : w.shared p = false) (h : Synced p ph w i)
    {j j' : ThreadId}
    {c c' : CtxId} {f f' : Frame V} (hf : f ∈ w'.stack j c) (hf' : f' ∈ w'.stack j' c') (hs : f.syncs p) (hs' : f'.syncs p) :
    (j, c) = (j', c') := by
  have hnew : ∀ {j c f}, f ∈ w.stack j c → f.syncs p → p ≠ w.promCount := by
    intro j c f hf hs
    exact Nat.ne_of_lt (h.alloc.frames j c p f hf hs.refers)
  rcases hm.syncs_from h.sane.valid hp hf hs with ⟨g, hg, hgs⟩ | ⟨rfl, rfl, e⟩ <;>
    rcases hm.syncs_from h.sane.valid hp hf' hs' with ⟨g', hg', hgs'⟩ | ⟨rfl, rfl, e'⟩
  · exact h.place j c j' c' g g' hg hg' hgs hgs'
  · exact absurd e' (hnew hg hgs)
  · exact absurd e (hnew hg' hgs')
  · rfl

theorem Move.sync_settled (hm : Move w₀ i ph w ph' w' es) (hu : Unhurried p w₀ i es w') (hp : w.shared p = false)
    (h : Synced p ph w i) (hr : (w'.prom p).ready = true) (x : Place) : ahead p ph' w' x = 0 := by
  by_cases hr₀ : (w.prom p).ready = true
  · exact hm.ahead_none hu.noQuit h.sane.valid (by rw [← stack_cur]; exact h.nested _ _) hp (h.lt_of_ready hr₀)
      (h.settled hr₀) x
  · rcases hm.ready_from hu.noQuit (by simpa using hr₀) hr with ⟨o, b, k, -, hes⟩ | ⟨c, hc⟩
    · exact (hm.ahead_stored (o := o) (by rw [hes]; exact List.mem_singleton_self _) h.sole).2 x
    · exact absurd hc (hu.inTime c)

/-- As long as something is going to wake the caller, `p` stays ready. -/
theorem Move.sync_signalled (hm : Move w₀ i ph w ph' w' es) (hu : Unhurried p w₀ i es w') (h : Synced p ph w i)
    {x : Place} (hx : signals p ph' w' x ≠ 0) : p < w'.promCount ∧ (w'.prom p).ready = true := by
  by_cases hst : ∃ o, .stored p o ∈ es
  · obtain ⟨o, ho⟩ := hst
    refine ⟨Nat.lt_of_lt_of_le (hm.store_first h ho).2.1 hm.globals.2, ?_⟩
    obtain ⟨-, -, -, -, hval, herr⟩ := hm.stored ho
    simp only [Promise.ready]
    cases o with
    | value v => simp [(hval v rfl).2]
    | error e => simp [(herr e rfl).1]
  · obtain ⟨y, hy⟩ : ∃ y, signals p ph w y ≠ 0 := by
      by_contra hno
      exact hx (hm.signals_none hu.noQuit h.sane.valid hu.inTime (fun o ho => hst ⟨o, ho⟩)
        (fun y => by_contra fun hy => hno ⟨y, hy⟩) x)
    obtain ⟨hlt, hr⟩ := h.signalled y hy
    refine ⟨Nat.lt_of_lt_of_le hlt hm.globals.2, ?_⟩
    rcases hm.ready_kept hu.noQuit hlt hr with hr | ⟨d, k, e, -, -, -, hes⟩
    · exact hr
    · have hd : .waitDone i p d true (.error e) ∈ es := by
        rw [hes]
        exact List.mem_singleton_self _
      exact absurd ((hm.ended hu h hd).signals y) hy

/-- As long as the wait on `p` goes on, `p` stays ready. -/
theorem Move.sync_ready (hm : Move w₀ i ph w ph' w' es) (hu : Unhurried p w₀ i es w') (h : Synced p ph w i)
    {j : ThreadId} {c : CtxId} {pc pc' : WaitPc} {d : Int} {k : List (Frame V)} (hold : w.stack j c = .wait pc' p d :: k)
    (hk : w'.stack j c = .wait pc p d :: k) (hr : (w.prom p).ready = true) : (w'.prom p).ready = true := by
  rcases hm.ready_kept hu.noQuit (h.lt_of_ready hr) hr with hr | ⟨d', k', e, -, hcpu, hst, -⟩
  · exact hr
  · -- the wait that ends is the only one
    obtain ⟨rfl, rfl⟩ := Prod.mk.inj (h.place j c i (w.cur i) (.wait pc' p d) (.wait .finish p d')
      (by rw [hold]; exact List.mem_cons_self) (by rw [stack_cur, hcpu]; exact List.mem_cons_self) rfl rfl)
    have hn := h.nested j (w.cur j)
    rw [stack_cur, hcpu] at hn
    refine (hn.calls (by simp) (.wait pc p d) ?_).elim
    rw [← hst, hk]
    exact List.mem_cons_self

theorem Move.sync_awake (hm : Move w₀ i ph w ph' w' es) (hu : Unhurried p w₀ i es w') (h : Synced p ph w i)
    {j : ThreadId} {c : CtxId} {pc : WaitPc} {d : Int} {k : List (Frame V)} (hk : w'.stack j c = .wait pc p d :: k)
    (hpc : pc = .finish ∨ (pc = .resumed ∧ ¬ (w'.thr j).BlockedOn p c)) : (w'.prom p).ready = true := by
  rcases hm.awake_from hu.noQuit hu.oneTimed hu.inTime h.toOrderly hk hpc with hr | ⟨pc', hold, hpc'⟩ | ⟨hold, hsig⟩
  · exact hr
  · exact hm.sync_ready hu h hold hk (h.awake j c pc' d k hold hpc')
  · obtain ⟨x, hx⟩ := signalled_iff.1 hsig
    exact hm.sync_ready hu h hold hk (h.signalled x hx).2

theorem Move.sync_unread (hm : Move w₀ i ph w ph' w' es) (hu : Unhurried p w₀ i es w') (hp : w.shared p = false)
    (h : Synced p ph w i) {j : ThreadId} {c : CtxId} {d : Int} (hf : Frame.wait .check p d ∈ w'.stack j c) :
    (w'.prom p).blockedThread = none := by
  rcases hm.blockedThread_cases hu.noQuit p with e | ⟨-, e⟩ | ⟨d', k, -, -, hcpu, -⟩
  · rw [e]
    rcases hm.wait_comes hu.noQuit h.sane h.nested (hm.nested h.sane.valid h.nested) hf with
      hf | ⟨-, -, -, -, k, pc, -, -, hadv⟩ | ⟨-, -, -, hsh | ⟨hnew, -⟩⟩
    · exact h.unread j c d hf
    · cases hadv
    · rw [hp] at hsh
      cases hsh
    · exact (h.fresh (Nat.le_of_eq hnew.symm)).2
  · exact e
  · -- the caller is past its check
    have hf' : Frame.wait .ready p d' ∈ w'.stack i (w'.cur i) := by
      rw [stack_cur, hcpu]
      exact List.mem_cons_self
    obtain ⟨rfl, rfl⟩ := Prod.mk.inj (hm.sync_place hp h hf hf' rfl rfl)
    cases ((hm.nested h.sane.valid h.nested _ _).wait_unique hf hf').1

/-- `m_blocked_thread` is not written any more once `p` is ready. -/
theorem Move.sync_blockedThread (hm : Move w₀ i ph w ph' w' es) (hq : NoQuit es) (h : Synced p ph w i)
    (hr : (w.prom p).ready = true) : (w'.prom p).blockedThread = (w.prom p).blockedThread := by
  rcases hm.blockedThread_cases hq p with e | ⟨e, -⟩ | ⟨d, k, -, -, -, he, hv, -⟩
  · exact e
  · exact absurd e (Nat.ne_of_lt (h.lt_of_ready hr))
  · simp [Promise.ready, he, hv] at hr

theorem Move.sync_posting (hm : Move w₀ i ph w ph' w' es) (hu : Unhurried p w₀ i es w') (h : Synced p ph w i)
    {j : ThreadId} {c : CtxId} {t : ThreadId} {o : Outcome V} {b : Bool} (hf : Frame.set (.post t) p o b ∈ w'.stack j c) :
    (w'.prom p).blockedThread = some t := by
  -- a call that has stored into `p` was there
  have hkeep : ∀ {j' c' pc o' b'}, Frame.set pc p o' b' ∈ w.stack j' c' → pc ≠ .store →
      (w'.prom p).blockedThread = (w.prom p).blockedThread := by
    intro j' c' pc o' b' hf hpc
    have hx : signals p ph w (.stack j' c') ≠ 0 := signals_frame hf (Frame.hasStored_iff.2 ⟨pc, o', b', rfl, hpc⟩)
    exact hm.sync_blockedThread hu.noQuit h (h.signalled _ hx).2
  rcases hm.frame_from h.sane.valid hf with hf | hf | ⟨rfl, rfl, hnf⟩
  · exact (hkeep hf (by simp)).trans (h.posting j c t o b hf)
  · cases hf
  · cases hnf with
    | @set pc _ _ _ _ k hcpu himp hread =>
      have hf' : Frame.set pc p o b ∈ w.stack j (w.cur j) := by
        rw [stack_cur, hcpu]
        exact List.mem_cons_self
      by_cases hpc : pc = .store
      · -- the store does not go that far
        obtain ⟨-, -, b', k', hcpu', hst⟩ := hm.stored_frame (himp hpc)
        rw [hst, if_pos ⟨rfl, rfl⟩] at hf
        have hn := h.nested j (w.cur j)
        rw [stack_cur, hcpu'] at hn
        exact ((hn.replace (g := .set .notify p o b') fun _ => Frame.standsOn.set).calls (by simp) _
          ((List.mem_cons.1 hf).resolve_left (by simp))).elim
      · exact (hkeep hf' hpc).trans (hread t rfl)

/-- A call that posts a `notify` of `p` posts it to the thread of the caller, which is past its locked check. -/
theorem Synced.posts_to_caller (h : Synced p ph w i) {j j' : ThreadId} {c : CtxId} {pc : WaitPc} {d : Int}
    {o : Outcome V}
    {b : Bool} {k : List (Frame V)} (hf : Frame.wait pc p d ∈ w.stack j c) (hcpu : w.cpu i = .set (.post j') p o b :: k) :
    j' = j ∧ pc ≠ .check := by
  have hb := h.posting i (w.cur i) j' o b (by rw [stack_cur, hcpu]; exact List.mem_cons_self)
  have hpc : pc ≠ .check := by
    rintro rfl
    rw [h.unread j c d hf] at hb
    cases hb
  refine ⟨?_, hpc⟩
  rw [h.named j c pc d hf hpc] at hb
  exact (Option.some.inj hb).symm

/-- Who has to be woken still has to be, if what is going to wake it has not come to its thread. -/
theorem Move.sync_unserved (hm : Move w₀ i ph w ph' w' es) (hu : Unhurried p w₀ i es w') (h : Synced p ph w i)
    {j : ThreadId} {c : CtxId} {pc : WaitPc} {d : Int} (hold : Frame.wait pc p d ∈ w.stack j c)
    (hf : Frame.wait pc p d ∈ w'.stack j c) (hun : Unserved w p j c) {y : Place} (hy : signals p ph w y ≠ 0)
    (hin : ¬ y.inside i j) : Unserved w' p j c := by
  have hn' := hm.nested h.sane.valid h.nested j c
  rcases hun.past h.toOrderly hold with rfl | ⟨rfl, hb⟩
  · obtain ⟨l, hk⟩ := hn'.top_of_past hf (by simp) (by simp)
    exact .inr ⟨d, l, hk⟩
  · refine .inl (by_contra fun hnb => ?_)
    obtain ⟨l, hk⟩ := hn'.top_of_past hf (by simp) (by simp)
    obtain ⟨rfl, ⟨t, o, b, l', hcpu⟩ | ⟨t, rfl, ht⟩⟩ :=
      hm.woken hu.noQuit hu.oneTimed hu.inTime h.toOrderly hk hb hnb
    · have hx : signals p ph w (.stack j (w.cur j)) ≠ 0 := by
        rw [signals_running hcpu (by simp)]
        exact Nat.succ_ne_zero _
      obtain rfl := h.single.2 _ _ hx hy
      exact hin rfl
    · have hx : signals p (.hand t) w .hand ≠ 0 := by simp [signals, heldBy, notifies, ht]
      obtain rfl := h.single.2 _ _ hx hy
      exact hin rfl

/-- While the caller stays where it is in its wait, what is going to wake it reaches it. -/
theorem Move.reached_kept (hm : Move w₀ i ph w ph' w' es) (hu : Unhurried p w₀ i es w') (h : Synced p ph w i)
    {j : ThreadId} {c : CtxId} {pc : WaitPc} {d : Int} {x : Place} (hold : Frame.wait pc p d ∈ w.stack j c)
    (hf : Frame.wait pc p d ∈ w'.stack j c) (hx : signals p ph' w' x ≠ 0) (hin : ¬ x.inside i j) :
    pc = .ready ∨ Unserved w' p j c ∨ (pc = .check ∧ ∃ j' c', x = .stack j' c') := by
  rcases hm.signal_from hu.noQuit h.sane.valid hu.inTime hx with hx₀ | ⟨rfl, o, ho⟩ | ⟨rfl, hx₀⟩ |
    ⟨j', o, b, k, rfl, hj, hcpu⟩
  · rcases h.reached j c pc d x hold hx₀ hin with hr | hun | hc
    · exact .inl hr
    · exact .inr (.inl (hm.sync_unserved hu h hold hf hun hx₀ hin))
    · exact .inr (.inr hc)
  · -- `p` is stored into, so nobody has been woken
    have hr := (hm.store_first h ho).1
    have hasleep : ∀ {l}, w.stack j c = .wait pc p d :: l → pc = .finish ∨
        (pc = .resumed ∧ ¬ (w.thr j).BlockedOn p c) →
        False := by
      intro l hk hpc
      rw [h.awake j c pc d l hk hpc] at hr
      cases hr
    cases pc with
    | check => exact .inr (.inr ⟨rfl, _, _, rfl⟩)
    | ready => exact .inl rfl
    | block =>
      obtain ⟨l, hk⟩ := (hm.nested h.sane.valid h.nested j c).top_of_past hf (by simp) (by simp)
      exact .inr (.inl (.inr ⟨d, l, hk⟩))
    | resumed =>
      obtain ⟨l, hk⟩ := (h.nested j c).top_of_past hold (by simp) (by simp)
      refine .inr (.inl (.inl ?_))
      by_contra hnb
      have hj : j ≠ i := fun e => hin (by rw [e]; rfl)
      exact hasleep hk (.inr ⟨rfl, fun hb => hnb ((hm.foreign hj).blockedOn.2 hb)⟩)
    | finish =>
      obtain ⟨l, hk⟩ := (h.nested j c).top_of_past hold (by simp) (by simp)
      exact (hasleep hk (.inl rfl)).elim
  · rcases h.reached j c pc d (.queue i) hold hx₀ id with hr | hun | ⟨-, j', c', e⟩
    · exact .inl hr
    · exact .inr (.inl (hm.sync_unserved hu h hold hf hun hx₀ id))
    · cases e
  · -- it is posted to the thread of the caller
    obtain ⟨rfl, hpc⟩ := h.posts_to_caller hold hcpu
    have hx₀ : signals p ph w (.stack i (w.cur i)) ≠ 0 := by
      rw [signals_running hcpu (by simp)]
      exact Nat.succ_ne_zero _
    have hin₀ : ¬ (Place.stack i (w.cur i)).inside i j' := fun e => hj (Eq.symm e)
    rcases h.reached j' c pc d _ hold hx₀ hin₀ with hr | hun | ⟨rfl, -⟩
    · exact .inl hr
    · exact .inr (.inl (hm.sync_unserved hu h hold hf hun hx₀ hin₀))
    · exact absurd rfl hpc

/-- What is going to wake the caller reaches it where it has gone on in its wait. -/
theorem Move.reached_advanced (hm : Move w₀ i ph w ph' w' es) (hu : Unhurried p w₀ i es w') (h : Synced p ph w i)
    {pc pc' : WaitPc} {d : Int} {k : List (Frame V)} {x : Place} (hs : AtStart w₀ w) (hph : ph = .start)
    (hcpu : w.cpu i = .wait pc' p d :: k) (hk : w'.stack i (w.cur i) = .wait pc p d :: k)
    (hadv : Advances w w' i p d k pc' pc) (hx : signals p ph' w' x ≠ 0) (hin : ¬ x.inside i i) :
    pc = .ready ∨ Unserved w' p i (w.cur i) ∨ (pc = .check ∧ ∃ j' c', x = .stack j' c') := by
  subst hph
  obtain ⟨R, B, hpl⟩ := h.placed
  cases hadv with
  | enqueues => exact .inl rfl
  | notReady => exact .inr (.inl (.inr ⟨d, k, hk⟩))
  | isReady hr =>
    -- nothing was on the way
    obtain ⟨t, -, rfl⟩ := hs
    refine (hu.told d k hcpu ?_ hr ?_).elim
    · show w'.stack i ((w₀.setNow t).cur i) ≠ (w₀.setNow t).cpu i
      rw [hk, hcpu]
      simp
    · by_contra hno
      have hzero : ∀ y, signals p .start (w₀.setNow t) y = 0 := fun y =>
        by_contra fun hy => hno (signalled_iff.2 ⟨y, hy⟩)
      refine hx (hm.signals_none hu.noQuit h.sane.valid hu.inTime (fun o ho => ?_) hzero x)
      rw [(hm.store_first h ho).1] at hr
      cases hr
  | blocks he =>
    have hpl' := hpl.waitOn (d := d) (k := k) h.sane.valid (hu.oneTimed.atStart hs) hcpu
    refine .inr (.inl (.inl ?_))
    rw [he] at hk ⊢
    exact hpl'.2.stack_blockedOn (by simp) hk
  | resumes =>
    -- the running context is in no list
    have hf : Frame.wait .resumed p d ∈ w.stack i (w.cur i) := by
      rw [stack_cur, hcpu]
      exact List.mem_cons_self
    have hgone : ∀ {y}, signals p .start w y ≠ 0 → ¬ y.inside i i → False := by
      intro y hy hyin
      rcases h.reached i (w.cur i) .resumed d y hf hy hyin with e | hun | ⟨e, -⟩
      · cases e
      · rcases hun.past h.toOrderly hf with e | ⟨-, hb⟩
        · cases e
        · exact hpl.2.ne_cur (h.sane.valid i) (.inr (.inl (hpl.2.blockedOn_stack hb).1)) rfl
      · cases e
    rcases hm.signal_from hu.noQuit h.sane.valid hu.inTime hx with hx₀ | ⟨rfl, -⟩ | ⟨rfl, -⟩ | ⟨j', o, b, k', -, -, hcpu'⟩
    · exact (hgone hx₀ hin).elim
    · exact absurd rfl hin
    · exact absurd rfl hin
    · rw [hcpu] at hcpu'
      cases hcpu'

theorem Move.sync_reached (hm : Move w₀ i ph w ph' w' es) (hu : Unhurried p w₀ i es w') (hp : w.shared p = false)
    (h : Synced p ph w i) {j : ThreadId} {c : CtxId} {pc : WaitPc} {d : Int} {x : Place}
    (hf : Frame.wait pc p d ∈ w'.stack j c) (hx : signals p ph' w' x ≠ 0) (hin : ¬ x.inside i j) :
    pc = .ready ∨ Unserved w' p j c ∨ (pc = .check ∧ ∃ j' c', x = .stack j' c') := by
  rcases hm.wait_comes hu.noQuit h.sane h.nested (hm.nested h.sane.valid h.nested) hf with
    hold | ⟨rfl, rfl, hs, hph, k, pc', hcpu, hk, hadv⟩ | ⟨-, -, -, hsh | ⟨hnew, -⟩⟩
  · exact hm.reached_kept hu h hold hf hx hin
  · exact hm.reached_advanced hu h hs hph hcpu hk hadv hx hin
  · rw [hp] at hsh
    cases hsh
  · -- nothing is on the way to a promise that did not exist
    refine (hx (hm.signals_none hu.noQuit h.sane.valid hu.inTime (fun o ho => ?_) (fun y => ?_) x)).elim
    · exact absurd hnew (Nat.ne_of_lt (hm.store_first h ho).2.1)
    · by_contra hy
      exact absurd hnew (Nat.ne_of_lt (h.signalled y hy).1)

/-- Once nobody waits on `p` any more, nothing is left. -/
theorem Move.sync_over (hm : Move w₀ i ph w ph' w' es) (hu : Unhurried p w₀ i es w') (hp : w.shared p = false)
    (hp' : w'.shared p = false) (h : Synced p ph w i) (hlt : p < w'.promCount)
    (hno : ∀ j c pc d, Frame.wait pc p d ∉ w'.stack j c) : Finished p ph' w' := by
  by_cases hold : p < w.promCount
  · have hfin : Finished p ph w := by
      by_cases hw : ∃ j c pc d, Frame.wait pc p d ∈ w.stack j c
      · obtain ⟨j, c, pc, d, hf⟩ := hw
        rcases hm.wait_goes hu.noQuit h.sane h.nested hf with hf | ⟨-, -, ⟨-, b, o, hd⟩ | ⟨-, -, k, pc', -, hk, -⟩⟩
        · exact absurd hf (hno _ _ _ _)
        · exact hm.ended hu h hd
        · exact absurd (by rw [hk]; exact List.mem_cons_self) (hno j c pc' d)
      · exact h.finished hold (fun j c pc d hf => hw ⟨j, c, pc, d, hf⟩)
    exact hm.finished hu.noQuit h.sane (by rw [← stack_cur]; exact h.nested _ _) hp hold hu.inTime hfin
  · rcases (hm.promises hu.noQuit).2 with e | ⟨e, hnew⟩
    · exact absurd (e ▸ hlt) hold
    · have hlt' : p < w.promCount + 1 := e ▸ hlt
      obtain rfl : p = w.promCount := Nat.le_antisymm (Nat.le_of_lt_succ hlt') (Nat.not_lt.1 hold)
      rcases hnew with hsh | ⟨d, t, hcpu⟩
      · rw [hp'] at hsh
        cases hsh
      · refine absurd ?_ (hno i (w'.cur i) .check d)
        rw [stack_cur, hcpu]
        exact List.mem_cons_self

theorem Move.synced (hm : Move w₀ i ph w ph' w' es) (hu : Unhurried p w₀ i es w') (hp : w.shared p = false)
    (hp' : w'.shared p = false) (h : Synced p ph w i) : Synced p ph' w' i where
  toEnrolled := hm.enrolled hu.noQuit hu.oneTimed hu.alone h.toEnrolled
  fresh := hm.sync_fresh hu h
  place := fun _ _ _ _ _ _ hf hf' hs hs' => hm.sync_place hp h hf hf' hs hs'
  sole := hm.ahead_sole hu.noQuit h.sane.valid (by rw [← stack_cur]; exact h.nested _ _) hp
    (fun e => h.alloc.none_ahead (Nat.le_of_eq e.symm)) h.sole
  single := hm.signals_sole hu.noQuit h.sane.valid hu.inTime (fun _ ho => (hm.store_first h ho).2.2) h.single
  settled := hm.sync_settled hu hp h
  signalled := fun _ hx => hm.sync_signalled hu h hx
  awake := fun _ _ _ _ _ hk hpc => hm.sync_awake hu h hk hpc
  unread := fun _ _ _ hf => hm.sync_unread hu hp h hf
  posting := fun _ _ _ _ _ hf => hm.sync_posting hu h hf
  reached := fun _ _ _ _ _ hf hx hin => hm.sync_reached hu hp h hf hx hin
  finished := hm.sync_over hu hp hp' h

end Synced

/-! ## Runs -/

/-- Nothing refers to the promise of a `sync` or to its task but the call itself. -/
structure LeftNothing (p : PromId) (w : World V) : Prop where
  queues : ∀ j, ∀ t ∈ (w.thr j).tasks, t.body ≠ .rtask p ∧ t.body ≠ .notify p
  frames : ∀ j c, ∀ f ∈ w.stack j c, f.refers p → ∃ t, f = .sync p t

theorem Finished.leftNothing (h : Finished p ph w) (hno : ∀ j c pc d, Frame.wait pc p d ∉ w.stack j c) :
    LeftNothing p w where
  queues := by
    intro j t ht
    refine ⟨fun hb => ?_, fun hb => ?_⟩
    · exact Nat.ne_of_gt (List.countP_pos_iff.2 ⟨t, ht, by simp [settles, hb]⟩) (h.ahead (.queue j))
    · exact Nat.ne_of_gt (List.countP_pos_iff.2 ⟨t, ht, by simp [notifies, hb]⟩) (h.signals (.queue j))
  frames := by
    intro j c f hf href
    cases f with
    | sync q t => exact ⟨t, by rw [show q = p from href]⟩
    | wait pc q d =>
      obtain rfl : q = p := href
      exact absurd hf (hno j c pc d)
    | set pc q o b =>
      obtain rfl : q = p := href
      by_cases hpc : pc = .store
      · subst hpc
        exact absurd (h.ahead (.stack j c)) (ahead_frame hf (by simp [Frame.toStore]))
      · exact absurd (h.signals (.stack j c)) (signals_frame hf (Frame.hasStored_iff.2 ⟨pc, o, b, rfl, hpc⟩))
    | task t =>
      have hb : t.body = .rtask p := href
      exact absurd (h.ahead (.stack j c)) (ahead_frame hf (by simp [Frame.toStore, settles, hb]))
    | processTasks pc tm => exact absurd href (h.released j c _ hf ⟨pc, tm, rfl⟩)
    | _ => exact href.elim

/-- A call of `sync` whose promise nobody waits on any more is done with it. -/
theorem Synced.returns (h : Synced p ph w i) {t : Task} {k : List (Frame V)} (hcpu : w.cpu i = .sync p t :: k) :
    LeftNothing p w := by
  have hf : Frame.sync p t ∈ w.stack i (w.cur i) := by
    rw [stack_cur, hcpu]
    exact List.mem_cons_self
  have hno : ∀ j c pc d, Frame.wait pc p d ∉ w.stack j c := by
    intro j c pc d hw
    obtain ⟨rfl, rfl⟩ := Prod.mk.inj (h.place _ _ _ _ _ _ hw hf rfl rfl)
    have hn := h.nested j (w.cur j)
    rw [stack_cur, hcpu] at hn hw
    exact hn.calls (by simp) _ ((List.mem_cons.1 hw).resolve_left (by simp))
  exact (h.finished (h.alloc.frames _ _ p _ hf rfl) hno).leftNothing hno

/-- Steps of a run in which no `sync` is disturbed or outruns the target thread: no deadline of its wait passes, it
is not resumed cancelled, other threads are done with its promise and its task when its wait ends with what the
promise holds, and nothing is on the way to it when it finds the promise ready before it blocks. -/
structure SyncsUnhurried (w : World V) (a : Action V) (e : List (Event V)) : Prop where
  noQuit : NoQuit e
  oneTimed : OneTimed w
  inTime : ∀ i c p, w.shared p = false → .expired i c p ∉ e
  prompt : ∀ i t₁ t₂ t₃ p d k, a = .run i t₁ t₂ t₃ → w.shared p = false → w.cpu i = .wait .block p d :: k → t₁ ≤ d
  unmarked : ∀ i t₁ t₂ t₃ p d pc k, a = .run i t₁ t₂ t₃ → w.shared p = false →
    w.cpu i = .wait .resumed p d :: k ∨ w.cpu i = .yield :: .wait pc p d :: k → w.currentCanceled i = false
  released : ∀ i t₁ t₂ t₃ p d pc k, a = .run i t₁ t₂ t₃ → w.shared p = false → w.cpu i = .wait pc p d :: k →
    pc = .check ∨ pc = .finish → (w.prom p).ready = true → ∀ j c, j ≠ i → ∀ f ∈ w.stack j c, ¬ f.refers p
  told : ∀ p d k, (∀ t, a ≠ .tick t) → w.shared p = false → w.cpu a.thread = .wait .ready p d :: k →
    (w.prom p).ready = true → ¬ Signalled .start w p

theorem AloneWait.of_place (h : Synced p ph w i) : AloneWait p w := by
  intro j c j' c' d d' hw hw'
  obtain ⟨pc, hf⟩ := mem_of_waitOf hw
  obtain ⟨pc', hf'⟩ := mem_of_waitOf hw'
  exact h.place j c j' c' _ _ hf hf' rfl rfl

variable {e : List (Event V)}

theorem SyncsUnhurried.unhurried (hok : SyncsUnhurried w a e) (hs : w.step a = some (w', e))
    (hp : w.shared p = false)
    (halone : AloneWait p w) (ha : ∀ t, a ≠ .tick t) {e' : List (Event V)} (he : ∀ x ∈ e', x ∈ e) (w₂ : World V) :
    Unhurried p w a.thread e' w₂ where
  noQuit := fun j hj => hok.noQuit j (he _ hj)
  oneTimed := hok.oneTimed
  alone := halone
  inTime := fun c hc => hok.inTime _ c p hp (he _ hc)
  prompt := by
    intro j d b o k hd hcpu
    obtain ⟨t₁, t₂, t₃, t, rfl, -⟩ := step_waitEnds hs (he _ hd)
    obtain ⟨c, q, hx⟩ := step_late hs hcpu (hok.prompt _ _ _ _ _ _ _ rfl hp hcpu) _ (he _ hd)
    cases hx
  unmarked := by
    intro j d b o pc k hd hcpu
    obtain ⟨t₁, t₂, t₃, t, rfl, -⟩ := step_waitEnds hs (he _ hd)
    exact hok.unmarked _ _ _ _ p d pc k rfl hp hcpu
  released := by
    intro j d b o pc k hd hcpu hpc hr
    obtain ⟨t₁, t₂, t₃, t, rfl, -⟩ := step_waitEnds hs (he _ hd)
    exact hok.released _ _ _ _ p d pc k rfl hp hcpu hpc hr
  told := fun d k hcpu _ hr => hok.told p d k ha hp hcpu hr

theorem Enrolled.start (h : Enrolled p .out w i) (j : ThreadId) : Enrolled p .start w j :=
  ⟨h.toHandshake.start j, h.alloc.phase, h.named⟩

theorem Finished.start (h : Finished p .out w) : Finished p .start w :=
  ⟨fun x => (heldBy_out _ _ w x).trans (h.ahead x), fun x => (heldBy_out _ _ w x).trans (h.signals x), h.released⟩

theorem Synced.start (h : Synced p .out w i) (j : ThreadId) : Synced p .start w j where
  toEnrolled := h.toEnrolled.start j
  fresh := h.fresh
  place := h.place
  sole := h.sole.mono (fun x => Nat.le_of_eq (heldBy_out _ _ w x))
  single := h.single.mono (fun x => Nat.le_of_eq (heldBy_out _ _ w x))
  settled := fun hr x => (heldBy_out _ _ w x).trans (h.settled hr x)
  signalled := fun x hx => h.signalled x (by rwa [signals, ← heldBy_out])
  awake := h.awake
  unread := h.unread
  posting := h.posting
  reached := by
    intro j' c pc d x hf hx hin
    cases x with
    | hand => exact absurd rfl hx
    | queue j'' => exact h.reached j' c pc d (.queue j'') hf hx hin
    | stack j'' c'' => exact h.reached j' c pc d (.stack j'' c'') hf hx hin
  finished := fun hlt hno => (h.finished hlt hno).start

/-- What holds between steps. -/
structure Syncs (w : World V) : Prop where
  frames : SyncFrames w
  synced : ∀ p i, w.shared p = false → Synced p .start w i

theorem Syncs.sane (h : Syncs w) : Sane w := (h.synced w.promCount 0 (by simp [shared])).sane

theorem Syncs.step (h : Syncs w) (hs : w.step a = some (w', e)) (hok : SyncsUnhurried w a e) : Syncs w' := by
  have hq : ∀ {e' : List (Event V)}, (∀ x ∈ e', x ∈ e) → NoQuit e' := fun he j hj => hok.noQuit j (he _ hj)
  refine ⟨((step_moves hs).inv (fun _ u => Sane u ∧ SyncFrames u) (fun _ _ _ _ _ hm he hI =>
    ⟨hm.sane hI.1, hm.syncFrames (hq he) hI.1.valid hI.2⟩) ⟨h.sane, h.frames⟩).2, fun p i hp' => ?_⟩
  -- the promise could not be named before either
  have hnamed : ∀ {ph ph' u u' e'}, Move w a.thread ph u ph' u' e' → (∀ x ∈ e', x ∈ e) → u'.shared p = false →
      u.shared p = false := by
    intro ph ph' u u' e' hm he hp'
    by_contra hp
    have hp : u.shared p = true := by simpa using hp
    rw [← hm.shared_kept (hq he) (shared_lt hp), hp'] at hp
    cases hp
  have hp : w.shared p = false := by
    have hback := (step_moves hs).inv (fun _ u => u.shared p = false → w.shared p = false)
      (fun _ _ _ _ _ hm he hI hu => hI (hnamed hm he hu)) id
    exact hback hp'
  have halone := AloneWait.of_place (h.synced p a.thread hp)
  by_cases ha : ∃ t, a = .tick t
  · -- the clock does nothing to the waits
    obtain ⟨t, rfl⟩ := ha
    simp only [World.step] at hs
    split at hs
    · next ht =>
      obtain ⟨rfl, rfl⟩ := Prod.mk.inj (Option.some.inj hs)
      have hquiet : ∀ {u' : World V}, u'.stack 0 (w.cur 0) = w.cpu 0 → Unhurried p w 0 [] u' := by
        intro u' hst
        exact ⟨by simp [NoQuit], hok.oneTimed, halone, by simp, by simp, by simp, by simp,
          fun d k _ hne => absurd hst hne⟩
      have hclock : Move w 0 .start w .start (w.setNow t) [] := .clock ht.1 ht.2
      have hgo : Move w 0 .start (w.setNow t) .out (w.setNow t) [] := .go
      have hst : (w.setNow t).stack 0 (w.cur 0) = w.cpu 0 := stack_cur w 0
      exact (hgo.synced (hquiet hst) hp hp' (hclock.synced (hquiet hst) hp hp' (h.synced p 0 hp))).start i
    · cases hs
  · have hend := (step_moves hs).inv (fun ph u => u.shared p = false → Synced p ph u a.thread)
      (fun _ _ _ u' _ hm he hI hu => hm.synced
        (hok.unhurried hs hp halone (fun t e => ha ⟨t, e⟩) he u') (hnamed hm he hu) hu (hI (hnamed hm he hu)))
      (fun hp => h.synced p _ hp)
    exact (hend hp').start i

theorem syncs_init : Syncs (init : World V) where
  frames := fun j c p t hf => by cases frames_init hf
  synced := fun p i _ =>
    { toEnrolled := enrolled_init p i
      fresh := fun _ => ⟨rfl, rfl⟩
      place := fun j c j' c' f f' hf _ hs => by
        rw [frames_init hf] at hs
        exact hs.elim
      sole := AtMostOne.zero (heldBy_init rfl)
      single := AtMostOne.zero (heldBy_init rfl)
      settled := fun hr => by cases hr
      signalled := fun x hx => absurd (heldBy_init rfl x) hx
      awake := fun j c pc d k hk => by
        have hf : Frame.wait pc p d ∈ (init : World V).stack j c := by rw [hk]; exact List.mem_cons_self
        cases frames_init hf
      unread := fun j c d hf => by cases frames_init hf
      posting := fun j c t o b hf => by cases frames_init hf
      reached := fun j c pc d x hf => by cases frames_init hf
      finished := fun hlt => absurd hlt (Nat.not_lt_zero _) }

/-- `sync` returns when its wait has. -/
theorem step_syncDone (hs : w.step a = some (w', e)) {t : Task} (hd : .syncDone i p t ∈ e) :
    ∃ k, w.cpu i = .sync p t :: k := by
  obtain ⟨ph₁, w₁, ph₂, w₂, e', hm, he⟩ := (step_moves hs).mem hd
  cases hm with
  | stackTop hst hl =>
    obtain ⟨t₀, -, rfl⟩ := hst
    have hk : (w.setNow t₀).cpu a.thread = w.cpu a.thread := rfl
    rw [hk] at hl
    generalize hcpu : w.cpu a.thread = k at hl
    cases hl with
    | syncDone =>
      obtain ⟨rfl, rfl, rfl⟩ : i = a.thread ∧ p = _ ∧ t = _ := by simpa using he
      exact ⟨_, hcpu⟩
    | raiseSwitched | raiseSleep =>
      obtain ⟨c, hx, -⟩ := raise_events he
      cases hx
    | raiseWait =>
      rcases List.mem_append.1 he with he | he
      · obtain ⟨c, hx, -⟩ := raise_events he
        cases hx
      · simp at he
    | raiseYield =>
      rcases List.mem_append.1 he with he | he
      · obtain ⟨c, hx, -⟩ := raise_events he
        cases hx
      · rcases unwind_events he with ⟨q, d, b, hx, -⟩ | ⟨q, hx⟩ <;> cases hx
    | _ => simp at he
  | drain _ hpc =>
    obtain ⟨dl, hx⟩ := drain_event hpc he
    cases hx
  | runTask _ hr =>
    obtain ⟨q, hx⟩ := runTask_event hr he
    cases hx
  | _ => simp at he

/-- The promise and the task of a `sync` are left alone when it returns or throws, in every run in which no `sync`
is disturbed or outruns the target thread: its task is in no queue, no `process_tasks` is between its `dequeue` and
the end of its `release`, and nothing is left to store into the promise or to notify it. -/
theorem sync_leaves_nothing (h : Run step (fun _ w a e => SyncsUnhurried w a e) init w es)
    (hs : w.step a = some (w', e))
    {t : Task} (hd : .syncDone i p t ∈ e) : t.body = .rtask p ∧ LeftNothing p w := by
  have hI : Syncs w := h.inv (fun _ w => Syncs w) syncs_init (fun _ _ _ _ _ hI hok hs => hI.step hs hok)
  obtain ⟨k, hcpu⟩ := step_syncDone hs hd
  obtain ⟨hb, -, hp⟩ := hI.frames i (w.cur i) p t (by rw [stack_cur, hcpu]; exact List.mem_cons_self)
  exact ⟨hb, (hI.synced p i hp).returns hcpu⟩

/-- A frame that refers to no promise. -/
def idle : Frame V → Bool
  | .user => true
  | .processTasks (.running _) _ => false
  | .processTasks (.release _) _ => false
  | .processTasks _ _ => true
  | _ => false

/-- The check of `SyncsUnhurried` on the threads below `N`. -/
def syncsCheck (N : Nat) (w : World V) (a : Action V) (e : List (Event V)) : Bool :=
  singleWaiterCheck N w && e.all (fun x => !(x matches .expired _ _ _)) &&
    (match w.cpu a.thread with
      | .wait .ready p _ :: _ => !(w.prom p).ready
      | _ => true) &&
    match a with
    | .run i t₁ _ _ =>
      match w.cpu i with
      | .wait .block _ d :: _ => decide (t₁ ≤ d)
      | .wait .resumed _ _ :: _ => !w.currentCanceled i
      | .yield :: .wait _ _ _ :: _ => !w.currentCanceled i
      | .wait _ p _ :: _ => !(w.prom p).ready || (List.range N).all fun j => j == i ||
          (List.range ((w.thr j).nctx + 1)).all fun c => (w.stack j c).all idle
      | _ => true
    | _ => true

theorem syncsCheck_sound {N : Nat} (hs : Small N w) (hq : NoQuit e) (h : syncsCheck N w a e = true) :
    SyncsUnhurried w a e := by
  simp only [syncsCheck, Bool.and_eq_true, List.all_eq_true] at h
  obtain ⟨⟨⟨hone, hexp⟩, htold⟩, ha⟩ := h
  refine ⟨hq, (singleWaiterCheck_sound hs hone).oneTimed, fun i c p _ hx => ?_, ?_, ?_, ?_, ?_⟩
  · simpa using hexp _ hx
  · rintro i t₁ t₂ t₃ p d k rfl - hcpu
    simpa [hcpu] using ha
  · rintro i t₁ t₂ t₃ p d pc k rfl - (hcpu | hcpu) <;> simpa [hcpu] using ha
  · rintro i t₁ t₂ t₃ p d pc k rfl - hcpu hpc hr j c hj f hf href
    obtain ⟨hj', hc⟩ := hs.bound (i := j) (c := c) (fun e => by rw [e] at hf; cases hf)
      (fun e => by rw [e] at hf; rw [List.mem_singleton.1 hf] at href; exact href)
    have hidle : idle f = true := by
      rcases hpc with rfl | rfl <;>
        simp only [hcpu, hr, Bool.not_true, Bool.false_or, List.all_eq_true, List.mem_range, Bool.or_eq_true, beq_iff_eq] at ha <;>
        exact (ha j hj').resolve_left hj c hc f hf
    cases f with
    | user => exact href
    | processTasks pc' tm => cases pc' <;> first | exact href | cases hidle
    | _ => cases hidle
  · intro p d k _ _ hcpu hr
    simp [hcpu, hr] at htold

/-- Thread 0 calls a functor on thread 1 and blocks. Thread 1 is done with the task before thread 0 goes on. -/
theorem sync_leaves_nothing_other_thread :
    ∃ (w w' : World Nat) (es e : List (Event Nat)) (a : Action Nat) (t : Task),
    (Run step (fun _ w a e => SyncsUnhurried w a e) init w es ∧ w.step a = some (w', e) ∧ .syncDone 0 0 t ∈ e ∧
      .waitDone 0 0 timePointMax true (.value 7) ∈ es) ∧ t.body = .rtask 0 ∧ LeftNothing 0 w := by
  obtain ⟨w, es, h, -, hf⟩ := run_of_small_exec (V := Nat) 2 (fun _ w a e => SyncsUnhurried w a e)
    (fun _ w a e => syncsCheck 2 w a e)
    (fun w es => (w.step (.run 0 0 0 0)).any fun r : World Nat × List (Event Nat) =>
      decide (.syncDone 0 0 ⟨1, timePointMin, 0, .rtask 0⟩ ∈ r.2 ∧ .waitDone 0 0 timePointMax true (.value 7) ∈ es))
    [.call 0 0 (.sync .plain 1 0 timePointMax), .run 0 0 0 0, .run 0 0 0 0, .run 0 0 0 0,
      .call 1 0 .exec, .run 1 0 0 0, .finish 1 (.value 7), .run 1 0 0 0, .run 1 0 0 0, .run 1 0 0 0, .run 1 0 0 0,
      .run 1 0 0 0,
      -- thread 0 runs the `notify` and switches back
      .run 0 0 0 0, .run 0 0 0 0, .run 0 0 0 0, .run 0 0 0 0, .run 0 0 0 0, .run 0 0 0 0, .run 0 0 0 0]
    (fun _ _ _ _ hs hq hb => syncsCheck_sound hs hq hb) (by decide)
  obtain ⟨⟨w', e⟩, hs, he⟩ := (Option.any_eq_true _ _).1 hf
  simp only [decide_eq_true_eq] at he
  exact ⟨w, w', es, e, _, _, ⟨h, hs, he.1, he.2⟩, sync_leaves_nothing h hs he.1⟩

/-- No deadline of a wait has passed. -/
def noneExpired (e : List (Event V)) : Bool := e.all fun x => !(x matches .expired _ _ _)

theorem noneExpired_sound (h : noneExpired e = true) (i : ThreadId) (c : CtxId) (p : PromId) :
    .expired i c p ∉ e :=
  fun hx => by simpa using List.all_eq_true.1 h _ hx

/-- Thread 0 finds the value at its locked check and returns while thread 1 is inside `set_value`. -/
theorem sync_outruns_target : ∃ (w w' : World Nat) (es e : List (Event Nat)) (a : Action Nat) (t : Task),
    Run step (fun _ w _ e => NoQuit e ∧ OneTimed w ∧ ∀ i c p, .expired i c p ∉ e) init w es ∧
    w.step a = some (w', e) ∧
      .syncDone 0 0 t ∈ e ∧ ¬ LeftNothing 0 w ∧
      w'.cpu 1 = [.set .notify 0 (.value 7) false, .processTasks (.running t) timePointMax, .user] := by
  obtain ⟨w, es, h, -, hf⟩ := run_of_small_exec (V := Nat) 2 (fun _ w _ e => NoQuit e ∧ OneTimed w ∧ ∀ i c p, .expired i c p ∉ e)
    (fun _ w _ e => singleWaiterCheck 2 w && noneExpired e)
    (fun w _ => (w.step (.run 0 0 0 0)).any fun r : World Nat × List (Event Nat) =>
      decide (.syncDone 0 0 ⟨1, timePointMin, 0, .rtask 0⟩ ∈ r.2 ∧ r.1.cpu 1 = w.cpu 1 ∧ w.cur 1 = 0 ∧
        w.cpu 1 = [.set .notify 0 (.value 7) false,
          .processTasks (.running ⟨1, timePointMin, 0, .rtask 0⟩) timePointMax, .user]))
    [.call 0 0 (.sync .plain 1 0 timePointMax), .call 1 0 .exec, .run 1 0 0 0, .finish 1 (.value 7), .run 1 0 0 0,
      .run 0 0 0 0]
    (fun _ _ _ _ hs hq hb => by
      simp only [Bool.and_eq_true] at hb
      exact ⟨hq, (singleWaiterCheck_sound hs hb.1).oneTimed, noneExpired_sound hb.2⟩) (by decide)
  obtain ⟨⟨w', e⟩, hs, he⟩ := (Option.any_eq_true _ _).1 hf
  simp only [decide_eq_true_eq] at he
  obtain ⟨hd, hcpu', hcur, hcpu⟩ := he
  refine ⟨w, w', es, e, _, _, h, hs, hd, fun hleft => ?_, hcpu'.trans hcpu⟩
  have hf : Frame.set .notify 0 (.value 7) false ∈ w.stack 1 (w.cur 1) := by
    rw [stack_cur, hcpu]
    exact List.mem_cons_self
  obtain ⟨t, ht⟩ := hleft.frames 1 _ _ hf rfl
  cases ht

end World

end BoostCmt
