import Mathlib.Data.List.Forall2
/-!
# The accept loop

`acceptor_private::listen` posts the handler once for every accepted connection.
An accept that fails throws, and the catch clause accepts again before it posts
the error: the error goes out with the next connection, and a second failure
leaves through the outer handler. So the loop reports a sequence of outcomes
exactly when none of them is a failure.

The operations of `boost::asio` are numbered by the socket each of them fills.
-/

namespace BoostCmt.Acceptor

/-- The socket that an `accept` makes and `async_accept` fills. -/
abbrev SocketId := Nat

/-- `boost::system::error_code`. -/
structure ErrorCode where
  value : Int := 0
  category : Nat := 0
  deriving DecidableEq, Repr

/-- An `error_code` as a condition. -/
def ErrorCode.failed (ec : ErrorCode) : Bool := ec.value ≠ 0

/-- `boost::system::system_error`. -/
structure SystemError where
  code : ErrorCode
  deriving DecidableEq, Repr

/-- The arguments of one call of the handler. -/
structure HandlerCall where
  sock : Option SocketId
  ec : ErrorCode
  deriving DecidableEq, Repr

/-- `accept` when its operation on `sock` has completed with `ec`. -/
def accept (sock : SocketId) (ec : ErrorCode) : Except SystemError SocketId :=
  if ec.failed then .error ⟨ec⟩ else .ok sock

/-- Where `listen` is. -/
inductive ListenPc where
  /-- In the `accept()` of the try block. -/
  | accepting (sock : SocketId)
  /-- In the `accept()` of the catch clause for `se`. -/
  | caught (sock : SocketId) (se : SystemError)
  /-- The outer handler has thrown the exception on. -/
  | threw (se : SystemError)
  deriving DecidableEq, Repr

structure State where
  pc : ListenPc
  /-- How many sockets have been made. -/
  socks : Nat
  /-- The calls of the handler that were posted, the first one first. -/
  posted : List HandlerCall := []
  deriving DecidableEq, Repr

namespace State

/-- `accept()` makes its socket and starts the operation. -/
def start (s : State) (pc : SocketId → ListenPc) : State := { s with pc := pc s.socks, socks := s.socks + 1 }

/-- `cmt::async( boost::bind( new_connection, sock, ec ) )`. -/
def post (s : State) (sock : SocketId) (ec : ErrorCode) : State :=
  { s with posted := s.posted ++ [{ sock := some sock, ec }] }

/-- The outstanding operation completes with `ec`. -/
def step (s : State) (ec : ErrorCode) : State :=
  match s.pc with
  | .accepting sock =>
    match accept sock ec with
    | .ok sock => (s.post sock {}).start .accepting
    | .error se => s.start (.caught · se)
  | .caught sock se =>
    match accept sock ec with
    | .ok sock => (s.post sock se.code).start .accepting
    | .error se' => { s with pc := .threw se' }
  | .threw _ => s

end State

/-- `listen`: `acc` is what the constructor of the `boost::asio` acceptor does, and `ecs` are the outcomes of the
operations. -/
def listen (acc : Except SystemError Unit) (ecs : List ErrorCode) : State :=
  match acc with
  | .ok () => ecs.foldl State.step { pc := .accepting 0, socks := 1 }
  | .error se => { pc := .threw se, socks := 0 }

/-! ## What the loop should report -/

/-- The call that reports an outcome: a new connection with its socket and no error, or the error of a failure
without the socket of any other connection. -/
def Reports (call : HandlerCall) (outcome : ErrorCode × SocketId) : Prop :=
  if outcome.1.failed then call.ec = outcome.1 ∧ (call.sock = none ∨ call.sock = some outcome.2)
  else call = { sock := some outcome.2, ec := {} }

instance (call : HandlerCall) (outcome : ErrorCode × SocketId) : Decidable (Reports call outcome) := by
  unfold Reports; infer_instance

/-- Every outcome is reported by one call, in order, and the loop goes on. -/
def Reported (ecs : List ErrorCode) (s : State) : Prop :=
  List.Forall₂ Reports s.posted ecs.zipIdx ∧ ∀ se, s.pc ≠ .threw se

/-! ## What it does -/

/-- Only a completion without error posts a call. -/
theorem State.step_posted (s : State) (ec : ErrorCode) :
    (s.step ec).posted.length ≤ s.posted.length + if ec.failed then 0 else 1 := by
  unfold State.step accept
  cases hec : ec.failed <;> cases s.pc <;> simp [start, post]

theorem foldl_posted (ecs : List ErrorCode) (s : State) :
    (ecs.foldl State.step s).posted.length ≤ s.posted.length + ecs.countP (fun ec => !ec.failed) := by
  induction ecs generalizing s with
  | nil => simp
  | cons ec ecs ih =>
    have hstep := s.step_posted ec
    have hrest := ih (s.step ec)
    rw [List.foldl_cons, List.countP_cons]
    cases hec : ec.failed <;> simp only [hec] at hstep ⊢ <;> simp at hstep ⊢ <;> omega

/-- While nothing fails, each connection is posted with its own socket. -/
theorem foldl_accepted (ecs : List ErrorCode) (n : Nat) (calls : List HandlerCall)
    (h : ∀ ec ∈ ecs, ec.failed = false) :
    ecs.foldl State.step { pc := .accepting n, socks := n + 1, posted := calls } =
      { pc := .accepting (n + ecs.length), socks := n + ecs.length + 1,
        posted := calls ++ (ecs.zipIdx n).map fun x => { sock := some x.2, ec := {} } } := by
  induction ecs generalizing n calls with
  | nil => simp
  | cons ec ecs ih =>
    have hec := h ec (by simp)
    rw [List.foldl_cons]
    simp only [State.step, accept, hec, Bool.false_eq_true, if_false, State.post, State.start]
    rw [ih (n + 1) _ fun e he => h e (by simp [he])]
    simp [Nat.add_comm, Nat.add_left_comm]

/-- The first failure posts nothing; it waits for the next outcome, and a second one ends the loop. -/
theorem listen_two_failures (ecs ecs' : List ErrorCode) {ec ec' : ErrorCode} (h : ∀ e ∈ ecs, e.failed = false)
    (hec : ec.failed) (hec' : ec'.failed) :
    (listen (.ok ()) (ecs ++ ec :: ec' :: ecs')).pc = .threw ⟨ec'⟩ ∧
      (listen (.ok ()) (ecs ++ ec :: ec' :: ecs')).posted.length = ecs.length := by
  have hend : ∀ (l : List ErrorCode) (s : State), s.pc = .threw ⟨ec'⟩ → l.foldl State.step s = s := by
    intro l s hs
    induction l with
    | nil => rfl
    | cons e l ih => rw [List.foldl_cons]; simpa [State.step, hs] using ih
  simp only [listen, List.foldl_append, foldl_accepted ecs 0 [] h, List.foldl_cons]
  rw [hend]
  · simp [State.step, accept, hec, hec', State.start]
  · simp [State.step, accept, hec, hec', State.start]

/-- The loop reports a sequence of outcomes, each once, in order and with its own status, exactly when every accept
succeeds. -/
theorem outcomes_reported (ecs : List ErrorCode) :
    Reported ecs (listen (.ok ()) ecs) ↔ ∀ ec ∈ ecs, ec.failed = false := by
  constructor
  · intro h
    have hlen : (listen (.ok ()) ecs).posted.length = ecs.length := by simpa using h.1.length_eq
    have hle := foldl_posted ecs { pc := .accepting 0, socks := 1 }
    have hcount : ecs.countP (fun ec => !ec.failed) = ecs.length := by
      refine Nat.le_antisymm List.countP_le_length ?_
      rw [← hlen]
      simpa [listen] using hle
    intro ec hec
    simpa using List.countP_eq_length.1 hcount ec hec
  · intro h
    simp only [Reported, listen, foldl_accepted ecs 0 [] h, List.nil_append]
    refine ⟨?_, by simp⟩
    rw [List.forall₂_map_left_iff, List.forall₂_same]
    intro x hx
    have hx := h x.1 (List.fst_mem_of_mem_zipIdx hx)
    simp [Reports, hx]

/-- A failure and then a connection: one call, which gives the connection the error of the failure. -/
theorem failure_reported_with_next_socket :
    (listen (.ok ()) [{ value := 24 }, {}]).posted = [{ sock := some 1, ec := { value := 24 } }] ∧
      ¬ Reported [{ value := 24 }, {}] (listen (.ok ()) [{ value := 24 }, {}]) := by
  have hposted : (listen (.ok ()) [{ value := 24 }, {}]).posted = [{ sock := some 1, ec := { value := 24 } }] := by
    decide
  refine ⟨hposted, fun h => ?_⟩
  have hlen := h.1.length_eq
  rw [hposted] at hlen
  cases hlen

end BoostCmt.Acceptor
