import LiteMultiKV.Network.Framing
import LiteMultiKV.Protocol.Service

/-!
# The event loop of the reactor

`reactor_start` waits for events and calls back for each of them.  The kernel
reports a descriptor only for what `set_event` has asked for: input on listening
sockets and new connections, output once a request has left a reply, and input
again after the reply was sent.  One wait reports several descriptors, and what
it reports was ready before the first of the callbacks ran.

A reply is sent with one call, which may take a part of it; the rest is not sent
again.  A send to a connection that is gone raises `SIGPIPE`, which nothing in the
server catches, and a connection that is closed while a child of `BGSAVE` has it
open stays registered; from there on a run has no result here.  Otherwise what the
loop does is explained by the command interface as a service, whatever the kernel
reports, and on every connection each reply is sent before the next request is
read.
-/

namespace LiteMultiKV.Reactor

open List Cache CText Families Numeric LiteMultiKV.Protocol Run LiteMultiKV.Sessions

/-- What `set_event` asks for. -/
inductive Interest where
  | epollin
  | epollout
  deriving DecidableEq

/-- The reactor and the interest of the epoll instance in each descriptor. -/
structure LoopState (F : Type) where
  reactor : ReactorState F
  interest : ℕ → Option Interest

/-- An entry of `events`: the descriptor, and for each event reported what the call of its
callback will return.  A send takes a number of bytes, none if it fails.  While a child of
`BGSAVE` is alive it has the same connections open. -/
structure Report (F : Type) where
  fd : ℕ
  child : Bool
  readable : Option (Input F)
  writable : Option ℕ

/-- The reply that a connection has to be sent. -/
def Conn.pending (conn : Conn) : List Byte :=
  conn.wbuffer.take conn.wlength.toNat

section Loop

variable {F : Type}

/-- `reactor_start` before its loop, with the listening sockets registered. -/
def loopStart (server : Server F) (listeners : List ℕ) : LoopState F where
  reactor := reactorStart server listeners
  interest := fun fd => if fd ∈ listeners then some .epollin else none

def setEvent (state : LoopState F) (fd : ℕ) (interest : Option Interest) : LoopState F :=
  { state with interest := Function.update state.interest fd interest }

variable [CFloat F]

/-- `recv_callback` of the descriptor.  Closing a descriptor takes it out of the epoll
instance, and the `EPOLL_CTL_DEL` that follows fails.  If a child has the connection open, the
instance keeps it and can report it under a number that was given away: no result. -/
def recvCallback (state : LoopState F) (fd : ℕ) (child : Bool) (input : Input F) :
    Option (LoopState F × List (Traffic ℕ (Packet F) Byte)) := do
  let (reactor, seen) ← reactorStep state.reactor (.input fd input)
  let state := { state with reactor := reactor }
  match seen, input with
  | .accepted client, _ => return (setEvent state client (some .epollin), [.opened client])
  | .executed _ _ _, .data env bytes =>
      return (setEvent state fd (some .epollout),
        [.served fd ⟨env, bytes⟩ (reactor.connList fd).pending])
  | .closed _, _ => if child then none else return (setEvent state fd none, [.closed fd])
  | _, _ => return (state, [])

/-- `send_callback` of the descriptor.  A send that takes no byte of a reply has failed, and
may have ended the process. -/
def sendCallback (state : LoopState F) (fd count : ℕ) :
    Option (LoopState F × List (Traffic ℕ (Packet F) Byte)) := do
  let (reactor, seen) ← reactorStep state.reactor (.output fd)
  match seen with
  | .sent _ bytes =>
      if count ≤ bytes.length ∧ (bytes = [] ∨ 0 < count) then
        return (setEvent { state with reactor := reactor } fd (some .epollin),
          [.sent fd (bytes.take count)])
      else none
  | _ => none

/-- `if (events[i].events & EPOLLIN)`. -/
def ifReadable (state : LoopState F) (fd : ℕ) (child : Bool) :
    Option (Input F) → Option (LoopState F × List (Traffic ℕ (Packet F) Byte))
  | some input => recvCallback state fd child input
  | none => some (state, [])

/-- `if (events[i].events & EPOLLOUT)`. -/
def ifWritable (state : LoopState F) (fd : ℕ) :
    Option ℕ → Option (LoopState F × List (Traffic ℕ (Packet F) Byte))
  | some count => sendCallback state fd count
  | none => some (state, [])

/-- The body of the loop over the events. -/
def handleReport (state : LoopState F) (report : Report F) :
    Option (LoopState F × List (Traffic ℕ (Packet F) Byte)) := do
  let (state, received) ← ifReadable state report.fd report.child report.readable
  let (state, sent) ← ifWritable state report.fd report.writable
  return (state, received ++ sent)

/-- What `epoll_wait` can report: each descriptor once, and only events of interest. -/
def Reportable (interest : ℕ → Option Interest) (reports : List (Report F)) : Prop :=
  (reports.map Report.fd).Nodup ∧ ∀ report ∈ reports,
    (report.readable.isSome → interest report.fd = some .epollin) ∧
      (report.writable.isSome → interest report.fd = some .epollout)

instance (interest : ℕ → Option Interest) (reports : List (Report F)) :
    Decidable (Reportable interest reports) :=
  inferInstanceAs (Decidable (_ ∧ _))

/-- One round of `mainloop`. -/
def reactorRound (state : LoopState F) (reports : List (Report F)) :
    Option (LoopState F × List (Traffic ℕ (Packet F) Byte)) :=
  if Reportable state.interest reports then
    (run handleReport state reports).map fun result => (result.1, result.2.flatten)
  else none

end Loop

/-! ## What a callback does -/

section Turns

variable {F : Type} [CFloat F] {state after : LoopState F} {fd : ℕ}
variable {seen : List (Traffic ℕ (Packet F) Byte)}

/-- The entry of a new connection. -/
def Conn.fresh : Conn :=
  { Conn.zero with rAction := some .recvCb, ns := lit "default" }

/-- The write buffer has the size that it is declared with. -/
def Conn.Sized (conn : Conn) : Prop :=
  conn.wbuffer.length = bufferLength

/-- What one callback for a descriptor does to the loop, and what is seen of it. -/
inductive Turn (state : LoopState F) (fd : ℕ) :
    LoopState F → List (Traffic ℕ (Packet F) Byte) → Prop
  | refused : Turn state fd state []
  | opened (client : ℕ) (hclosed : state.reactor.opened client = false) :
      Turn state fd
        { reactor := { state.reactor with
            connList := Function.update state.reactor.connList client Conn.fresh
            opened := Function.update state.reactor.opened client true }
          interest := Function.update state.interest client (some .epollin) }
        [.opened client]
  | served (packet : Packet F) (server : Server F) (conn : Conn)
      (hinterest : state.interest fd = some .epollin)
      (hopened : state.reactor.opened fd = true)
      (haction : (state.reactor.connList fd).rAction = some .recvCb)
      (hserve : (commandService F).serve state.reactor.server (state.reactor.connList fd).ns
        packet = some (server, conn.ns, conn.pending))
      (hkept : conn.rAction = some .recvCb) (hsized : conn.Sized) :
      Turn state fd
        { reactor := { state.reactor with
            server := server
            connList := Function.update state.reactor.connList fd conn }
          interest := Function.update state.interest fd (some .epollout) }
        [.served fd packet conn.pending]
  | closed (hinterest : state.interest fd = some .epollin)
      (haction : (state.reactor.connList fd).rAction = some .recvCb) :
      Turn state fd
        { reactor := (disconnect state.reactor fd).1
          interest := Function.update state.interest fd none }
        [.closed fd]
  | sent (count : ℕ) (hinterest : state.interest fd = some .epollout) :
      Turn state fd { state with interest := Function.update state.interest fd (some .epollin) }
        [.sent fd ((state.reactor.connList fd).pending.take count)]

omit [CFloat F] in
theorem acceptCb_cases {reactor next : ReactorState F} {client : ℤ} {observation : Observation}
    (haccept : acceptCb reactor client = some (next, observation)) :
    (next = reactor ∧ observation = .refused) ∨
      ∃ fd, reactor.opened fd = false ∧ observation = .accepted fd ∧
        next = { reactor with
          connList := Function.update reactor.connList fd Conn.fresh
          opened := Function.update reactor.opened fd true } := by
  unfold acceptCb eventRegister at haccept
  split at haccept
  · obtain ⟨rfl, rfl⟩ := Prod.mk.inj (Option.some.inj haccept)
    exact .inl ⟨rfl, rfl⟩
  · split at haccept
    · cases haccept
    next hclosed =>
      split at haccept
      · obtain ⟨rfl, rfl⟩ := Prod.mk.inj (Option.some.inj haccept)
        exact .inr ⟨client.toNat, by simpa using hclosed, rfl, rfl⟩
      · cases haccept

/-- The reply in the buffer of a connection is the one that the command has written. -/
theorem pending_written {conn : Conn} {reply : Written} (hsized : conn.Sized)
    (hcovered : Covered reply) :
    (reply.buffer ++ conn.wbuffer.drop reply.buffer.length).take reply.length.toNat =
      replyText reply := by
  rcases Nat.lt_or_ge reply.buffer.length reply.length.toNat with hshort | hlong
  · have hwritten := hcovered.written
    have hwhole : bufferLength ≤ reply.buffer.length := by
      simp only [responseMaxLen, bufferLength] at hwritten ⊢
      omega
    have hrest : conn.wbuffer.drop reply.buffer.length = [] :=
      drop_eq_nil_of_le (hsized.le.trans hwhole)
    rw [hrest, append_nil, replyText]
  · rw [take_append_of_le_length hlong, replyText]

/-- The handler sees the bytes of a receive and a NUL byte. -/
theorem kvsProtocol_stored (env : Env F) (server : Server F) (conn : Conn) {bytes : List Byte}
    (hbytes : Receivable bytes) :
    kvsProtocol env (conn.store bytes).memory (conn.store bytes).rlength conn.ns server =
      kvsProtocol env (bytes ++ [0]) bytes.length conn.ns server := by
  have htokens : tokenStrings (stripLines bytes.length (conn.store bytes).memory) =
      tokenStrings (stripLines bytes.length (bytes ++ [0])) := store_tokens conn hbytes
  have hpositive := length_pos_iff.2 hbytes.1
  change kvsProtocol env _ (bytes.length : ℤ) _ _ = _
  rw [kvsProtocol_eq_filter _ _ hpositive, kvsProtocol_eq_filter _ _ hpositive, htokens]

/-- `kvs_request` on the bytes of a receive is a request to the service. -/
theorem kvsRequest_served {server next : Server F} {env : Env F} {bytes : List Byte}
    {conn answered : Conn} (hsized : conn.Sized) (hbytes : Receivable bytes)
    (hrequest : kvsRequest env server (conn.store bytes) = some (next, answered)) :
    (commandService F).serve server conn.ns ⟨env, bytes⟩ =
        some (next, answered.ns, answered.pending) ∧
      answered.rAction = conn.rAction ∧ answered.Sized := by
  simp only [kvsRequest, Option.bind_eq_bind, Option.bind_eq_some_iff] at hrequest
  obtain ⟨outcome, houtcome, hreply⟩ := hrequest
  replace houtcome := (kvsProtocol_stored env server conn hbytes).symm.trans houtcome
  split at hreply
  case isFalse => cases hreply
  case isTrue hfits =>
    have hcovered : Covered outcome.reply := by
      rw [kvsProtocol_eq_filter _ _ (length_pos_iff.2 hbytes.1)] at houtcome
      exact covered_kvsFilterProtocol houtcome
    obtain ⟨rfl, rfl⟩ := Prod.mk.inj (Option.some.inj hreply)
    refine ⟨?_, rfl, ?_⟩
    · have hshort : outcome.reply.buffer.length ≤ Protocol.bufferLength := hfits
      simp only [commandService, houtcome, Option.bind_eq_bind, Option.bind_some]
      rw [if_pos hshort, Option.pure_def, Option.some.injEq, Prod.mk.injEq, Prod.mk.injEq]
      exact ⟨rfl, rfl, (pending_written hsized hcovered).symm⟩
    · unfold Conn.Sized at hsized ⊢
      simp only [length_append, length_drop, Conn.store]
      omega

theorem recvCb_served {reactor next : ReactorState F} {env : Env F} {bytes : List Byte}
    {observation : Observation} (hsized : (reactor.connList fd).Sized)
    (hrecv : recvCb env reactor fd bytes = some (next, observation)) :
    reactor.opened fd = true ∧ ∃ server conn,
      next = { reactor with
        server := server, connList := Function.update reactor.connList fd conn } ∧
      (commandService F).serve reactor.server (reactor.connList fd).ns ⟨env, bytes⟩ =
        some (server, conn.ns, conn.pending) ∧
      conn.rAction = (reactor.connList fd).rAction ∧ conn.Sized ∧
      ∃ ns tokens, observation = .executed fd ns tokens := by
  unfold recvCb at hrecv
  split at hrecv
  case isFalse => cases hrecv
  case isTrue hready =>
    simp only [Option.bind_eq_bind, Option.bind_eq_some_iff, Option.pure_def, Option.some.injEq,
      Prod.mk.injEq] at hrecv
    obtain ⟨⟨server, conn⟩, hrequest, rfl, rfl⟩ := hrecv
    obtain ⟨hserve, haction, hanswered⟩ := kvsRequest_served hsized hready.2 hrequest
    exact ⟨hready.1, server, conn, rfl, hserve, haction, hanswered, _, _, rfl⟩

theorem recvCallback_turn {child : Bool} {input : Input F}
    (hsized : ∀ fd, (state.reactor.connList fd).Sized)
    (hinterest : state.interest fd = some .epollin)
    (hrecv : recvCallback state fd child input = some (after, seen)) :
    Turn state fd after seen := by
  simp only [recvCallback, Option.bind_eq_bind, Option.bind_eq_some_iff] at hrecv
  obtain ⟨⟨reactor, observation⟩, hstep, hseen⟩ := hrecv
  simp only [reactorStep] at hstep
  split at hstep
  case isFalse => cases hstep
  case isTrue =>
    split at hstep
    next =>
      rcases acceptCb_cases hstep with ⟨rfl, rfl⟩ | ⟨client, hclosed, rfl, rfl⟩
      · obtain ⟨rfl, rfl⟩ := Prod.mk.inj (Option.some.inj hseen)
        exact .refused
      · obtain ⟨rfl, rfl⟩ := Prod.mk.inj (Option.some.inj hseen)
        exact .opened client hclosed
    next env bytes haction =>
      obtain ⟨hopened, server, conn, rfl, hserve, hkept, hconn, ns, tokens, rfl⟩ :=
        recvCb_served (hsized fd) hstep
      obtain ⟨rfl, rfl⟩ := Prod.mk.inj (Option.some.inj hseen)
      simp only [Function.update_self]
      exact .served ⟨env, bytes⟩ server conn hinterest hopened haction hserve
        (hkept.trans haction) hconn
    next haction =>
      obtain ⟨rfl, rfl⟩ := Prod.mk.inj (Option.some.inj hstep)
      simp only at hseen
      split at hseen
      · cases hseen
      · obtain ⟨rfl, rfl⟩ := Prod.mk.inj (Option.some.inj hseen)
        exact .closed hinterest haction
    next => cases hstep

theorem sendCallback_turn {count : ℕ} (hinterest : state.interest fd = some .epollout)
    (hsend : sendCallback state fd count = some (after, seen)) : Turn state fd after seen := by
  simp only [sendCallback, Option.bind_eq_bind, Option.bind_eq_some_iff] at hsend
  obtain ⟨⟨reactor, observation⟩, hstep, hseen⟩ := hsend
  simp only [reactorStep, sendCb] at hstep
  split at hstep
  case isFalse => cases hstep
  case isTrue =>
    split at hstep
    case isFalse => cases hstep
    case isTrue =>
      obtain ⟨rfl, rfl⟩ := Prod.mk.inj (Option.some.inj hstep)
      simp only at hseen
      split at hseen
      case isFalse => cases hseen
      case isTrue =>
        obtain ⟨rfl, rfl⟩ := Prod.mk.inj (Option.some.inj hseen)
        exact .sent count hinterest

omit [CFloat F] in
/-- A descriptor is not reported for both events. -/
theorem Reportable.writable_eq_none {interest : ℕ → Option Interest} {report : Report F}
    {rest : List (Report F)} (hreportable : Reportable interest (report :: rest))
    {input : Input F} (hinput : report.readable = some input) : report.writable = none := by
  obtain ⟨hreadable, hwritable⟩ := hreportable.2 report mem_cons_self
  by_contra hsome
  have hother := hwritable (Option.isSome_iff_ne_none.2 hsome)
  rw [hreadable (by simp [hinput])] at hother
  cases hother

/-- The loop calls at most one callback for a descriptor. -/
theorem handleReport_turn {report : Report F} {rest : List (Report F)}
    (hsized : ∀ fd, (state.reactor.connList fd).Sized)
    (hreportable : Reportable state.interest (report :: rest))
    (hhandle : handleReport state report = some (after, seen)) :
    Turn state report.fd after seen := by
  obtain ⟨hreadable, hwritable⟩ := hreportable.2 report mem_cons_self
  simp only [handleReport, Option.bind_eq_bind, Option.bind_eq_some_iff] at hhandle
  obtain ⟨⟨middle, received⟩, hreceived, ⟨last, sent⟩, hsent, hseen⟩ := hhandle
  obtain ⟨rfl, rfl⟩ := Prod.mk.inj (Option.some.inj hseen)
  cases hinput : report.readable with
  | none =>
      rw [hinput] at hreceived
      obtain ⟨rfl, rfl⟩ := Prod.mk.inj (Option.some.inj hreceived)
      cases houtput : report.writable with
      | none =>
          rw [houtput] at hsent
          obtain ⟨rfl, rfl⟩ := Prod.mk.inj (Option.some.inj hsent)
          exact .refused
      | some count =>
          rw [houtput] at hsent
          exact sendCallback_turn (hwritable (by simp [houtput])) hsent
  | some input =>
      rw [hinput] at hreceived
      rw [hreportable.writable_eq_none hinput] at hsent
      obtain ⟨rfl, rfl⟩ := Prod.mk.inj (Option.some.inj hsent)
      rw [append_nil]
      exact recvCallback_turn hsized (hreadable (by simp [hinput])) hreceived

end Turns

/-! ## Runs of the loop -/

section Runs

variable {F : Type} [CFloat F] {server : Server F} {state after : LoopState F} {fd : ℕ}
variable {history seen : List (Traffic ℕ (Packet F) Byte)}

/-- The namespace of a connection that is open. -/
def sessionOf (reactor : ReactorState F) (fd : ℕ) : Option CStr :=
  if reactor.opened fd ∧ (reactor.connList fd).rAction = some .recvCb then
    some (reactor.connList fd).ns
  else none

/-- The reply that waits to be sent. -/
def pendingOn (state : LoopState F) (fd : ℕ) : Option (List Byte) :=
  if state.interest fd = some .epollout then some (state.reactor.connList fd).pending else none

/-- The loop has served what it has seen, and it waits for every open connection. -/
structure Serving (server : Server F) (state : LoopState F)
    (history : List (Traffic ℕ (Packet F) Byte)) : Prop where
  explained : Explains (commandService F) id (Hub.empty ℕ server) history
    { store := state.reactor.server, session := sessionOf state.reactor }
  orderly : ∀ fd, Orderly (pendingOn state fd) (exchangesOn fd history)
  sized : ∀ fd, (state.reactor.connList fd).Sized
  opened_of_interest : ∀ fd, state.interest fd ≠ none → state.reactor.opened fd = true
  connected_of_epollout : ∀ fd, state.interest fd = some .epollout →
    (state.reactor.connList fd).rAction = some .recvCb
  interest_of_session : ∀ fd, sessionOf state.reactor fd ≠ none → state.interest fd ≠ none

theorem serving_start (server : Server F) (listeners : List ℕ) :
    Serving server (loopStart server listeners) [] := by
  have haction : ∀ fd, (((reactorStart server listeners).connList fd).rAction) ≠ some .recvCb := by
    intro fd
    simp only [reactorStart]
    split <;> simp [Conn.zero]
  have hsession : sessionOf (reactorStart server listeners) = fun _ => none := by
    funext fd
    exact if_neg fun hopen => haction fd hopen.2
  have hpending : ∀ fd, (loopStart server listeners).interest fd ≠ some .epollout := by
    intro fd
    simp only [loopStart]
    split <;> simp
  constructor
  · exact congrArg some (congrArg (Prod.mk · []) (congrArg (Hub.mk server) hsession.symm))
  · intro fd
    rw [pendingOn, if_neg (hpending fd)]
    exact inTurn_nil
  · intro fd
    simp only [loopStart, reactorStart]
    split <;> simp [Conn.Sized, Conn.zero]
  · intro fd hinterest
    simp only [loopStart, ne_eq, ite_eq_right_iff, reduceCtorEq, imp_false, not_not] at hinterest
    simpa [loopStart, reactorStart] using hinterest
  · exact fun fd hinterest => absurd hinterest (hpending fd)
  · intro fd hopen
    exact absurd (congrFun hsession fd) hopen

omit [CFloat F] in
/-- A callback changes the session of one descriptor. -/
theorem sessionOf_update {reactor next : ReactorState F}
    (hsame : ∀ other, other ≠ fd → next.connList other = reactor.connList other ∧
      next.opened other = reactor.opened other) {session : Option CStr}
    (hsession : sessionOf next fd = session) :
    sessionOf next = Function.update (sessionOf reactor) fd session := by
  funext other
  by_cases hother : other = fd
  · rw [hother, Function.update_self, hsession]
  · rw [Function.update_of_ne hother, sessionOf, sessionOf, (hsame other hother).1,
      (hsame other hother).2]

/-- The events of one descriptor, whose new state is the given one: what has to be shown of a
callback. -/
theorem Serving.update {event : Traffic ℕ (Packet F) Byte} {session : Option CStr}
    (hserving : Serving server state history) (fd : ℕ)
    (hexplained : Explains (commandService F) id
      { store := state.reactor.server, session := sessionOf state.reactor } [event]
      { store := after.reactor.server
        session := Function.update (sessionOf state.reactor) fd session })
    (hsession : sessionOf after.reactor fd = session)
    (hsame : ∀ other, other ≠ fd →
      after.reactor.connList other = state.reactor.connList other ∧
      after.reactor.opened other = state.reactor.opened other ∧
      after.interest other = state.interest other ∧
      noteTraffic other (exchangesOn other history) event = exchangesOn other history)
    (hsized : (after.reactor.connList fd).Sized)
    (horderly : Orderly (pendingOn after fd) (noteTraffic fd (exchangesOn fd history) event))
    (hopened : after.interest fd ≠ none → after.reactor.opened fd = true)
    (hepollout : after.interest fd = some .epollout →
      (after.reactor.connList fd).rAction = some .recvCb)
    (hinterest : session ≠ none → after.interest fd ≠ none) :
    Serving server after (history ++ [event]) := by
  have hsessions : sessionOf after.reactor = Function.update (sessionOf state.reactor) fd session :=
    sessionOf_update (fun other hother => ⟨(hsame other hother).1, (hsame other hother).2.1⟩)
      hsession
  constructor
  · rw [hsessions]
    exact hserving.explained.append hexplained
  · intro other
    rw [exchangesOn_snoc]
    by_cases hother : other = fd
    · rw [hother]
      exact horderly
    · obtain ⟨hconn, -, hkept, hnote⟩ := hsame other hother
      rw [hnote, pendingOn, hconn, hkept]
      exact hserving.orderly other
  · intro other
    by_cases hother : other = fd
    · rw [hother]
      exact hsized
    · rw [(hsame other hother).1]
      exact hserving.sized other
  · intro other
    by_cases hother : other = fd
    · rw [hother]
      exact hopened
    · rw [(hsame other hother).2.1, (hsame other hother).2.2.1]
      exact hserving.opened_of_interest other
  · intro other
    by_cases hother : other = fd
    · rw [hother]
      exact hepollout
    · rw [(hsame other hother).1, (hsame other hother).2.2.1]
      exact hserving.connected_of_epollout other
  · intro other
    by_cases hother : other = fd
    · rw [hother, hsession]
      exact hinterest
    · rw [hsessions, Function.update_of_ne hother, (hsame other hother).2.2.1]
      exact hserving.interest_of_session other

/-- Every callback keeps the loop serving. -/
theorem Turn.serving (hturn : Turn state fd after seen)
    (hserving : Serving server state history) : Serving server after (history ++ seen) := by
  cases hturn with
  | refused => rwa [append_nil]
  | opened client hclosed =>
      have hnone : sessionOf state.reactor client = none := by simp [sessionOf, hclosed]
      refine hserving.update client (explains_opened hnone) ?_ ?_ ?_ ?_ ?_ ?_ ?_
      · simp [sessionOf, Conn.fresh, commandService]
      · intro other hother
        simp [Function.update_of_ne hother, noteTraffic, Ne.symm hother]
      · simp [Conn.Sized, Conn.fresh, Conn.zero]
      · simp only [pendingOn, Function.update_self, noteTraffic, if_true]
        exact inTurn_nil
      · simp
      · simp
      · simp
  | served packet next conn hinterest hopened haction hserve hkept hsized =>
      have hsession : sessionOf state.reactor fd = some (state.reactor.connList fd).ns :=
        if_pos ⟨hopened, haction⟩
      have hidle : pendingOn state fd = none := by simp [pendingOn, hinterest]
      refine hserving.update fd (explains_served hsession hserve) ?_ ?_ ?_ ?_ ?_ ?_ ?_
      · simp [sessionOf, hopened, hkept]
      · intro other hother
        simp [Function.update_of_ne hother, noteTraffic, Ne.symm hother]
      · simpa using hsized
      · simp only [pendingOn, Function.update_self, noteTraffic, if_true]
        exact (hidle ▸ hserving.orderly fd).serve conn.pending
      · simp [hopened]
      · simp [hkept]
      · simp
  | closed hinterest haction =>
      have hopened := hserving.opened_of_interest fd (by simp [hinterest])
      have hsession : sessionOf state.reactor fd ≠ none := by simp [sessionOf, hopened, haction]
      have hidle : pendingOn state fd = none := by simp [pendingOn, hinterest]
      refine hserving.update fd (explains_closed hsession) ?_ ?_ ?_ ?_ ?_ ?_ ?_
      · simp [sessionOf, disconnect]
      · intro other hother
        simp [disconnect, Function.update_of_ne hother, noteTraffic]
      · simpa [disconnect, Conn.Sized] using hserving.sized fd
      · simp only [pendingOn, Function.update_self, noteTraffic]
        exact hidle ▸ hserving.orderly fd
      · simp
      · simp
      · simp
  | sent count hinterest =>
      have haction := hserving.connected_of_epollout fd hinterest
      have hopened := hserving.opened_of_interest fd (by simp [hinterest])
      have hsession : sessionOf state.reactor fd = some (state.reactor.connList fd).ns :=
        if_pos ⟨hopened, haction⟩
      have hwaiting : pendingOn state fd = some (state.reactor.connList fd).pending := by
        simp [pendingOn, hinterest]
      refine hserving.update fd ?_ hsession ?_ ?_ ?_ ?_ ?_ ?_
      · rw [← hsession, Function.update_eq_self]
        exact explains_sent _
      · intro other hother
        simp [Function.update_of_ne hother, noteTraffic, Ne.symm hother]
      · exact hserving.sized fd
      · simp only [pendingOn, Function.update_self, noteTraffic, if_true]
        exact (hwaiting ▸ hserving.orderly fd).send ⟨_, take_append_drop count _⟩
      · simp [hopened]
      · simp
      · simp

/-- A callback leaves the interest in the other registered descriptors alone: an accept returns a
descriptor that is not open. -/
theorem Turn.interest_eq (hturn : Turn state fd after seen)
    (hserving : Serving server state history) {other : ℕ} (hother : other ≠ fd)
    (hregistered : state.interest other ≠ none) : after.interest other = state.interest other := by
  cases hturn with
  | refused => rfl
  | opened client hclosed =>
      have hdifferent : other ≠ client := by
        rintro rfl
        have hopened := hserving.opened_of_interest other hregistered
        rw [hclosed] at hopened
        cases hopened
      exact Function.update_of_ne hdifferent _ _
  | served => exact Function.update_of_ne hother _ _
  | closed => exact Function.update_of_ne hother _ _
  | sent => exact Function.update_of_ne hother _ _

/-- What was reported together with a descriptor is still so after its callback. -/
theorem Turn.reportable {report : Report F} {rest : List (Report F)}
    (hturn : Turn state report.fd after seen) (hserving : Serving server state history)
    (hreportable : Reportable state.interest (report :: rest)) :
    Reportable after.interest rest := by
  obtain ⟨hnodup, hevents⟩ := hreportable
  rw [map_cons, nodup_cons] at hnodup
  refine ⟨hnodup.2, fun other hother => ?_⟩
  have hdifferent : other.fd ≠ report.fd := by
    intro heq
    exact hnodup.1 (heq ▸ mem_map_of_mem hother)
  have hkept : ∀ {interest : Interest}, state.interest other.fd = some interest →
      after.interest other.fd = some interest := by
    intro interest hinterest
    rw [hturn.interest_eq hserving hdifferent (by simp [hinterest]), hinterest]
  obtain ⟨hreadable, hwritable⟩ := hevents other (mem_cons_of_mem _ hother)
  exact ⟨fun hsome => hkept (hreadable hsome), fun hsome => hkept (hwritable hsome)⟩

/-- The loop over the events of one wait. -/
theorem Serving.reports {reports : List (Report F)} (hserving : Serving server state history)
    (hreportable : Reportable state.interest reports)
    {parts : List (List (Traffic ℕ (Packet F) Byte))}
    (hrun : run handleReport state reports = some (after, parts)) :
    Serving server after (history ++ parts.flatten) := by
  induction reports generalizing state history parts with
  | nil =>
      obtain ⟨rfl, rfl⟩ := Prod.mk.inj (Option.some.inj hrun)
      rwa [flatten_nil, append_nil]
  | cons report reports ih =>
      obtain ⟨middle, seen, rest, hhandle, hrest, rfl⟩ := run_eq_some_cons hrun
      have hturn := handleReport_turn hserving.sized hreportable hhandle
      rw [flatten_cons, ← append_assoc]
      exact ih (hturn.serving hserving) (hturn.reportable hserving hreportable) hrest

theorem Serving.round {reports : List (Report F)} (hserving : Serving server state history)
    (hround : reactorRound state reports = some (after, seen)) :
    Serving server after (history ++ seen) := by
  unfold reactorRound at hround
  split at hround
  case isFalse => cases hround
  case isTrue hreportable =>
    obtain ⟨⟨final, parts⟩, hrun, hseen⟩ := Option.map_eq_some_iff.1 hround
    obtain ⟨rfl, rfl⟩ := Prod.mk.inj hseen
    exact hserving.reports hreportable hrun

theorem serving_of_run (server : Server F) (listeners : List ℕ)
    (rounds : List (List (Report F))) {final : LoopState F}
    {parts : List (List (Traffic ℕ (Packet F) Byte))}
    (hrun : run reactorRound (loopStart server listeners) rounds = some (final, parts)) :
    Serving server final parts.flatten := by
  have hkeep : ∀ (state : LoopState F) past reports after seen,
      Serving server state past.flatten → True →
      reactorRound state reports = some (after, seen) →
      Serving server after (past ++ [seen]).flatten := by
    intro state past reports after seen hserving _ hround
    rw [flatten_append, flatten_singleton]
    exact hserving.round hround
  have hstart : Serving server (loopStart server listeners)
      ([] : List (List (Traffic ℕ (Packet F) Byte))).flatten := serving_start server listeners
  exact run_history_along hkeep hstart (along_of_forall (fun _ _ _ => trivial) _) hrun

/-- In every run of the loop the requests are served as if one after the other by the command
interface, each in the session of its own connection.  Every reply is sent with one call, up to
some byte, before the next request on its connection is served, and the loop waits for every
connection that is open. -/
theorem reactor_serves_in_order (server : Server F) (listeners : List ℕ)
    (rounds : List (List (Report F))) {final : LoopState F}
    {parts : List (List (Traffic ℕ (Packet F) Byte))}
    (hrun : run reactorRound (loopStart server listeners) rounds = some (final, parts)) :
    Explains (commandService F) id (Hub.empty ℕ server) parts.flatten
        { store := final.reactor.server, session := sessionOf final.reactor } ∧
      ∀ fd, Orderly (pendingOn final fd) (exchangesOn fd parts.flatten) ∧
        (sessionOf final.reactor fd ≠ none → final.interest fd ≠ none) := by
  have hserving := serving_of_run server listeners rounds hrun
  exact ⟨hserving.explained, fun fd => ⟨hserving.orderly fd, hserving.interest_of_session fd⟩⟩

end Runs

/-- A message of a client. -/
def typedReport (fd : ℕ) (text : String) : Report Float32 :=
  ⟨fd, false, some (.data (Env.quiet Float32) (ascii text)), none⟩

/-- Two clients on a listening socket: the second one accepted while the first is served, a reply
cut short, a namespace, and a client that leaves. -/
def twoClients : List (List (Report Float32)) :=
  [[⟨3, false, some (.client 5), none⟩],
    [⟨3, false, some (.client 6), none⟩, typedReport 5 "HSET k a\r\n"],
    [⟨5, false, none, some 4⟩, typedReport 6 "NS SET t\r\n"],
    [⟨6, false, none, some 9⟩, typedReport 5 "HGET k\r\n"],
    [typedReport 6 "HGET k\r\n", ⟨5, false, none, some 3⟩],
    [⟨5, false, some .ended, none⟩]]

theorem reactor_serves_in_order_twoClients :
    ∃ final parts, run reactorRound (loopStart (Server.start Float32 1000 .arc) [3]) twoClients =
        some (final, parts) ∧
      exchangesOn 5 parts.flatten =
        [⟨ascii "OK\r\n", [ascii "OK\r\n"]⟩, ⟨ascii "a\r\n", [ascii "a\r\n"]⟩] ∧
      exchangesOn 6 parts.flatten =
        [⟨ascii "Namespace set to: t\r\n", [ascii "Namespace"]⟩, ⟨ascii "NO EXIST\r\n", []⟩] ∧
      Explains (commandService Float32) id (Hub.empty ℕ (Server.start Float32 1000 .arc))
        parts.flatten
        { store := final.reactor.server, session := sessionOf final.reactor } := by
  have hseen : (run reactorRound (loopStart (Server.start Float32 1000 .arc) [3])
      twoClients).map (fun result => (exchangesOn 5 result.2.flatten,
        exchangesOn 6 result.2.flatten)) =
      some ([⟨ascii "OK\r\n", [ascii "OK\r\n"]⟩, ⟨ascii "a\r\n", [ascii "a\r\n"]⟩],
        [⟨ascii "Namespace set to: t\r\n", [ascii "Namespace"]⟩,
          ⟨ascii "NO EXIST\r\n", []⟩]) := by
    decide +kernel
  obtain ⟨⟨final, parts⟩, hrun, hexchanges⟩ := Option.map_eq_some_iff.1 hseen
  obtain ⟨hfirst, hsecond⟩ := Prod.mk.inj hexchanges
  exact ⟨final, parts, hrun, hfirst, hsecond,
    (reactor_serves_in_order _ [3] twoClients hrun).1⟩

/-! ## Loops that never get stuck -/

section Progress

variable {F : Type} [CFloat F] {family : Family} {server : Server F} {state after : LoopState F}
variable {fd : ℕ} {history seen : List (Traffic ℕ (Packet F) Byte)}

/-- What the call behind a callback can return: an accept fails or returns a descriptor that is not
open and has an entry in the table, a receive returns some bytes or the end. -/
def PossibleInput (reactor : ReactorState F) (fd : ℕ) : Input F → Prop
  | .client client => (reactor.connList fd).rAction = some .acceptCb ∧
      (client < 0 ∨ reactor.opened client.toNat = false ∧ client.toNat < connectionSize)
  | .data _ bytes => (reactor.connList fd).rAction = some .recvCb ∧ Receivable bytes
  | .ended => (reactor.connList fd).rAction = some .recvCb

instance decidablePossibleInput (reactor : ReactorState F) (fd : ℕ) :
    ∀ input, Decidable (PossibleInput reactor fd input)
  | .client _ => inferInstanceAs (Decidable (_ ∧ (_ ∨ _ ∧ _)))
  | .data _ _ => inferInstanceAs (Decidable (_ ∧ _ ∧ _))
  | .ended => inferInstanceAs (Decidable (_ = _))

/-- The number of bytes that a send takes when it does not fail. -/
def PossibleCount (reply : List Byte) (count : ℕ) : Prop :=
  count ≤ reply.length ∧ (reply = [] ∨ 0 < count)

instance (reply : List Byte) (count : ℕ) : Decidable (PossibleCount reply count) :=
  inferInstanceAs (Decidable (_ ∧ (_ ∨ _)))

/-- What a report can stand for where no send fails and no child is alive. -/
def Possible (state : LoopState F) (report : Report F) : Prop :=
  report.child = false ∧
    (∀ input ∈ report.readable, PossibleInput state.reactor report.fd input) ∧
    ∀ count ∈ report.writable, PossibleCount (state.reactor.connList report.fd).pending count

instance (state : LoopState F) (report : Report F) : Decidable (Possible state report) :=
  inferInstanceAs (Decidable (_ ∧ _))

/-- What one wait can report, and what the calls can then return. -/
def PossibleRound (state : LoopState F) (reports : List (Report F)) : Prop :=
  Reportable state.interest reports ∧ Along handleReport Possible state reports

instance (state : LoopState F) (reports : List (Report F)) :
    Decidable (PossibleRound state reports) :=
  inferInstanceAs (Decidable (_ ∧ _))

/-- The message in a report, if there is one, is short and one for the family. -/
def ForFamily (family : Family) (report : Report F) : Prop :=
  ∀ env bytes, report.readable = some (.data env bytes) →
    bytes.length ≤ messageLimit ∧ (Packet.mk env bytes).Admitted family

/-- Every request in the traffic is a message for the family. -/
def AdmittedTraffic (family : Family) (traffic : List (Traffic ℕ (Packet F) Byte)) : Prop :=
  ∀ fd packet reply, .served fd packet reply ∈ traffic → packet.Admitted family

/-- Every callback that can be called has a result. -/
structure Responsive (family : Family) (state : LoopState F) : Prop where
  ready : Ready state.reactor.server
  session : ∀ fd ns, sessionOf state.reactor fd = some ns →
    strlen ns ≤ 63 ∧ SevenBit family ns.bytes
  registered : ∀ fd, state.interest fd ≠ none → fd < connectionSize
  reply : ∀ fd, state.interest fd = some .epollout →
    0 ≤ (state.reactor.connList fd).wlength ∧ (state.reactor.connList fd).wlength ≤ bufferLength

/-- A namespace comes from a token. -/
theorem settingOf_mem {tokens : List CStr} {text : CStr}
    (hsetting : settingOf tokens = some (.name text)) : text ∈ tokens := by
  match tokens with
  | [] => cases hsetting
  | [_] => cases hsetting
  | [command, word] =>
      simp only [settingOf] at hsetting
      split_ifs at hsetting
      · cases hsetting
      · obtain rfl := Setting.name.inj (Option.some.inj hsetting)
        simp
  | command :: word :: name :: rest =>
      simp only [settingOf] at hsetting
      split_ifs at hsetting
      · obtain rfl := Setting.name.inj (Option.some.inj hsetting)
        simp
      · cases hsetting

theorem strlen_default : strlen (lit "default") ≤ 63 := by
  decide +kernel

/-- Settings with 7-bit tokens keep a namespace short and 7-bit. -/
theorem applySetting_spec {tokens : List CStr} {ns : CStr}
    (htokens : ∀ token ∈ tokens, SevenBit family token.bytes) (hlength : strlen ns ≤ 63)
    (hseven : SevenBit family ns.bytes) :
    strlen (applySetting ns (settingOf tokens)) ≤ 63 ∧
      SevenBit family (applySetting ns (settingOf tokens)).bytes := by
  cases hsetting : settingOf tokens with
  | none => exact ⟨hlength, hseven⟩
  | some setting =>
      cases setting with
      | reset => exact ⟨strlen_default, sevenBit_default family⟩
      | name text =>
          refine ⟨(length_take_le _ _), fun hhash byte hbyte => ?_⟩
          exact htokens text (settingOf_mem hsetting) hhash byte (mem_of_mem_take hbyte)

/-- An admitted message has a reply that fits, and leaves a server that is ready. -/
theorem serve_admitted {server : Server F} {ns : CStr} {packet : Packet F}
    (hready : Ready server) (hlength : strlen ns ≤ 63) (hseven : SevenBit family ns.bytes)
    (hbytes : packet.bytes.length ≤ messageLimit) (hadmitted : packet.Admitted family) :
    ∃ outcome, kvsProtocol packet.env (packet.bytes ++ [0]) packet.bytes.length ns server =
        some outcome ∧ Fits outcome.reply ∧ Ready outcome.server ∧ strlen outcome.ns ≤ 63 ∧
      SevenBit family outcome.ns.bytes := by
  let message : Message F := ⟨packet.env, ns, packet.bytes⟩
  have hregular : message.Regular := ⟨hadmitted.alloc_eq, hbytes, hlength⟩
  have htokens := Packet.tokens_sevenBit hadmitted.sevenBit
  have hfits : ReplyFits server message := by
    refine ⟨hadmitted.nonempty, fun command hcommand => ?_⟩
    rcases Command.inFamily_iff.1 (hadmitted.inFamily command hcommand) with rfl | ⟨operation, rfl⟩
    · trivial
    · exact fun key hkey => .inl (addressable_of_sevenBit htokens hseven hkey)
  obtain ⟨after, reply, hreceive, hreply⟩ :=
    (answers_receive hready hregular hadmitted.nonempty).served hfits
  have hafter := hready.receive hregular hreceive
  obtain ⟨outcome, houtcome, heq⟩ := Option.map_eq_some_iff.1 hreceive
  obtain ⟨rfl, rfl⟩ := Prod.mk.inj heq
  have hns : outcome.ns = applySetting ns (settingOf packet.tokens) :=
    kvsProtocol_ns houtcome (length_pos_iff.2 hadmitted.nonempty)
  exact ⟨outcome, houtcome, hreply, hafter, hns ▸ applySetting_spec htokens hlength hseven⟩

omit [CFloat F] in
/-- One descriptor changes: what has to be shown for the loop to stay responsive. -/
theorem Responsive.update (hresponsive : Responsive family state) (fd : ℕ)
    (hsame : ∀ other, other ≠ fd →
      after.reactor.connList other = state.reactor.connList other ∧
      after.reactor.opened other = state.reactor.opened other ∧
      after.interest other = state.interest other)
    (hready : Ready after.reactor.server)
    (hsession : ∀ ns, sessionOf after.reactor fd = some ns →
      strlen ns ≤ 63 ∧ SevenBit family ns.bytes)
    (hregistered : after.interest fd ≠ none → fd < connectionSize)
    (hreply : after.interest fd = some .epollout → 0 ≤ (after.reactor.connList fd).wlength ∧
      (after.reactor.connList fd).wlength ≤ bufferLength) : Responsive family after := by
  refine ⟨hready, fun other ns hother => ?_, fun other => ?_, fun other => ?_⟩
  · by_cases hfd : other = fd
    · exact hsession ns (hfd ▸ hother)
    · obtain ⟨hconn, hopened, -⟩ := hsame other hfd
      refine hresponsive.session other ns ?_
      rwa [sessionOf, hconn, hopened] at hother
  · by_cases hfd : other = fd
    · rw [hfd]
      exact hregistered
    · rw [(hsame other hfd).2.2]
      exact hresponsive.registered other
  · by_cases hfd : other = fd
    · rw [hfd]
      exact hreply
    · rw [(hsame other hfd).1, (hsame other hfd).2.2]
      exact hresponsive.reply other

theorem exists_kvsRequest {env : Env F} {server : Server F} {conn : Conn} {outcome : Outcome F}
    (houtcome : kvsProtocol env conn.memory conn.rlength conn.ns server = some outcome)
    (hfits : Fits outcome.reply) :
    ∃ answered, kvsRequest env server conn = some (outcome.server, answered) ∧
      answered.ns = outcome.ns ∧ answered.wlength = outcome.reply.length := by
  have hbuffer : outcome.reply.buffer.length ≤ bufferLength := hfits.1
  simp only [kvsRequest, houtcome, Option.bind_eq_bind, Option.bind_some, if_pos hbuffer]
  exact ⟨_, rfl, rfl, rfl⟩

theorem recvCallback_responds (hserving : Serving server state history)
    (hresponsive : Responsive family state) (hinterest : state.interest fd = some .epollin)
    {input : Input F} (hpossible : PossibleInput state.reactor fd input)
    (hfamily : ∀ env bytes, input = .data env bytes →
      bytes.length ≤ messageLimit ∧ (Packet.mk env bytes).Admitted family) :
    ∃ after seen, recvCallback state fd false input = some (after, seen) ∧
      Responsive family after ∧ AdmittedTraffic family seen := by
  have hregistered : state.interest fd ≠ none := by simp [hinterest]
  have hfd := hresponsive.registered fd hregistered
  have hopened := hserving.opened_of_interest fd hregistered
  cases input with
  | client client =>
      obtain ⟨haction, hclient⟩ := hpossible
      simp only [recvCallback, reactorStep, if_pos hfd, haction, acceptCb]
      rcases hclient with hfailed | ⟨hclosed, hclient⟩
      · rw [if_pos hfailed]
        exact ⟨_, _, rfl, hresponsive, by simp [AdmittedTraffic]⟩
      · by_cases hfailed : client < 0
        · rw [if_pos hfailed]
          exact ⟨_, _, rfl, hresponsive, by simp [AdmittedTraffic]⟩
        · rw [if_neg hfailed, hclosed, if_neg Bool.false_ne_true, eventRegister, if_pos hclient]
          refine ⟨_, _, rfl, hresponsive.update client.toNat (fun other hother => ?_)
            hresponsive.ready (fun ns hns => ?_) (fun _ => hclient) ?_, by simp [AdmittedTraffic]⟩
          · simp [setEvent, Function.update_of_ne hother]
          · obtain rfl : lit "default" = ns := by simpa [sessionOf, setEvent] using hns
            exact ⟨strlen_default, sevenBit_default family⟩
          · simp [setEvent]
  | data env bytes =>
      obtain ⟨haction, hbytes⟩ := hpossible
      obtain ⟨hlength, hadmitted⟩ := hfamily env bytes rfl
      obtain ⟨hshort, hseven⟩ := hresponsive.session fd _ (if_pos ⟨hopened, haction⟩)
      obtain ⟨outcome, houtcome, hfits, hready, hns⟩ :=
        serve_admitted hresponsive.ready hshort hseven hlength hadmitted
      rw [← kvsProtocol_stored _ _ _ hbytes] at houtcome
      obtain ⟨conn, hrequest, hconn, hwlength⟩ := exists_kvsRequest houtcome hfits
      have hready' : state.reactor.opened fd ∧ bytes ≠ [] ∧ bytes.length ≤ bufferLength :=
        ⟨hopened, hbytes⟩
      simp only [recvCallback, reactorStep, if_pos hfd, haction, recvCb, if_pos hready', hrequest,
        Option.bind_eq_bind, Option.bind_some, Option.pure_def]
      refine ⟨_, _, rfl, hresponsive.update fd (fun other hother => ?_) hready (fun ns hother => ?_)
        (fun _ => hfd) fun _ => ?_, ?_⟩
      · simp [setEvent, Function.update_of_ne hother]
      · simp only [sessionOf, setEvent, Function.update_self, hopened, hconn] at hother
        split at hother
        · exact Option.some.inj hother ▸ hns
        · cases hother
      · have hlengths : 0 ≤ outcome.reply.length ∧ outcome.reply.length ≤ (bufferLength : ℤ) :=
          hfits.2
        simpa [setEvent, hwlength] using hlengths
      · intro other packet reply hserved
        obtain ⟨-, rfl, -⟩ := Traffic.served.inj (mem_singleton.1 hserved)
        exact hadmitted
  | ended =>
      have haction : (state.reactor.connList fd).rAction = some .recvCb := hpossible
      simp only [recvCallback, reactorStep, if_pos hfd, haction]
      refine ⟨_, _, rfl, hresponsive.update fd (fun other hother => ?_) hresponsive.ready
        (fun ns hns => ?_) ?_ ?_, by simp [AdmittedTraffic]⟩
      · simp [setEvent, disconnect, Function.update_of_ne hother]
      · simp [sessionOf, setEvent, disconnect] at hns
      · simp [setEvent, disconnect]
      · simp [setEvent, disconnect]

theorem sendCallback_responds (hserving : Serving server state history)
    (hresponsive : Responsive family state) (hinterest : state.interest fd = some .epollout)
    {count : ℕ} (hcount : PossibleCount (state.reactor.connList fd).pending count) :
    ∃ after seen, sendCallback state fd count = some (after, seen) ∧ Responsive family after ∧
      AdmittedTraffic family seen := by
  have haction := hserving.connected_of_epollout fd hinterest
  have hfd := hresponsive.registered fd (by simp [hinterest])
  have hready : fd < connectionSize ∧ (state.reactor.connList fd).rAction = some .recvCb :=
    ⟨hfd, haction⟩
  unfold PossibleCount Conn.pending at hcount
  simp only [sendCallback, reactorStep, if_pos hready, sendCb,
    if_pos (hresponsive.reply fd hinterest), Option.bind_eq_bind, Option.bind_some,
    Option.pure_def, if_pos hcount]
  refine ⟨_, _, rfl, hresponsive.update fd (fun other hother => ?_) hresponsive.ready
    (hresponsive.session fd) (fun _ => hfd) ?_, by simp [AdmittedTraffic]⟩
  · simp [setEvent, Function.update_of_ne hother]
  · simp [setEvent]

theorem handleReport_responds (hserving : Serving server state history)
    (hresponsive : Responsive family state) {report : Report F} {rest : List (Report F)}
    (hreportable : Reportable state.interest (report :: rest))
    (hpossible : Possible state report) (hfamily : ForFamily family report) :
    ∃ after seen, handleReport state report = some (after, seen) ∧ Responsive family after ∧
      AdmittedTraffic family seen := by
  obtain ⟨hreadable, hwritable⟩ := hreportable.2 report mem_cons_self
  simp only [handleReport]
  cases hinput : report.readable with
  | none =>
      cases houtput : report.writable with
      | none => exact ⟨state, _, rfl, hresponsive, by simp [AdmittedTraffic]⟩
      | some count =>
          obtain ⟨after, seen, hsend, hafter, htraffic⟩ := sendCallback_responds hserving
            hresponsive (hwritable (by simp [houtput])) (hpossible.2.2 count houtput)
          simp only [ifReadable, ifWritable, hsend, Option.bind_eq_bind, Option.bind_some]
          exact ⟨after, _, rfl, hafter, htraffic⟩
  | some input =>
      obtain ⟨after, seen, hrecv, hafter, htraffic⟩ := recvCallback_responds hserving hresponsive
        (hreadable (by simp [hinput])) (hpossible.2.1 input hinput)
        fun env bytes hdata => hfamily env bytes (hdata ▸ hinput)
      have hnone := hreportable.writable_eq_none hinput
      simp only [ifReadable, ifWritable, hpossible.1, hrecv, hnone, Option.bind_eq_bind,
        Option.bind_some]
      exact ⟨after, _, rfl, hafter, by rwa [append_nil]⟩

omit [CFloat F] in
theorem AdmittedTraffic.append {more : List (Traffic ℕ (Packet F) Byte)}
    (hfirst : AdmittedTraffic family seen) (hsecond : AdmittedTraffic family more) :
    AdmittedTraffic family (seen ++ more) := by
  intro fd packet reply hserved
  rcases mem_append.1 hserved with hserved | hserved
  · exact hfirst fd packet reply hserved
  · exact hsecond fd packet reply hserved

/-- A round has a result if what it is told is possible. -/
theorem reports_respond {reports : List (Report F)} (hserving : Serving server state history)
    (hresponsive : Responsive family state) (hreportable : Reportable state.interest reports)
    (hpossible : Along handleReport Possible state reports)
    (hfamily : ∀ report ∈ reports, ForFamily family report) :
    ∃ after parts, run handleReport state reports = some (after, parts) ∧
      Responsive family after ∧ AdmittedTraffic family parts.flatten := by
  induction reports generalizing state history with
  | nil => exact ⟨state, [], rfl, hresponsive, by simp [AdmittedTraffic]⟩
  | cons report reports ih =>
      obtain ⟨middle, seen, hhandle, hmiddle, hseen⟩ :=
        handleReport_responds hserving hresponsive hreportable hpossible.1
          (hfamily report mem_cons_self)
      have hturn := handleReport_turn hserving.sized hreportable hhandle
      obtain ⟨after, parts, hrun, hafter, htraffic⟩ := ih (hturn.serving hserving) hmiddle
        (hturn.reportable hserving hreportable) (hpossible.2 middle seen hhandle)
        fun other hother => hfamily other (mem_cons_of_mem report hother)
      refine ⟨after, seen :: parts, ?_, hafter, hseen.append htraffic⟩
      rw [run_cons hhandle, hrun]
      rfl

/-- So has a run of rounds. -/
theorem rounds_respond {rounds : List (List (Report F))} (hserving : Serving server state history)
    (hresponsive : Responsive family state)
    (hpossible : Along reactorRound PossibleRound state rounds)
    (hfamily : ∀ reports ∈ rounds, ∀ report ∈ reports, ForFamily family report) :
    ∃ final parts, run reactorRound state rounds = some (final, parts) ∧
      AdmittedTraffic family parts.flatten := by
  induction rounds generalizing state history with
  | nil => exact ⟨state, [], rfl, by simp [AdmittedTraffic]⟩
  | cons reports rounds ih =>
      obtain ⟨⟨hreportable, hcalls⟩, hrest⟩ := hpossible
      obtain ⟨middle, seen, hrun, hmiddle, hseen⟩ :=
        reports_respond hserving hresponsive hreportable hcalls (hfamily reports mem_cons_self)
      have hround : reactorRound state reports = some (middle, seen.flatten) := by
        rw [reactorRound, if_pos hreportable, hrun]
        rfl
      obtain ⟨final, parts, hrounds, htraffic⟩ :=
        ih (hserving.round hround) hmiddle (hrest middle _ hround)
          fun others hothers => hfamily others (mem_cons_of_mem reports hothers)
      refine ⟨final, seen.flatten :: parts, ?_, hseen.append htraffic⟩
      rw [run_cons hround, hrounds]
      rfl

theorem responsive_start (maxItems : ℤ) (policy : Policy) {listeners : List ℕ}
    (hlisteners : ∀ fd ∈ listeners, fd < connectionSize) :
    Responsive family (loopStart (Server.start F maxItems policy) listeners) where
  ready := ready_start maxItems policy
  session := by
    intro fd ns hsession
    have haction : ((reactorStart (Server.start F maxItems policy) listeners).connList fd).rAction ≠
        some .recvCb := by
      simp only [reactorStart]
      split <;> simp [Conn.zero]
    simp [sessionOf, loopStart, haction] at hsession
  registered := by
    intro fd hinterest
    simp only [loopStart, ne_eq, ite_eq_right_iff, reduceCtorEq, imp_false, not_not] at hinterest
    exact hlisteners fd hinterest
  reply := by
    intro fd hinterest
    simp only [loopStart] at hinterest
    split at hinterest <;> simp at hinterest

/-- A reactor whose clients use the commands of one family, and choose namespaces, is a dictionary.
Whatever the cache policy, the interleaving of the connections and the parts of the replies that
the kernel takes, every run in which no send fails has a result; every reply is the one of a
dictionary that serves the requests one after the other, and every connection is sent the replies
to its own requests, in their order. -/
theorem reactor_refines_dictionary (family : Family) (policy : Policy) (maxItems : ℤ)
    {listeners : List ℕ} (hlisteners : ∀ fd ∈ listeners, fd < connectionSize)
    {rounds : List (List (Report F))}
    (hpossible : Along reactorRound PossibleRound
      (loopStart (Server.start F maxItems policy) listeners) rounds)
    (hfamily : ∀ reports ∈ rounds, ∀ report ∈ reports, ForFamily family report) :
    ∃ final parts,
      run reactorRound (loopStart (Server.start F maxItems policy) listeners) rounds =
        some (final, parts) ∧
      Explains (dictionaryService family) Packet.tokens (Hub.empty ℕ fun _ => none) parts.flatten
        { store := textHeld family final.reactor.server.engines
          session := sessionOf final.reactor } ∧
      ∀ fd, Orderly (pendingOn final fd) (exchangesOn fd parts.flatten) := by
  obtain ⟨final, parts, hrun, hadmitted⟩ := rounds_respond
    (serving_start (Server.start F maxItems policy) listeners)
    (responsive_start maxItems policy hlisteners) hpossible hfamily
  have hserving := serving_of_run _ listeners rounds hrun
  have hholds : Holds family policy (Server.start F maxItems policy) fun _ => none :=
    ⟨settled_start family maxItems policy, funext fun key => (textHeld_create family key).symm⟩
  obtain ⟨texts, ⟨-, rfl⟩, htexts⟩ := (commandService_simulates family policy).explains hholds
    (by simp [Hub.empty]) hadmitted hserving.explained
  exact ⟨final, parts, hrun, htexts, hserving.orderly⟩

end Progress

theorem forFamily_typed {family : Family} {fd : ℕ} {text : String}
    (htext : ascii text ≠ [] ∧ (ascii text).length ≤ messageLimit ∧ SevenBit family (ascii text) ∧
      InFamily family (Packet.mk (Env.quiet Float32) (ascii text)).tokens) :
    ForFamily family (typedReport fd text) := by
  rintro env other hdata
  obtain ⟨rfl, rfl⟩ := Input.data.inj (Option.some.inj hdata)
  exact ⟨htext.2.1, rfl, htext.1, htext.2.2.1, htext.2.2.2⟩

theorem forFamily_other {family : Family} {report : Report Float32}
    (hother : ∀ env bytes, report.readable ≠ some (.data env bytes)) : ForFamily family report :=
  fun env bytes hdata => absurd hdata (hother env bytes)

theorem reactor_refines_dictionary_twoClients :
    ∃ final parts, run reactorRound (loopStart (Server.start Float32 1000 .arc) [3]) twoClients =
        some (final, parts) ∧
      Explains (dictionaryService .hash) Packet.tokens (Hub.empty ℕ fun _ => none) parts.flatten
        { store := textHeld .hash final.reactor.server.engines
          session := sessionOf final.reactor } ∧
      ∀ fd, Orderly (pendingOn final fd) (exchangesOn fd parts.flatten) := by
  have hpossible : Along reactorRound PossibleRound
      (loopStart (Server.start Float32 1000 .arc) [3]) twoClients := by
    decide +kernel
  refine reactor_refines_dictionary .hash .arc 1000 (by decide) hpossible ?_
  simp only [twoClients, forall_mem_cons, not_mem_nil, false_imp_iff, implies_true, and_true]
  refine ⟨forFamily_other (by simp), ⟨forFamily_other (by simp), forFamily_typed ?_⟩,
    ⟨forFamily_other (by simp), forFamily_typed ?_⟩,
    ⟨forFamily_other (by simp), forFamily_typed ?_⟩,
    ⟨forFamily_typed ?_, forFamily_other (by simp)⟩, forFamily_other (by simp)⟩ <;>
    decide +kernel

end LiteMultiKV.Reactor
