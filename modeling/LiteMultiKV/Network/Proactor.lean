import LiteMultiKV.Core.Run
import LiteMultiKV.Protocol.Requests

/-!
# The proactor

One loop submits the operations it has prepared, waits for completions and
handles a batch of them.  All receives of all connections store into one
buffer, and the replies are built in one array which the kernel reads at some
time after the next submission.  The model interleaves the steps of the loop
with those of the kernel: an accept gets a connection, a receive stores its
bytes, a send reads its bytes, a completion is queued.

If no receive stores its bytes while an earlier request waits to be handled or
while a longer one has left bytes behind them, if no request is handled while an
earlier reply waits to be read, and if the sends are not cut short, then the
handler is called with exactly the requests that arrived, in the order of their
arrival, and what is sent are exactly its replies to these bytes alone, each on the
connection of its request.
-/

namespace LiteMultiKV.Network

open List CText Run

/-- `BUFFER_LENGTH`. -/
def bufferLength : ℕ := 1024

/-- `MAX_CONNECTIONS`. -/
def maxConnections : ℤ := 1024

/-- The size of the array `cqes`. -/
def batchLength : ℕ := 128

/-- A submission queue entry: `set_event_accept`, `set_event_recv` or `set_event_send`. -/
inductive Sqe where
  | accept
  | recv (fd : ℤ)
  | send (fd : ℤ) (length : ℤ)
  deriving DecidableEq

/-- An operation in the kernel; it has a result when it is done with its buffer. -/
structure Posted where
  sqe : Sqe
  result : Option ℤ
  deriving DecidableEq

/-- A completion: the data of the entry that it belongs to and its result. -/
structure Cqe where
  sqe : Sqe
  res : ℤ
  deriving DecidableEq

/-- Where the loop stands. -/
inductive Phase where
  | submitting
  | waiting
  | handling (batch : List Cqe)
  deriving DecidableEq

/-- What a call of the handler leaves: the store, the message buffer, the response array,
the length it returns and the namespace. -/
structure Handled (S : Type) where
  store : S
  buffer : List Byte
  response : List Byte
  length : ℤ
  ns : Option CStr

/-- `kvs_handler`; it has no result when it faults. -/
abbrev Handler (E S : Type) :=
  E → S → List Byte → ℤ → Option CStr → Option (Handled S)

structure Proactor (S : Type) where
  store : S
  buffer : List Byte
  response : List Byte
  connectionNamespaces : ℤ → CStr
  prepared : List Sqe
  posted : List Posted
  completed : List Cqe
  phase : Phase

/-- `proactor_start` before its loop. -/
def proactorStart {S : Type} (store : S) : Proactor S where
  store := store
  buffer := replicate bufferLength 0
  response := replicate bufferLength 0
  connectionNamespaces := fun _ => lit ""
  prepared := [.accept]
  posted := []
  completed := []
  phase := .submitting

/-- One call of the handler. -/
structure HandlerCall (E S : Type) where
  fd : ℤ
  env : E
  store : S
  buffer : List Byte
  length : ℤ
  ns : Option CStr
  result : Handled S

/-- What can be seen of a step. -/
inductive Observation (E S : Type) where
  | received (fd : ℤ) (bytes : List Byte)
  | called (call : HandlerCall E S)
  | sent (fd : ℤ) (bytes : List Byte)

/-- A step of the loop or of the kernel. -/
inductive Event (E : Type) where
  | submit
  | peek
  | handle (env : E)
  | resolve (index : ℕ) (res : ℤ)
  | store (index : ℕ) (bytes : List Byte)
  | take (index : ℕ) (count : ℕ)
  | complete (index : ℕ)

section Steps

variable {E S : Type}

/-- `init_connection_namespace` and its copy `cleanup_connection_namespace`. -/
def initConnectionNamespace (namespaces : ℤ → CStr) (fd : ℤ) : ℤ → CStr :=
  if 0 ≤ fd ∧ fd < maxConnections then Function.update namespaces fd (lit "default")
  else namespaces

def getConnectionNamespace (namespaces : ℤ → CStr) (fd : ℤ) : Option CStr :=
  if 0 ≤ fd ∧ fd < maxConnections then some (namespaces fd) else none

/-- The handler writes through the pointer it was given. -/
def putConnectionNamespace (namespaces : ℤ → CStr) (fd : ℤ) : Option CStr → ℤ → CStr
  | some ns => Function.update namespaces fd ns
  | none => namespaces

/-- The batch that is left to handle; after the last entry the loop submits again. -/
def Phase.after : List Cqe → Phase
  | [] => .submitting
  | batch => .handling batch

/-- The body of the inner loop. -/
def handleEntry (handler : Handler E S) (env : E) (entry : Cqe) (state : Proactor S) :
    Option (Proactor S × Option (Observation E S)) :=
  match entry.sqe with
  | .accept =>
      some ({ state with
        prepared := state.prepared ++ [.accept, .recv entry.res]
        connectionNamespaces :=
          initConnectionNamespace state.connectionNamespaces entry.res }, none)
  | .recv fd =>
      if entry.res = 0 then
        some ({ state with
          connectionNamespaces := initConnectionNamespace state.connectionNamespaces fd }, none)
      else if 0 < entry.res then do
        let ns := getConnectionNamespace state.connectionNamespaces fd
        let result ← handler env state.store state.buffer entry.res ns
        return ({ state with
          store := result.store
          buffer := result.buffer
          response := result.response
          connectionNamespaces :=
            putConnectionNamespace state.connectionNamespaces fd result.ns
          prepared := state.prepared ++ [.send fd result.length] },
          some (.called
            { fd := fd, env := env, store := state.store, buffer := state.buffer,
              length := entry.res, ns := ns, result := result }))
      else some (state, none)
  | .send fd _ => some ({ state with prepared := state.prepared ++ [.recv fd] }, none)

/-- A receive stores one byte at least and fits its buffer; one that ends without bytes is
resolved with a result that is not positive.  A send reads a part of its bytes, which lie in
the response array; what it could not send counts as none. -/
def proactorStep (handler : Handler E S) (state : Proactor S) :
    Event E → Option (Proactor S × Option (Observation E S))
  | .submit =>
      match state.phase with
      | .submitting =>
          some ({ state with
            prepared := []
            posted := state.posted ++ state.prepared.map fun sqe => ⟨sqe, none⟩
            phase := .waiting }, none)
      | _ => none
  | .peek =>
      match state.phase with
      | .waiting =>
          some ({ state with
            completed := state.completed.drop batchLength
            phase := .after (state.completed.take batchLength) }, none)
      | _ => none
  | .handle env =>
      match state.phase with
      | .handling (entry :: batch) =>
          handleEntry handler env entry { state with phase := .after batch }
      | _ => none
  | .resolve index res =>
      match state.posted[index]? with
      | some ⟨.accept, none⟩ =>
          some ({ state with posted := state.posted.set index ⟨.accept, some res⟩ }, none)
      | some ⟨.recv fd, none⟩ =>
          if res ≤ 0 then
            some ({ state with posted := state.posted.set index ⟨.recv fd, some res⟩ }, none)
          else none
      | _ => none
  | .store index bytes =>
      match state.posted[index]? with
      | some ⟨.recv fd, none⟩ =>
          if bytes ≠ [] ∧ bytes.length ≤ bufferLength then
            some ({ state with
              posted := state.posted.set index ⟨.recv fd, some bytes.length⟩
              buffer := bytes ++ state.buffer.drop bytes.length },
              some (.received fd bytes))
          else none
      | _ => none
  | .take index count =>
      match state.posted[index]? with
      | some ⟨.send fd length, none⟩ =>
          if count ≤ length ∧ count ≤ state.response.length then
            some ({ state with
              posted := state.posted.set index ⟨.send fd length, some count⟩ },
              some (.sent fd (state.response.take count)))
          else none
      | _ => none
  | .complete index =>
      match state.posted[index]? with
      | some ⟨sqe, some res⟩ =>
          some ({ state with
            posted := state.posted.eraseIdx index
            completed := state.completed ++ [⟨sqe, res⟩] }, none)
      | _ => none

/-! ## What a run shows -/

/-- The requests that arrived, each with its connection. -/
def received (observations : List (Option (Observation E S))) : List (ℤ × List Byte) :=
  observations.filterMap fun
    | some (.received fd bytes) => some (fd, bytes)
    | _ => none

def calls (observations : List (Option (Observation E S))) : List (HandlerCall E S) :=
  observations.filterMap fun
    | some (.called call) => some call
    | _ => none

def sent (observations : List (Option (Observation E S))) : List (ℤ × List Byte) :=
  observations.filterMap fun
    | some (.sent fd bytes) => some (fd, bytes)
    | _ => none

/-- The bytes the handler was told to read. -/
def HandlerCall.request (call : HandlerCall E S) : ℤ × List Byte :=
  (call.fd, call.buffer.take call.length.toNat)

def HandlerCall.reply (call : HandlerCall E S) : ℤ × List Byte :=
  (call.fd, call.result.response.take call.result.length.toNat)

/-- The message buffer when it holds these bytes and nothing else. -/
def onlyBytes (bytes : List Byte) : List Byte :=
  bytes ++ replicate (bufferLength - bytes.length) 0

/-- The result is the handler's answer to the bytes of the request alone. -/
def HandlerCall.Answered (handler : Handler E S) (call : HandlerCall E S) : Prop :=
  handler call.env call.store (onlyBytes call.request.2) call.request.2.length call.ns =
    some call.result

/-- The calls are made one after the other, each in the store the one before it left, and
each is answered for its own bytes. -/
def CallsFrom (handler : Handler E S) : S → List (HandlerCall E S) → S → Prop
  | store, [], final => final = store
  | store, call :: calls, final =>
      call.store = store ∧ call.Answered handler ∧
        CallsFrom handler call.result.store calls final

/-! ## What is under way -/

/-- The connection and the length of a request that waits to be handled. -/
def Cqe.request (entry : Cqe) : Option (ℤ × ℤ) :=
  match entry.sqe with
  | .recv fd => if 0 < entry.res then some (fd, entry.res) else none
  | _ => none

def Posted.request (operation : Posted) : Option (ℤ × ℤ) :=
  operation.result.bind fun res => Cqe.request ⟨operation.sqe, res⟩

/-- The connection and the length of a reply that waits to be read. -/
def Sqe.reply : Sqe → Option (ℤ × ℤ)
  | .send fd length => some (fd, length)
  | _ => none

def Posted.reply (operation : Posted) : Option (ℤ × ℤ) :=
  if operation.result = none then operation.sqe.reply else none

def Phase.batch : Phase → List Cqe
  | .handling batch => batch
  | _ => []

/-- The requests that are stored and not yet handled. -/
def Proactor.unhandled (state : Proactor S) : List (ℤ × ℤ) :=
  state.phase.batch.filterMap Cqe.request ++ state.completed.filterMap Cqe.request ++
    state.posted.filterMap Posted.request

/-- The replies that are written and not yet read. -/
def Proactor.untaken (state : Proactor S) : List (ℤ × ℤ) :=
  state.posted.filterMap Posted.reply ++ state.prepared.filterMap Sqe.reply

/-- The unhandled requests as they stand in the buffer. -/
def Proactor.requestsInBuffer (state : Proactor S) : List (ℤ × List Byte) :=
  state.unhandled.map fun request => (request.1, state.buffer.take request.2.toNat)

/-- The untaken replies as they stand in the response array. -/
def Proactor.repliesInResponse (state : Proactor S) : List (ℤ × List Byte) :=
  state.untaken.map fun reply => (reply.1, state.response.take reply.2.toNat)

/-- When a receive stores its bytes the buffer holds no other request, and nothing of an
earlier one behind them; the response array holds no other reply when a request is handled,
and a send is not cut short. -/
def Undisturbed (state : Proactor S) : Event E → Prop
  | .store _ bytes => state.unhandled = [] ∧
      state.buffer.drop bytes.length = replicate (bufferLength - bytes.length) 0
  | .handle _ => ∀ entry ∈ state.phase.batch.head?, entry.request ≠ none → state.untaken = []
  | .take index count => ∀ operation ∈ state.posted[index]?, ∀ reply ∈ operation.reply,
      reply.2 = count
  | _ => True

instance (state : Proactor S) (event : Event E) : Decidable (Undisturbed state event) :=
  match event with
  | .store _ bytes => inferInstanceAs (Decidable (state.unhandled = [] ∧
      state.buffer.drop bytes.length = replicate (bufferLength - bytes.length) 0))
  | .handle _ => inferInstanceAs (Decidable (∀ entry ∈ state.phase.batch.head?,
      entry.request ≠ none → state.untaken = []))
  | .take index count => inferInstanceAs (Decidable (∀ operation ∈ state.posted[index]?,
      ∀ reply ∈ operation.reply, reply.2 = count))
  | .submit => isTrue trivial
  | .peek => isTrue trivial
  | .resolve _ _ => isTrue trivial
  | .complete _ => isTrue trivial

/-- The requests that arrived are the ones handled and, at most, one in the buffer; the
replies of the handler are the ones sent and, at most, one in the response array. -/
structure Matched (handler : Handler E S) (store : S) (state : Proactor S)
    (observations : List (Option (Observation E S))) : Prop where
  calls_from : CallsFrom handler store (calls observations) state.store
  requests_eq : received observations =
    (calls observations).map HandlerCall.request ++ state.requestsInBuffer
  replies_eq : (calls observations).map HandlerCall.reply =
    sent observations ++ state.repliesInResponse
  buffer_eq : ∀ request ∈ state.unhandled, ∃ bytes : List Byte,
    request.2 = bytes.length ∧ state.buffer = onlyBytes bytes
  one_request : state.unhandled.length ≤ 1
  one_reply : state.untaken.length ≤ 1

/-! ## What a step can do -/

/-- The effects of the steps on the requests and replies that are under way. -/
inductive Effect (handler : Handler E S) (state after : Proactor S) :
    Event E → Option (Observation E S) → Prop
  | quiet {event : Event E} (hstore : after.store = state.store)
      (hbuffer : after.buffer = state.buffer) (hresponse : after.response = state.response)
      (hunhandled : after.unhandled.Perm state.unhandled)
      (huntaken : after.untaken.Perm state.untaken) : Effect handler state after event none
  | arrived {index : ℕ} {fd : ℤ} {bytes : List Byte} (hstore : after.store = state.store)
      (hbuffer : after.buffer = bytes ++ state.buffer.drop bytes.length)
      (hresponse : after.response = state.response)
      (hunhandled : after.unhandled.Perm ((fd, (bytes.length : ℤ)) :: state.unhandled))
      (huntaken : after.untaken.Perm state.untaken) :
      Effect handler state after (.store index bytes) (some (.received fd bytes))
  | served {env : E} {call : HandlerCall E S} {entry : Cqe}
      (hentry : entry ∈ state.phase.batch.head?) (hrequest : entry.request ≠ none)
      (hcall : handler call.env call.store call.buffer call.length call.ns = some call.result)
      (hbefore : call.store = state.store) (hread : call.buffer = state.buffer)
      (hstore : after.store = call.result.store)
      (hresponse : after.response = call.result.response)
      (hunhandled : state.unhandled.Perm ((call.fd, call.length) :: after.unhandled))
      (huntaken : after.untaken.Perm ((call.fd, call.result.length) :: state.untaken)) :
      Effect handler state after (.handle env) (some (.called call))
  | delivered {index count : ℕ} {fd length : ℤ} {operation : Posted}
      (hoperation : operation ∈ state.posted[index]?)
      (hreply : (fd, length) ∈ operation.reply) (hstore : after.store = state.store)
      (hbuffer : after.buffer = state.buffer) (hresponse : after.response = state.response)
      (hunhandled : after.unhandled.Perm state.unhandled)
      (huntaken : state.untaken.Perm ((fd, length) :: after.untaken)) :
      Effect handler state after (.take index count)
        (some (.sent fd (state.response.take count)))

variable {handler : Handler E S} {state after : Proactor S} {event : Event E}
variable {seen : Option (Observation E S)}

/-- What replacing or removing one member does to what is counted of a list. -/
theorem exists_others {A B : Type} {list : List A} {index : ℕ} {item : A}
    (hitem : list[index]? = some item) (view : A → Option B) :
    ∃ others, (list.filterMap view).Perm ((view item).toList ++ others) ∧
      (∀ other, ((list.set index other).filterMap view).Perm ((view other).toList ++ others)) ∧
      ((list.eraseIdx index).filterMap view).Perm others := by
  obtain ⟨hlt, rfl⟩ := List.getElem?_eq_some_iff.1 hitem
  have hview : ∀ other, ((list.take index ++ other :: list.drop (index + 1)).filterMap view).Perm
      ((view other).toList ++ (list.take index ++ list.drop (index + 1)).filterMap view) := by
    intro other
    refine (perm_middle.filterMap view).trans (.of_eq ?_)
    cases hother : view other <;> simp [hother]
  refine ⟨(list.take index ++ list.drop (index + 1)).filterMap view, ?_, fun other => ?_, ?_⟩
  · simpa using hview (list.get ⟨index, hlt⟩)
  · rw [set_eq_take_append_cons_drop, if_pos hlt]
    exact hview other
  · rw [eraseIdx_eq_take_drop_succ]

/-- A member that is not counted is replaced by one that is not counted. -/
theorem perm_set_uncounted {A B : Type} {list : List A} {index : ℕ} {item other : A}
    (hitem : list[index]? = some item) {view : A → Option B} (hold : view item = none)
    (hnew : view other = none) :
    ((list.set index other).filterMap view).Perm (list.filterMap view) := by
  obtain ⟨others, hbefore, hset, -⟩ := exists_others hitem view
  have hafter := hset other
  rw [hold] at hbefore
  rw [hnew] at hafter
  exact hafter.trans hbefore.symm

@[simp]
theorem batch_after (batch : List Cqe) : (Phase.after batch).batch = batch := by
  cases batch <;> rfl

theorem effect_submit (hstep : proactorStep handler state .submit = some (after, seen)) :
    Effect handler state after .submit seen := by
  simp only [proactorStep] at hstep
  split at hstep
  case h_1 hphase =>
      simp only [Option.some.injEq, Prod.mk.injEq] at hstep
      obtain ⟨rfl, rfl⟩ := hstep
      refine .quiet rfl rfl rfl (.of_eq ?_) (.of_eq ?_)
      · simp [Proactor.unhandled, hphase, Phase.batch, filterMap_map, Function.comp_def,
          Posted.request]
      · simp [Proactor.untaken, filterMap_map, Function.comp_def, Posted.reply]
  case h_2 => cases hstep

theorem effect_peek (hstep : proactorStep handler state .peek = some (after, seen)) :
    Effect handler state after .peek seen := by
  simp only [proactorStep] at hstep
  split at hstep
  case h_1 hphase =>
      simp only [Option.some.injEq, Prod.mk.injEq] at hstep
      obtain ⟨rfl, rfl⟩ := hstep
      have hbatch : state.phase.batch = [] := by rw [hphase]; rfl
      refine .quiet rfl rfl rfl (.of_eq ?_) (.refl _)
      simp only [Proactor.unhandled, batch_after, hbatch, filterMap_nil, nil_append,
        ← filterMap_append, take_append_drop]
  case h_2 => cases hstep

theorem effect_handle {env : E}
    (hstep : proactorStep handler state (.handle env) = some (after, seen)) :
    Effect handler state after (.handle env) seen := by
  simp only [proactorStep] at hstep
  split at hstep
  case h_1 entry batch hphase =>
      have hbatch : state.phase.batch = entry :: batch := by rw [hphase]; rfl
      obtain ⟨sqe, res⟩ := entry
      cases sqe with
      | accept =>
          simp only [handleEntry, Option.some.injEq, Prod.mk.injEq] at hstep
          obtain ⟨rfl, rfl⟩ := hstep
          refine .quiet rfl rfl rfl (.of_eq ?_) (.of_eq ?_)
          · simp [Proactor.unhandled, hbatch, filterMap_cons, Cqe.request]
          · simp [Proactor.untaken, Sqe.reply]
      | send fd length =>
          simp only [handleEntry, Option.some.injEq, Prod.mk.injEq] at hstep
          obtain ⟨rfl, rfl⟩ := hstep
          refine .quiet rfl rfl rfl (.of_eq ?_) (.of_eq ?_)
          · simp [Proactor.unhandled, hbatch, filterMap_cons, Cqe.request]
          · simp [Proactor.untaken, Sqe.reply]
      | recv fd =>
          simp only [handleEntry] at hstep
          split at hstep
          case isTrue hzero =>
              simp only [Option.some.injEq, Prod.mk.injEq] at hstep
              obtain ⟨rfl, rfl⟩ := hstep
              refine .quiet rfl rfl rfl (.of_eq ?_) (.refl _)
              simp [Proactor.unhandled, hbatch, Cqe.request, hzero]
          case isFalse =>
              split at hstep
              case isTrue hpositive =>
                  obtain ⟨result, hresult, hstep⟩ := Option.bind_eq_some_iff.1 hstep
                  simp only [Option.pure_def, Option.some.injEq, Prod.mk.injEq] at hstep
                  obtain ⟨rfl, rfl⟩ := hstep
                  have hentry : (⟨.recv fd, res⟩ : Cqe) ∈ state.phase.batch.head? := by
                    simp [hbatch]
                  refine .served hentry (by simp [Cqe.request, hpositive]) hresult rfl rfl rfl
                    rfl ?_ ?_
                  · simp [Proactor.unhandled, hbatch, Cqe.request, hpositive]
                  · simp only [Proactor.untaken, filterMap_append, filterMap_cons, Sqe.reply,
                      filterMap_nil, ← append_assoc]
                    exact perm_append_singleton _ _
              case isFalse hnegative =>
                  simp only [Option.some.injEq, Prod.mk.injEq] at hstep
                  obtain ⟨rfl, rfl⟩ := hstep
                  refine .quiet rfl rfl rfl (.of_eq ?_) (.refl _)
                  simp [Proactor.unhandled, hbatch, Cqe.request, hnegative]
  case h_2 => cases hstep

theorem effect_resolve {index : ℕ} {res : ℤ}
    (hstep : proactorStep handler state (.resolve index res) = some (after, seen)) :
    Effect handler state after (.resolve index res) seen := by
  simp only [proactorStep] at hstep
  split at hstep
  case h_1 hposted =>
      simp only [Option.some.injEq, Prod.mk.injEq] at hstep
      obtain ⟨rfl, rfl⟩ := hstep
      exact .quiet rfl rfl rfl ((perm_set_uncounted hposted rfl rfl).append_left _)
        ((perm_set_uncounted hposted rfl rfl).append_right _)
  case h_2 fd hposted =>
      split at hstep
      case isTrue hres =>
          simp only [Option.some.injEq, Prod.mk.injEq] at hstep
          obtain ⟨rfl, rfl⟩ := hstep
          have hnone : Posted.request ⟨.recv fd, some res⟩ = none := by
            simp [Posted.request, Cqe.request, hres]
          exact .quiet rfl rfl rfl ((perm_set_uncounted hposted rfl hnone).append_left _)
            ((perm_set_uncounted hposted rfl rfl).append_right _)
      case isFalse => cases hstep
  case h_3 => cases hstep

theorem effect_store {index : ℕ} {bytes : List Byte}
    (hstep : proactorStep handler state (.store index bytes) = some (after, seen)) :
    Effect handler state after (.store index bytes) seen := by
  simp only [proactorStep] at hstep
  split at hstep
  case h_1 fd hposted =>
      split at hstep
      case isTrue hbytes =>
          simp only [Option.some.injEq, Prod.mk.injEq] at hstep
          obtain ⟨rfl, rfl⟩ := hstep
          have hpositive : 0 < bytes.length := length_pos_iff.2 hbytes.1
          have hrequest : Posted.request ⟨.recv fd, some (bytes.length : ℤ)⟩ =
              some (fd, (bytes.length : ℤ)) := by
            simp [Posted.request, Cqe.request, hpositive]
          obtain ⟨others, hbefore, hset, -⟩ := exists_others hposted Posted.request
          have hafter := hset ⟨.recv fd, some (bytes.length : ℤ)⟩
          rw [hrequest] at hafter
          refine .arrived rfl rfl rfl ?_ ((perm_set_uncounted hposted rfl rfl).append_right _)
          exact (hafter.append_left _).trans
            (perm_middle.trans ((hbefore.append_left _).symm.cons _))
      case isFalse => cases hstep
  case h_2 => cases hstep

theorem effect_take {index count : ℕ}
    (hstep : proactorStep handler state (.take index count) = some (after, seen)) :
    Effect handler state after (.take index count) seen := by
  simp only [proactorStep] at hstep
  split at hstep
  case h_1 fd length hposted =>
      split at hstep
      case isTrue hcount =>
          simp only [Option.some.injEq, Prod.mk.injEq] at hstep
          obtain ⟨rfl, rfl⟩ := hstep
          obtain ⟨others, hbefore, hset, -⟩ := exists_others hposted Posted.reply
          have hafter := hset ⟨.send fd length, some (count : ℤ)⟩
          refine .delivered hposted rfl rfl rfl rfl
            ((perm_set_uncounted hposted rfl rfl).append_left _) ?_
          exact (hbefore.append_right _).trans ((hafter.append_right _).symm.cons _)
      case isFalse => cases hstep
  case h_2 => cases hstep

theorem effect_complete {index : ℕ}
    (hstep : proactorStep handler state (.complete index) = some (after, seen)) :
    Effect handler state after (.complete index) seen := by
  simp only [proactorStep] at hstep
  split at hstep
  case h_1 sqe res hposted =>
      simp only [Option.some.injEq, Prod.mk.injEq] at hstep
      obtain ⟨rfl, rfl⟩ := hstep
      obtain ⟨others, hbefore, -, hafter⟩ := exists_others hposted Posted.request
      obtain ⟨unread, hunread, -, hunreadAfter⟩ := exists_others hposted Posted.reply
      have hlast : [(⟨sqe, res⟩ : Cqe)].filterMap Cqe.request =
          (Posted.request ⟨sqe, some res⟩).toList := by
        cases hrequest : Cqe.request ⟨sqe, res⟩ <;> simp [Posted.request, hrequest]
      refine .quiet rfl rfl rfl ?_ ((hunreadAfter.trans hunread.symm).append_right _)
      -- the operation moves from among the posted ones to the end of the completed ones
      simp only [Proactor.unhandled, filterMap_append, hlast, append_assoc]
      exact ((hafter.append_left _).trans hbefore.symm).append_left _ |>.append_left _
  case h_2 => cases hstep

/-- The one place where the step function is unfolded. -/
theorem effect_of_step (hstep : proactorStep handler state event = some (after, seen)) :
    Effect handler state after event seen := by
  cases event with
  | submit => exact effect_submit hstep
  | peek => exact effect_peek hstep
  | handle env => exact effect_handle hstep
  | resolve index res => exact effect_resolve hstep
  | store index bytes => exact effect_store hstep
  | take index count => exact effect_take hstep
  | complete index => exact effect_complete hstep

/-! ## Requests and replies match -/

theorem CallsFrom.append_call {store : S} {past : List (HandlerCall E S)}
    {call : HandlerCall E S} (hpast : CallsFrom handler store past call.store)
    (hcall : call.Answered handler) :
    CallsFrom handler store (past ++ [call]) call.result.store := by
  induction past generalizing store with
  | nil => exact ⟨hpast, hcall, rfl⟩
  | cons first past ih => exact ⟨hpast.1, hpast.2.1, ih hpast.2.2⟩

theorem eq_of_perm {A : Type} {left right : List A} (hperm : left.Perm right)
    (hlength : right.length ≤ 1) : left = right := by
  match right, hlength with
  | [], _ => exact hperm.eq_nil
  | [item], _ => exact hperm.eq_singleton

theorem eq_nil_of_perm_cons {A : Type} {list others : List A} {item : A}
    (hperm : list.Perm (item :: others)) (hlength : list.length ≤ 1) :
    list = [item] ∧ others = [] := by
  have hothers : others = [] := by
    have := hperm.length_eq
    rw [length_cons] at this
    exact length_eq_zero_iff.1 (by omega)
  subst hothers
  exact ⟨hperm.eq_singleton, rfl⟩

theorem matched_start (handler : Handler E S) (store : S) :
    Matched handler store (proactorStart store) [] :=
  ⟨rfl, rfl, rfl, by simp [Proactor.unhandled, proactorStart, Phase.batch], Nat.zero_le 1,
    Nat.zero_le 1⟩

/-- A handler that reads a buffer with one request answers the bytes of that request. -/
theorem HandlerCall.answered {call : HandlerCall E S} {bytes : List Byte}
    (hcall : handler call.env call.store call.buffer call.length call.ns = some call.result)
    (hlength : call.length = bytes.length) (hbuffer : call.buffer = onlyBytes bytes) :
    call.Answered handler := by
  have hrequest : call.request.2 = bytes := by
    simp [HandlerCall.request, hlength, hbuffer, onlyBytes]
  rw [HandlerCall.Answered, hrequest, ← hbuffer, ← hlength]
  exact hcall

theorem Matched.step {store : S} {past : List (Option (Observation E S))}
    (hmatched : Matched handler store state past) (hundisturbed : Undisturbed state event)
    (hstep : proactorStep handler state event = some (after, seen)) :
    Matched handler store after (past ++ [seen]) := by
  obtain ⟨hcalls, hrequests, hreplies, honly, hone, honeReply⟩ := hmatched
  cases effect_of_step hstep with
  | quiet hstore hbuffer hresponse hunhandled huntaken =>
      have hsame := eq_of_perm hunhandled hone
      have hsameReply := eq_of_perm huntaken honeReply
      refine ⟨?_, ?_, ?_, hsame ▸ hbuffer ▸ honly, hsame ▸ hone, hsameReply ▸ honeReply⟩
      · simpa [calls, hstore] using hcalls
      · simpa [received, calls, Proactor.requestsInBuffer, hsame, hbuffer] using hrequests
      · simpa [calls, sent, Proactor.repliesInResponse, hsameReply, hresponse] using hreplies
  | @arrived index fd bytes hstore hbuffer hresponse hunhandled huntaken =>
      obtain ⟨hnone, hclean⟩ := hundisturbed
      rw [hnone] at hunhandled
      rw [hclean] at hbuffer
      have hnow := hunhandled.eq_singleton
      have hsameReply := eq_of_perm huntaken honeReply
      refine ⟨?_, ?_, ?_, ?_, by simp [hnow], hsameReply ▸ honeReply⟩
      · simpa [calls, hstore] using hcalls
      · simp only [Proactor.requestsInBuffer, hnone, map_nil, append_nil] at hrequests
        simp only [Proactor.requestsInBuffer, hnow, hbuffer, map_cons, map_nil, Int.toNat_natCast,
          take_left']
        simpa [received, calls] using hrequests
      · simpa [calls, sent, Proactor.repliesInResponse, hsameReply, hresponse] using hreplies
      · intro request hrequest
        obtain rfl : request = (fd, (bytes.length : ℤ)) := by simpa [hnow] using hrequest
        exact ⟨bytes, rfl, hbuffer⟩
  | @served env call entry hentry hrequest hcall hbefore hread hstore hresponse hunhandled
      huntaken =>
      have hnone : state.untaken = [] := hundisturbed entry hentry hrequest
      obtain ⟨hbeforeOne, hafterNone⟩ := eq_nil_of_perm_cons hunhandled hone
      rw [hnone] at huntaken
      have hnow := huntaken.eq_singleton
      obtain ⟨bytes, hlength, hbuffer⟩ := honly (call.fd, call.length) (by simp [hbeforeOne])
      refine ⟨?_, ?_, ?_, by simp [hafterNone], by simp [hafterNone], by simp [hnow]⟩
      · rw [← hbefore] at hcalls
        have hanswered := HandlerCall.answered hcall hlength (hread.trans hbuffer)
        simpa [calls, hstore] using hcalls.append_call hanswered
      · simp only [Proactor.requestsInBuffer, hbeforeOne, map_cons, map_nil] at hrequests
        simpa [received, calls, Proactor.requestsInBuffer, hafterNone, HandlerCall.request,
          hread] using hrequests
      · simp only [Proactor.repliesInResponse, hnone, map_nil, append_nil] at hreplies
        simpa [calls, sent, Proactor.repliesInResponse, hnow, HandlerCall.reply, hresponse]
          using hreplies
  | @delivered index count fd length operation hoperation hreply hstore hbuffer hresponse
      hunhandled huntaken =>
      have hwhole : length = count := hundisturbed operation hoperation (fd, length) hreply
      have hsame := eq_of_perm hunhandled hone
      obtain ⟨hbeforeOne, hafterNone⟩ := eq_nil_of_perm_cons huntaken honeReply
      refine ⟨?_, ?_, ?_, hsame ▸ hbuffer ▸ honly, hsame ▸ hone, by simp [hafterNone]⟩
      · simpa [calls, hstore] using hcalls
      · simpa [received, calls, Proactor.requestsInBuffer, hsame, hbuffer] using hrequests
      · simp only [Proactor.repliesInResponse, hbeforeOne, map_cons, map_nil, hwhole,
          Int.toNat_natCast] at hreplies
        simpa [calls, sent, Proactor.repliesInResponse, hafterNone] using hreplies

/-- In an undisturbed run, in whatever order the kernel completes the operations, requests
and replies match in every state reached. -/
theorem proactor_matches (handler : Handler E S) (store : S) (events : List (Event E))
    (hundisturbed : Along (proactorStep handler) Undisturbed (proactorStart store) events) :
    ∀ final observations,
      run (proactorStep handler) (proactorStart store) events = some (final, observations) →
        Matched handler store final observations := by
  intro final observations hrun
  have hmatched := run_history_along
    (fun _ _ _ _ _ hmatched hundisturbed hstep => Matched.step hmatched hundisturbed hstep)
    (matched_start handler store) hundisturbed hrun
  simpa using hmatched

end Steps

/-! ## The server behind the proactor -/

open Files Numeric LiteMultiKV.Protocol

/-- `kvs_protocol` as the handler.  It rewrites line ends and terminates tokens in the
message buffer; a null namespace and a reply beyond the response array have no result. -/
def kvsHandler {F : Type} [CFloat F] : Handler (Env F) (Server F × Disk) :=
  fun env state buffer length ns => do
    let ns ← ns
    let outcome ← kvsProtocol { env with disk := state.2 } buffer length ns state.1
    if outcome.reply.buffer.length ≤ bufferLength then
      return {
        store := (outcome.server, outcome.disk)
        buffer := (kvsSplitToken (stripLines length.toNat buffer)).1
        response := outcome.reply.buffer ++
          replicate (bufferLength - outcome.reply.buffer.length) 0
        length := outcome.reply.length
        ns := some outcome.ns }
    else none

/-- Two connections are accepted, one after the other, and wait for their first request. -/
def acceptTwo : List (Event (Env Float32)) :=
  [.submit, .resolve 0 5, .complete 0, .peek, .handle (Env.quiet Float32), .submit,
    .resolve 0 6, .complete 0, .peek, .handle (Env.quiet Float32), .submit]

/-- The reply to the first request is read before the second one, of the same length, is
stored. -/
def inTurn : List (Event (Env Float32)) :=
  acceptTwo ++
    [.store 0 (ascii "SET a 1"), .complete 0, .peek, .handle (Env.quiet Float32), .submit,
      .take 2 4, .complete 2, .store 1 (ascii "GET a\r\n"), .complete 1, .peek,
      .handle (Env.quiet Float32), .handle (Env.quiet Float32), .submit, .take 2 3]

/-- A server that has just been started, with an empty disk. -/
def emptyServer : Server Float32 × Disk :=
  (Server.start Float32 1000 .lru, Disk.empty)

theorem proactor_matches_inTurn :
    ∃ final observations,
      run (proactorStep kvsHandler) (proactorStart emptyServer) inTurn =
        some (final, observations) ∧
      sent observations = [(5, ascii "OK\r\n"), (6, ascii "1\r\n")] ∧
      Matched kvsHandler emptyServer final observations := by
  have hsent : (run (proactorStep kvsHandler) (proactorStart emptyServer) inTurn).map
      (fun result => sent result.2) = some [(5, ascii "OK\r\n"), (6, ascii "1\r\n")] := by
    decide +kernel
  obtain ⟨⟨final, observations⟩, hrun, hsent⟩ := Option.map_eq_some_iff.1 hsent
  exact ⟨final, observations, hrun, hsent,
    proactor_matches kvsHandler emptyServer inTurn (by decide +kernel) final observations hrun⟩

/-- Both requests are stored before either is handled, and both replies are written before
either is read. -/
def atOnce : List (Event (Env Float32)) :=
  acceptTwo ++
    [.store 0 (ascii "SET a 1\r\n"), .store 2 (ascii "GET a\r\n"), .complete 0, .complete 1,
      .peek, .handle (Env.quiet Float32), .handle (Env.quiet Float32), .submit, .take 1 10,
      .take 2 10]

/-- The request of connection 5 is lost: the handler answers it with the bytes of the request
of connection 6, which it then reads a second time as it has left them. -/
theorem overlapping_receives_lose_request :
    (run (proactorStep kvsHandler) (proactorStart emptyServer) atOnce).map (fun result =>
        (received result.2, (calls result.2).map HandlerCall.request, sent result.2)) =
      some ([(5, ascii "SET a 1\r\n"), (6, ascii "GET a\r\n")],
        [(5, ascii "GET a\r\n\r\n"), (6, ascii "GET\x00a\x00 ")],
        [(5, ascii "NO EXIST\r\n"), (6, ascii "NO EXIST\r\n")]) := by
  decide +kernel

end LiteMultiKV.Network
