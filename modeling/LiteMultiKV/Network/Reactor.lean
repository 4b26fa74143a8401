import LiteMultiKV.Core.Run
import LiteMultiKV.Protocol.Boundary

/-!
# The reactor

`reactor.c` keeps one entry for each descriptor in a table.  An accept fills in
the entry of the new descriptor, a receive hands its bytes to the command
handler together with pointers into the entry, and a disconnect closes the
descriptor and leaves the entry as it is.  The number of a closed descriptor is
given out again.

The namespace of a connection is a field of its entry that the handler writes.
The main result says under which namespace each request runs, whatever accepts,
requests and disconnects come before it.
-/

namespace LiteMultiKV.Reactor

open List CText Numeric LiteMultiKV.Protocol Run

/-- `BUFFER_LENGTH`. -/
def bufferLength : ℕ := 1024

/-- `CONNECTION_SIZE`. -/
def connectionSize : ℕ := 1024

/-- What `r_action` points to. -/
inductive Callback where
  | acceptCb
  | recvCb
  deriving DecidableEq

/-- The fields of `struct conn` that are used. -/
structure Conn where
  rAction : Option Callback
  rbuffer : List Byte
  rlength : ℕ
  wbuffer : List Byte
  wlength : ℤ
  ns : CStr

/-- An entry of the table as it is at the start. -/
def Conn.zero : Conn where
  rAction := none
  rbuffer := replicate bufferLength 0
  rlength := 0
  wbuffer := replicate bufferLength 0
  wlength := 0
  ns := lit ""

/-- The server, the table, and the descriptors that are open. -/
structure ReactorState (F : Type) where
  server : Server F
  connList : ℕ → Conn
  opened : ℕ → Bool

/-- `reactor_start` before its loop, with the descriptors it listens on. -/
def reactorStart {F : Type} (server : Server F) (listeners : List ℕ) :
    ReactorState F where
  server := server
  connList := fun fd =>
    if fd ∈ listeners then { Conn.zero with rAction := some .acceptCb } else Conn.zero
  opened := fun fd => fd ∈ listeners

/-- What a call of `accept` or `recv` returns; the handler is then called in the given
environment. -/
inductive Input (F : Type) where
  | client (fd : ℤ)
  | data (env : Env F) (bytes : List Byte)
  | ended

/-- An event that `epoll_wait` reports. -/
inductive Event (F : Type) where
  | input (fd : ℕ) (input : Input F)
  | output (fd : ℕ)

/-- What can be seen of a callback. -/
inductive Observation where
  | refused
  | accepted (fd : ℕ)
  | executed (fd : ℕ) (ns : CStr) (tokens : List CStr)
  | closed (fd : ℕ)
  | sent (fd : ℕ) (bytes : List Byte)
  deriving DecidableEq

section Callbacks

variable {F : Type}

def eventRegister (state : ReactorState F) (fd : ℕ) : Option (ReactorState F) :=
  if fd < connectionSize then
    let conn := { Conn.zero with rAction := some .recvCb, ns := lit "default" }
    some { state with connList := Function.update state.connList fd conn }
  else none

/-- The kernel gives out a descriptor that is not open. -/
def acceptCb (state : ReactorState F) (client : ℤ) : Option (ReactorState F × Observation) :=
  if client < 0 then some (state, .refused)
  else if state.opened client.toNat then none
  else (eventRegister state client.toNat).map fun state =>
    ({ state with opened := Function.update state.opened client.toNat true },
      .accepted client.toNat)

/-- The four bytes of an `int` that is not negative. -/
def intBytes (value : ℕ) : List Byte :=
  [UInt8.ofNat value, UInt8.ofNat (value / 2 ^ 8), UInt8.ofNat (value / 2 ^ 16),
    UInt8.ofNat (value / 2 ^ 24)]

/-- What the handler can read through the pointer to the buffer: `rlength` lies behind
it. -/
def Conn.memory (conn : Conn) : List Byte :=
  conn.rbuffer ++ intBytes conn.rlength

/-- The tokens of the request in the buffer. -/
def Conn.tokens (conn : Conn) : List CStr :=
  tokenStrings (stripLines conn.rlength conn.memory)

/-- The reply is written into `wbuffer`; one that is too long for it has no result.  The
tokenizer leaves its terminators in `rbuffer`. -/
def kvsRequest [CFloat F] (env : Env F) (server : Server F) (conn : Conn) :
    Option (Server F × Conn) := do
  let outcome ← kvsProtocol env conn.memory conn.rlength conn.ns server
  if outcome.reply.buffer.length ≤ bufferLength then
    return (outcome.server,
      { conn with
        rbuffer := (kvsSplitToken (stripLines conn.rlength conn.memory)).1.take bufferLength
        wbuffer := outcome.reply.buffer ++ conn.wbuffer.drop outcome.reply.buffer.length
        wlength := outcome.reply.length
        ns := outcome.ns })
  else none

/-- The entry with the bytes of a receive. -/
def Conn.store (conn : Conn) (bytes : List Byte) : Conn :=
  { conn with
    rbuffer := bytes ++ replicate (bufferLength - bytes.length) 0
    rlength := bytes.length }

/-- `recv_cb` after a receive of some bytes. -/
def recvCb [CFloat F] (env : Env F) (state : ReactorState F) (fd : ℕ) (bytes : List Byte) :
    Option (ReactorState F × Observation) :=
  if state.opened fd ∧ bytes ≠ [] ∧ bytes.length ≤ bufferLength then do
    let conn := (state.connList fd).store bytes
    let (server, after) ← kvsRequest env state.server conn
    return ({ state with server := server, connList := Function.update state.connList fd after },
      .executed fd conn.ns conn.tokens)
  else none

/-- `recv_cb` at the end of the stream or after an error: the namespace stays in the
table. -/
def disconnect (state : ReactorState F) (fd : ℕ) : ReactorState F × Observation :=
  ({ state with
    connList := Function.update state.connList fd
      { state.connList fd with rbuffer := replicate bufferLength 0 }
    opened := Function.update state.opened fd false }, .closed fd)

def sendCb (state : ReactorState F) (fd : ℕ) : Option (ReactorState F × Observation) :=
  let conn := state.connList fd
  if 0 ≤ conn.wlength ∧ conn.wlength ≤ bufferLength then
    some (state, .sent fd (conn.wbuffer.take conn.wlength.toNat))
  else none

/-- One round of the loop over the events.  An entry that no accept has filled in has no
callbacks; `event_register` sets both of them. -/
def reactorStep [CFloat F] (state : ReactorState F) :
    Event F → Option (ReactorState F × Observation)
  | .input fd input =>
      if fd < connectionSize then
        match (state.connList fd).rAction, input with
        | some .acceptCb, .client client => acceptCb state client
        | some .recvCb, .data env bytes => recvCb env state fd bytes
        | some .recvCb, .ended => some (disconnect state fd)
        | _, _ => none
      else none
  | .output fd =>
      if fd < connectionSize ∧ (state.connList fd).rAction = some .recvCb then sendCb state fd
      else none

end Callbacks

/-! ## Settings -/

/-- What a request can set the namespace to. -/
inductive Setting where
  | reset
  | name (text : CStr)
  deriving DecidableEq

/-- The setting that a request makes: `NAMESPACE SET name`, `NAMESPACE RESET` or
`NAMESPACE name`, with `NS` for short. -/
def settingOf : List CStr → Option Setting
  | command :: word :: rest =>
      if command = lit "NAMESPACE" ∨ command = lit "NS" then
        match rest with
        | [] => if word = lit "RESET" then some .reset else some (.name word)
        | name :: _ =>
            if word = lit "SET" then some (.name name)
            else if word = lit "RESET" then some .reset
            else none
      else none
  | _ => none

/-- The settings made on the connection with the descriptor since its accept. -/
def noteSetting (fd : ℕ) (settings : List Setting) : Observation → List Setting
  | .accepted other => if other = fd then [] else settings
  | .executed other _ tokens =>
      if other = fd then settings ++ (settingOf tokens).toList else settings
  | _ => settings

def settingsSince (fd : ℕ) (history : List Observation) : List Setting :=
  history.foldl (noteSetting fd) []

/-- The namespace after some settings. -/
def namespaceAfter (settings : List Setting) : CStr :=
  match settings.getLast? with
  | some (.name text) => text.take 63
  | _ => lit "default"

/-- What a setting makes of the namespace. -/
def applySetting (ns : CStr) : Option Setting → CStr
  | none => ns
  | some .reset => lit "default"
  | some (.name text) => text.take 63

theorem namespaceAfter_append (settings : List Setting) (setting : Option Setting) :
    namespaceAfter (settings ++ setting.toList) =
      applySetting (namespaceAfter settings) setting := by
  cases setting with
  | none => simp [applySetting]
  | some setting => cases setting <;> simp [namespaceAfter, applySetting]

theorem settingsSince_append (fd : ℕ) (history : List Observation) (observation : Observation) :
    settingsSince fd (history ++ [observation]) =
      noteSetting fd (settingsSince fd history) observation := by
  simp [settingsSince]

/-! ## The command handler and the namespace -/

theorem findCommand_eq_ns_iff {token : CStr} :
    findCommand token = some .ns ↔ token = lit "NAMESPACE" ∨ token = lit "NS" := by
  constructor
  · intro hfound
    obtain ⟨item, hitem, hcommand⟩ := Option.map_eq_some_iff.1 hfound
    have hnames : ∀ item ∈ commandTable, item.2 = .ns →
        item.1 = "NAMESPACE" ∨ item.1 = "NS" := by decide
    have htoken : token = lit item.1 := by simpa [strcmp_eq_zero_iff] using find?_some hitem
    rcases hnames item (mem_of_find?_eq_some hitem) hcommand with hname | hname
    · exact .inl (hname ▸ htoken)
    · exact .inr (hname ▸ htoken)
  · rintro (rfl | rfl) <;> decide

theorem settingOf_eq_none {tokens : List CStr} (hother : tokens.head?.bind findCommand ≠ some .ns) :
    settingOf tokens = none := by
  match tokens with
  | [] => rfl
  | [_] => rfl
  | command :: word :: rest =>
      have hcommand : ¬(command = lit "NAMESPACE" ∨ command = lit "NS") := fun hname =>
        hother (findCommand_eq_ns_iff.2 hname)
      exact if_neg hcommand

theorem namespaceCommand_fst {tokens : List CStr}
    (hcommand : tokens.head?.bind findCommand = some .ns) (ns : CStr) :
    (namespaceCommand tokens ns).1 = applySetting ns (settingOf tokens) := by
  match tokens with
  | [] => rfl
  | [_] => rfl
  | [command, word] =>
      rw [settingOf, if_pos (findCommand_eq_ns_iff.1 hcommand)]
      by_cases hreset : word = lit "RESET"
      · simp [namespaceCommand, strcmp_eq_zero_iff, hreset, applySetting]
      · simp [namespaceCommand, strcmp_eq_zero_iff, hreset, applySetting, setNamespace]
  | command :: word :: name :: rest =>
      rw [settingOf, if_pos (findCommand_eq_ns_iff.1 hcommand)]
      by_cases hset : word = lit "SET"
      · simp [namespaceCommand, strcmp_eq_zero_iff, hset, applySetting, setNamespace]
      · by_cases hreset : word = lit "RESET"
        · have hne : lit "RESET" ≠ lit "SET" := by decide
          simp [namespaceCommand, strcmp_eq_zero_iff, hreset, hne, applySetting]
        · simp [namespaceCommand, strcmp_eq_zero_iff, hset, hreset, applySetting]

section Handler

variable {F : Type} [CFloat F] {env : Env F} {tokens : List CStr} {ns : CStr} {server : Server F}
variable {outcome : Outcome F}

/-- No other command changes the namespace. -/
theorem runCommand_ns {command : Command} (hother : command ≠ .ns)
    (hrun : runCommand true env command tokens ns server = some outcome) : outcome.ns = ns := by
  cases ran_of_runCommand hrun with
  | ns => exact absurd rfl hother
  | _ => rfl

theorem kvsFilterProtocol_ns
    (hrun : kvsFilterProtocol true env tokens ns server = some outcome) :
    outcome.ns = applySetting ns (settingOf tokens) := by
  rw [kvsFilterProtocol] at hrun
  cases hcommand : tokens.head?.bind findCommand with
  | none =>
      rw [settingOf_eq_none (by simp [hcommand])]
      simp only [hcommand, Option.some.injEq] at hrun
      rw [← hrun]
      rfl
  | some command =>
      simp only [hcommand] at hrun
      by_cases hns : command = .ns
      · subst hns
        rw [← namespaceCommand_fst hcommand]
        obtain rfl := Option.some.inj hrun
        rfl
      · rw [settingOf_eq_none (by simp [hcommand, hns])]
        exact runCommand_ns hns hrun

theorem kvsProtocol_ns {msg : List Byte} {length : ℕ}
    (hrun : kvsProtocol env msg length ns server = some outcome) (hlength : 0 < length) :
    outcome.ns = applySetting ns (settingOf (tokenStrings (stripLines length msg))) := by
  rw [kvsProtocol, if_neg (by omega), Int.toNat_natCast] at hrun
  cases htokens : tokenStrings (stripLines length msg) with
  | nil =>
      simp only [htokens, Option.some.injEq] at hrun
      rw [← hrun]
      rfl
  | cons token tokens =>
      simp only [htokens, Option.bind_eq_bind, Option.bind_eq_some_iff, Option.pure_def,
        Option.some.injEq] at hrun
      obtain ⟨inner, hinner, rfl⟩ := hrun
      rw [← kvsFilterProtocol_ns hinner]
      split <;> rfl

end Handler

/-! ## Runs -/

section Runs

variable {F : Type} [CFloat F] {state after : ReactorState F} {history : List Observation}

/-- Every connection has the namespace of the settings made on it. -/
def Tracks (state : ReactorState F) (history : List Observation) : Prop :=
  ∀ fd, (state.connList fd).rAction = some .recvCb →
    (state.connList fd).ns = namespaceAfter (settingsSince fd history)

/-- Every request ran under the namespace of the settings made before it. -/
def Attributed (history : List Observation) : Prop :=
  ∀ front back fd ns tokens, history = front ++ .executed fd ns tokens :: back →
    ns = namespaceAfter (settingsSince fd front)

theorem Attributed.snoc {observation : Observation} (hattributed : Attributed history)
    (hlast : ∀ fd ns tokens, observation = .executed fd ns tokens →
      ns = namespaceAfter (settingsSince fd history)) :
    Attributed (history ++ [observation]) := by
  intro front back fd ns tokens hsplit
  rcases eq_nil_or_concat' back with rfl | ⟨back, last, rfl⟩
  · obtain ⟨rfl, hobservation⟩ := append_inj' hsplit rfl
    exact hlast fd ns tokens (by simpa using hobservation)
  · rw [← cons_append, ← append_assoc] at hsplit
    exact hattributed front back fd ns tokens (append_inj' hsplit rfl).1

/-- What a callback does to the namespaces in the table. -/
def Moves (state after : ReactorState F) : Observation → Prop
  | .accepted fd => ∃ conn, after.connList = Function.update state.connList fd conn ∧
      conn.ns = lit "default"
  | .executed fd ns tokens => (state.connList fd).rAction = some .recvCb ∧
      ns = (state.connList fd).ns ∧
      ∃ conn, after.connList = Function.update state.connList fd conn ∧
        conn.ns = applySetting ns (settingOf tokens)
  | .closed fd => ∃ conn, after.connList = Function.update state.connList fd conn ∧
      conn.rAction = (state.connList fd).rAction ∧ conn.ns = (state.connList fd).ns
  | .refused => after.connList = state.connList
  | .sent _ _ => after.connList = state.connList

omit [CFloat F] in
theorem acceptCb_moves {client : ℤ} {observation : Observation}
    (haccept : acceptCb state client = some (after, observation)) :
    Moves state after observation := by
  unfold acceptCb eventRegister at haccept
  split at haccept
  · obtain ⟨rfl, rfl⟩ : state = after ∧ Observation.refused = observation := by simpa using haccept
    exact rfl
  · split at haccept
    · cases haccept
    · split at haccept
      · simp only [Option.map_some, Option.some.injEq, Prod.mk.injEq] at haccept
        obtain ⟨rfl, rfl⟩ := haccept
        exact ⟨_, rfl, rfl⟩
      · cases haccept

theorem recvCb_moves {env : Env F} {fd : ℕ} {bytes : List Byte} {observation : Observation}
    (haction : (state.connList fd).rAction = some .recvCb)
    (hrecv : recvCb env state fd bytes = some (after, observation)) :
    Moves state after observation := by
  unfold recvCb at hrecv
  split at hrecv
  case isTrue hbytes =>
      simp only [Option.bind_eq_bind, Option.bind_eq_some_iff, Option.pure_def, Option.some.injEq,
        Prod.mk.injEq] at hrecv
      obtain ⟨⟨server, conn⟩, hrequest, rfl, rfl⟩ := hrecv
      refine ⟨haction, rfl, conn, rfl, ?_⟩
      simp only [kvsRequest, Option.bind_eq_bind, Option.bind_eq_some_iff] at hrequest
      obtain ⟨outcome, hprotocol, hreply⟩ := hrequest
      split at hreply
      · simp only [Option.pure_def, Option.some.injEq, Prod.mk.injEq] at hreply
        rw [← hreply.2]
        exact kvsProtocol_ns hprotocol (length_pos_iff.2 hbytes.2.1)
      · cases hreply
  case isFalse => cases hrecv

theorem reactorStep_moves {event : Event F} {observation : Observation}
    (hstep : reactorStep state event = some (after, observation)) :
    Moves state after observation := by
  cases event with
  | input fd input =>
      simp only [reactorStep] at hstep
      split at hstep
      case isFalse => cases hstep
      case isTrue =>
          split at hstep
          next => exact acceptCb_moves hstep
          next haction => exact recvCb_moves haction hstep
          next =>
              simp only [disconnect, Option.some.injEq, Prod.mk.injEq] at hstep
              obtain ⟨rfl, rfl⟩ := hstep
              exact ⟨_, rfl, rfl, rfl⟩
          next => cases hstep
  | output fd =>
      simp only [reactorStep, sendCb] at hstep
      split at hstep
      · split at hstep
        · simp only [Option.some.injEq, Prod.mk.injEq] at hstep
          obtain ⟨rfl, rfl⟩ := hstep
          exact rfl
        · cases hstep
      · cases hstep

omit [CFloat F] in
/-- An entry that a callback does not write, or whose namespace it leaves alone. -/
theorem Tracks.of_same (htracks : Tracks state history) {fd : ℕ} {observation : Observation}
    (haction : (after.connList fd).rAction = some .recvCb)
    (hsame : (after.connList fd).rAction = (state.connList fd).rAction ∧
      (after.connList fd).ns = (state.connList fd).ns)
    (hnote : noteSetting fd (settingsSince fd history) observation = settingsSince fd history) :
    (after.connList fd).ns = namespaceAfter (settingsSince fd (history ++ [observation])) := by
  rw [settingsSince_append, hnote, hsame.2]
  exact htracks fd (hsame.1 ▸ haction)

omit [CFloat F] in
theorem Moves.tracks {observation : Observation} (htracks : Tracks state history)
    (hmoves : Moves state after observation) : Tracks after (history ++ [observation]) := by
  intro fd haction
  cases observation with
  | refused => exact htracks.of_same haction (by rw [hmoves]; exact ⟨rfl, rfl⟩) rfl
  | sent other bytes => exact htracks.of_same haction (by rw [hmoves]; exact ⟨rfl, rfl⟩) rfl
  | closed other =>
      obtain ⟨conn, hafter, hkeep, hns⟩ := hmoves
      refine htracks.of_same haction ?_ rfl
      rw [hafter]
      by_cases hfd : fd = other
      · subst hfd
        rw [Function.update_self]
        exact ⟨hkeep, hns⟩
      · rw [Function.update_of_ne hfd]
        exact ⟨rfl, rfl⟩
  | accepted other =>
      obtain ⟨conn, hafter, hns⟩ := hmoves
      by_cases hfd : fd = other
      · subst hfd
        rw [settingsSince_append, noteSetting, if_pos rfl, hafter, Function.update_self, hns]
        rfl
      · refine htracks.of_same haction ?_ (if_neg (Ne.symm hfd))
        rw [hafter, Function.update_of_ne hfd]
        exact ⟨rfl, rfl⟩
  | executed other ns tokens =>
      obtain ⟨hother, rfl, conn, hafter, hns⟩ := hmoves
      by_cases hfd : fd = other
      · subst hfd
        rw [settingsSince_append, noteSetting, if_pos rfl, namespaceAfter_append, hafter,
          Function.update_self, hns, htracks fd hother]
      · refine htracks.of_same haction ?_ (if_neg (Ne.symm hfd))
        rw [hafter, Function.update_of_ne hfd]
        exact ⟨rfl, rfl⟩

/-- In every run of the reactor each request is executed under the namespace that the
settings on its own connection, since its accept, have left. -/
theorem request_runs_in_own_namespace (server : Server F) (listeners : List ℕ)
    (events : List (Event F)) {final : ReactorState F} {history : List Observation}
    (hrun : run reactorStep (reactorStart server listeners) events = some (final, history))
    {front back : List Observation} {fd : ℕ} {ns : CStr} {tokens : List CStr}
    (hexecuted : history = front ++ .executed fd ns tokens :: back) :
    ns = namespaceAfter (settingsSince fd front) := by
  have hstart : Tracks (reactorStart server listeners) [] := by
    intro fd haction
    simp only [reactorStart] at haction
    split at haction <;> cases haction
  have hattributed : Attributed [] := by
    intro front back fd ns tokens hnil
    cases front <;> cases hnil
  have hkeep : ∀ (state : ReactorState F) past event after observation,
      Tracks state past ∧ Attributed past → True →
      reactorStep state event = some (after, observation) →
      Tracks after (past ++ [observation]) ∧ Attributed (past ++ [observation]) := by
    rintro state past event after observation ⟨htracks, hpast⟩ - hstep
    have hmoves := reactorStep_moves hstep
    refine ⟨hmoves.tracks htracks, hpast.snoc ?_⟩
    rintro fd ns tokens rfl
    obtain ⟨haction, rfl, -⟩ := hmoves
    exact htracks fd haction
  obtain ⟨-, hfinal⟩ := run_history_along hkeep ⟨hstart, hattributed⟩
    (along_of_forall (fun _ _ _ => trivial) _) hrun
  exact hfinal front back fd ns tokens hexecuted

end Runs

/-- Two clients one after the other on descriptor 5, with a setting by the first. -/
def reusedDescriptor : List (Event Float32) :=
  [.input 3 (.client 5), .input 5 (.data (Env.quiet Float32) (ascii "NS SET tenant\r\n")),
    .output 5, .input 5 (.data (Env.quiet Float32) (ascii "GET k\r\n")), .input 5 .ended,
    .input 3 (.client 5), .input 5 (.data (Env.quiet Float32) (ascii "GET k\r\n"))]

/-- What is seen of that run: the second client starts in the default namespace. -/
def reusedHistory : List Observation :=
  [.accepted 5, .executed 5 (lit "default") [lit "NS", lit "SET", lit "tenant"],
    .sent 5 (ascii "Namespace set to: tenant\r\n"),
    .executed 5 (lit "tenant") [lit "GET", lit "k"], .closed 5, .accepted 5,
    .executed 5 (lit "default") [lit "GET", lit "k"]]

theorem request_runs_in_own_namespace_reusedDescriptor :
    ∃ final, run reactorStep (reactorStart (Server.start Float32 1000 .lru) [3])
        reusedDescriptor = some (final, reusedHistory) ∧
      lit "tenant" = namespaceAfter (settingsSince 5 (reusedHistory.take 3)) ∧
      lit "default" = namespaceAfter (settingsSince 5 (reusedHistory.take 6)) := by
  have hseen : (run reactorStep (reactorStart (Server.start Float32 1000 .lru) [3])
      reusedDescriptor).map Prod.snd = some reusedHistory := by decide +kernel
  obtain ⟨⟨final, history⟩, hrun, rfl⟩ := Option.map_eq_some_iff.1 hseen
  exact ⟨final, hrun,
    request_runs_in_own_namespace (Server.start Float32 1000 .lru) [3] reusedDescriptor hrun rfl,
    request_runs_in_own_namespace (Server.start Float32 1000 .lru) [3] reusedDescriptor hrun rfl⟩

end LiteMultiKV.Reactor
