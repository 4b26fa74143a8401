import LiteMultiKV.Core.Segments
import LiteMultiKV.Network.Reactor

/-!
# Lines and receives

Clients end a command with a line end, but the reactor takes whatever one receive
returns as one command.  How the stream of a connection is cut into receives
then decides which commands are executed.  If each receive that holds more than
spaces carries one line, the commands are those of the lines.  For lines without
quotes and with no more words than the tokenizer takes, this is the only way to
cut the stream that leaves the commands alone.
-/

namespace LiteMultiKV.Reactor

open List LiteMultiKV.Array Cache CText Memory Numeric LiteMultiKV.Protocol Run Segments

/-- The bytes that separate words. -/
def isSpace (byte : Byte) : Bool :=
  byte = blank || byte = 13 || byte = 10

/-- The tokens of the bytes of one receive. -/
def tokensOf (bytes : List Byte) : List CStr :=
  tokenStrings (stripLines bytes.length (bytes ++ [0]))

/-- The commands of a list of receives. -/
def commandsOf (received : List (List Byte)) : List (List CStr) :=
  (received.map tokensOf).filter (· ≠ [])

/-- The bytes are the line, apart from spaces before it, and behind it if the line holds no
quote. -/
def Carries (bytes line : List Byte) : Prop :=
  bytes.dropWhile isSpace = line.dropWhile isSpace ∨
    quote ∉ line ∧ trim isSpace bytes = trim isSpace line

/-- The receives that hold more than spaces carry the lines that do, one each. -/
def Framed (received lines : List (List Byte)) : Prop :=
  Forall₂ Carries (received.filter (filled isSpace)) (lines.filter (filled isSpace))

/-- The lines of a client. -/
def linesOf (bodies : List (List Byte)) : List (List Byte) :=
  bodies.map (· ++ crlf)

/-- A line without quotes and NUL bytes, with no more words than there are tokens. -/
structure PlainLine (line : List Byte) : Prop where
  quote_free : quote ∉ line
  nul_free : 0 ∉ line
  words_le : (words isSpace line).length ≤ kvsMaxTokens

/-! ## Tokens of a receive -/

theorem stripByte_of_space {byte : Byte} (hspace : isSpace byte = true) :
    stripByte byte = blank := by
  simp only [isSpace, Bool.or_eq_true, decide_eq_true_eq] at hspace
  rcases hspace with (rfl | rfl) | rfl <;> decide

theorem stripByte_of_letter {byte : Byte} (hletter : isSpace byte = false) :
    stripByte byte = byte := by
  simp only [isSpace, Bool.or_eq_false_iff, decide_eq_false_iff_not] at hletter
  exact if_neg (by simp [hletter])

theorem map_stripByte_spaces {spaces : List Byte} (hspaces : ∀ byte ∈ spaces, isSpace byte) :
    ∀ byte ∈ spaces.map stripByte, byte = blank := by
  intro byte hbyte
  obtain ⟨space, hspace, rfl⟩ := mem_map.1 hbyte
  exact stripByte_of_space (hspaces space hspace)

/-- The tokens of bytes with a NUL byte behind them. -/
theorem tokenStrings_stopped (bytes : List Byte) {memory : List Byte} (hstopped : Stopped memory) :
    (tokenStrings (stripLines bytes.length (bytes ++ memory))).map CStr.bytes =
      grammarTokens kvsMaxTokens ((bytes.map stripByte).takeWhile (· ≠ 0)) := by
  rw [tokenStrings_eq, stripLines_append]
  exact congrArg _ (takeWhile_stopped (by simp) _ hstopped)

theorem tokensOf_eq (bytes : List Byte) :
    (tokensOf bytes).map CStr.bytes =
      grammarTokens kvsMaxTokens ((bytes.map stripByte).takeWhile (· ≠ 0)) :=
  tokenStrings_stopped bytes rfl

theorem tokensOf_congr {bytes other : List Byte}
    (htokens : grammarTokens kvsMaxTokens ((bytes.map stripByte).takeWhile (· ≠ 0)) =
      grammarTokens kvsMaxTokens ((other.map stripByte).takeWhile (· ≠ 0))) :
    tokensOf bytes = tokensOf other := by
  apply map_injective_iff.2 (fun _ _ => CStr.ext)
  rw [tokensOf_eq, tokensOf_eq, htokens]

theorem grammarTokens_blanks_append (limit : ℕ) {blanks : List Byte}
    (hblanks : ∀ byte ∈ blanks, byte = blank) (text : List Byte) :
    grammarTokens limit (blanks ++ text) = grammarTokens limit text := by
  induction blanks with
  | nil => rfl
  | cons byte blanks ih =>
      rw [cons_append, hblanks byte mem_cons_self, grammarTokens_blank]
      exact ih fun other hother => hblanks other (mem_cons_of_mem _ hother)

/-- Spaces in front do not matter. -/
theorem tokensOf_dropWhile (bytes : List Byte) :
    tokensOf (bytes.dropWhile isSpace) = tokensOf bytes := by
  have hblanks := map_stripByte_spaces fun byte (hbyte : byte ∈ bytes.takeWhile isSpace) =>
    mem_takeWhile_imp hbyte
  have hpass : ∀ byte ∈ (bytes.takeWhile isSpace).map stripByte, decide (byte ≠ 0) = true := by
    intro byte hbyte
    rw [hblanks byte hbyte]
    decide
  refine tokensOf_congr ?_
  conv_rhs => rw [← takeWhile_append_dropWhile (p := isSpace) (l := bytes), map_append,
    takeWhile_append_of_pos hpass, grammarTokens_blanks_append _ hblanks]

theorem blank_cons_eq_flatMap (bytes : List Byte) :
    blank :: bytes.map stripByte = (bytes.splitOnP isSpace).flatMap (blank :: ·) := by
  induction bytes with
  | nil => rfl
  | cons byte bytes ih =>
      cases hbyte : isSpace byte with
      | true =>
          rw [splitOnP_cons_space hbyte, flatMap_cons, ← ih, map_cons, stripByte_of_space hbyte]
          rfl
      | false =>
          obtain ⟨word, rest, hsplit, hgrown⟩ := splitOnP_cons_letter hbyte bytes
          rw [hsplit, flatMap_cons, cons_append, cons.injEq] at ih
          rw [hgrown, flatMap_cons, map_cons, stripByte_of_letter hbyte, ih.2]
          rfl

/-- Without quotes the tokens are the words. -/
theorem grammarTokens_unquoted {bytes blanks : List Byte} (hquote : quote ∉ bytes)
    (hblanks : ∀ byte ∈ blanks, byte = blank) (limit : ℕ) :
    grammarTokens limit (bytes.map stripByte ++ blanks) = (words isSpace bytes).take limit := by
  have hwords : words isSpace bytes = (bytes.splitOnP isSpace).filter (· ≠ []) :=
    filter_congr fun word _ => by cases word <;> simp
  rw [← grammarTokens_blank, ← cons_append, blank_cons_eq_flatMap, hwords]
  refine grammarTokens_words (fun word hword hblank => ?_) (fun word hword hhead => ?_)
    hblanks limit
  · exact absurd (mem_of_mem_splitOnP hword blank hblank).2 (by decide)
  · exact hquote (mem_of_mem_splitOnP hword quote (mem_of_mem_head? hhead)).1

/-- Spaces behind bytes without quotes do not matter. -/
theorem tokensOf_append_spaces {bytes spaces : List Byte} (hquote : quote ∉ bytes)
    (hspaces : ∀ byte ∈ spaces, isSpace byte) : tokensOf (bytes ++ spaces) = tokensOf bytes := by
  refine tokensOf_congr ?_
  rw [map_append]
  by_cases hzero : 0 ∈ bytes.map stripByte
  · rw [(takeWhile_append_of_stop hzero _).1]
  · have hblanks := map_stripByte_spaces hspaces
    have hfree : 0 ∉ bytes.map stripByte ++ spaces.map stripByte := by
      rw [mem_append, not_or]
      exact ⟨hzero, fun hmem => absurd (hblanks 0 hmem) (by decide)⟩
    rw [(takeWhile_of_no_stop hfree).1, (takeWhile_of_no_stop hzero).1,
      grammarTokens_unquoted hquote hblanks]
    conv_rhs => rw [← append_nil (bytes.map stripByte)]
    rw [grammarTokens_unquoted hquote (by simp)]

theorem tokensOf_trim {bytes : List Byte} (hquote : quote ∉ trim isSpace bytes) :
    tokensOf (trim isSpace bytes) = tokensOf bytes := by
  have hsplit := rdropWhile_append_rtakeWhile (p := isSpace) (l := bytes.dropWhile isSpace)
  have hspaces : ∀ byte ∈ (bytes.dropWhile isSpace).rtakeWhile isSpace, isSpace byte :=
    fun byte hbyte => mem_rtakeWhile_imp hbyte
  rw [← tokensOf_dropWhile bytes, ← hsplit]
  exact (tokensOf_append_spaces hquote hspaces).symm

/-- What carries a line has its tokens. -/
theorem Carries.tokensOf_eq {bytes line : List Byte} (hcarries : Carries bytes line) :
    tokensOf bytes = tokensOf line := by
  rcases hcarries with hdrop | ⟨hquote, htrim⟩
  · rw [← tokensOf_dropWhile bytes, hdrop, tokensOf_dropWhile]
  · have htrimmed := rdropWhile_prefix isSpace (line.dropWhile isSpace)
    have hfree : quote ∉ trim isSpace line := fun hmem => hquote
      ((dropWhile_sublist _).subset (htrimmed.subset hmem))
    rw [← tokensOf_trim (htrim ▸ hfree), htrim, tokensOf_trim hfree]

theorem tokensOf_spaces {bytes : List Byte} (hspaces : filled isSpace bytes = false) :
    tokensOf bytes = [] := by
  rw [← tokensOf_dropWhile, dropWhile_eq_nil_iff.2 (filled_eq_false_iff.1 hspaces)]
  rfl

theorem commandsOf_filled (received : List (List Byte)) :
    commandsOf (received.filter (filled isSpace)) = commandsOf received := by
  induction received with
  | nil => rfl
  | cons bytes received ih =>
      cases hfilled : filled isSpace bytes with
      | true =>
          rw [filter_cons_of_pos hfilled]
          simp only [commandsOf, map_cons, filter_cons] at ih ⊢
          rw [ih]
      | false =>
          rw [filter_cons_of_neg (by simp [hfilled]), ih]
          simp [commandsOf, tokensOf_spaces hfilled]

/-- Framed receives hold the commands of the lines. -/
theorem Framed.commandsOf_eq {received lines : List (List Byte)} (hframed : Framed received lines) :
    commandsOf received = commandsOf lines := by
  have htokens : (received.filter (filled isSpace)).map tokensOf =
      (lines.filter (filled isSpace)).map tokensOf := by
    have hsame := hframed.imp fun _ _ hcarries => Carries.tokensOf_eq hcarries
    rw [← forall₂_eq_eq_eq, forall₂_map_left_iff, forall₂_map_right_iff]
    exact hsame
  rw [← commandsOf_filled received, ← commandsOf_filled lines, commandsOf, commandsOf, htokens]

/-! ## Streams of plain lines -/

/-- What the tokens of a receive show of it. -/
def shown (bytes : List Byte) : List Byte :=
  ((tokensOf bytes).map CStr.bytes).flatten

section Plain

variable {bytes : List Byte} (hquote : quote ∉ bytes) (hzero : 0 ∉ bytes)
include hquote hzero

theorem tokensOf_words :
    (tokensOf bytes).map CStr.bytes = (words isSpace bytes).take kvsMaxTokens := by
  have hfree : 0 ∉ bytes.map stripByte := fun hmem => hzero (zero_mem_map_stripByte.1 hmem)
  have hwords : grammarTokens kvsMaxTokens (bytes.map stripByte ++ []) =
      (words isSpace bytes).take kvsMaxTokens := grammarTokens_unquoted hquote (by simp) _
  rw [append_nil] at hwords
  rw [tokensOf_eq, (takeWhile_of_no_stop hfree).1, hwords]

theorem tokensOf_eq_nil_iff : tokensOf bytes = [] ↔ filled isSpace bytes = false := by
  have hwords := tokensOf_words hquote hzero
  rw [← words_eq_nil_iff, ← map_eq_nil_iff (f := CStr.bytes), hwords, take_eq_nil_iff]
  simp [kvsMaxTokens]

/-- A receive shows its tokens first. -/
theorem shown_isPrefix : shown bytes <+: visible isSpace bytes := by
  rw [shown, tokensOf_words hquote hzero, ← flatten_words]
  exact ⟨((words isSpace bytes).drop kvsMaxTokens).flatten, by
    rw [← flatten_append, take_append_drop]⟩

end Plain

theorem PlainLine.shown_eq {line : List Byte} (hplain : PlainLine line) :
    shown line = visible isSpace line := by
  rw [shown, tokensOf_words hplain.quote_free hplain.nul_free, take_of_length_le hplain.words_le,
    flatten_words]

/-- If starts of some texts together are as long as the texts, they are the texts. -/
theorem eq_of_isPrefix {texts : List (List Byte)} {start whole : List Byte → List Byte}
    (hstart : ∀ text ∈ texts, start text <+: whole text)
    (hlength : (texts.map start).flatten.length = (texts.map whole).flatten.length) :
    ∀ text ∈ texts, start text = whole text := by
  induction texts with
  | nil => simp
  | cons text texts ih =>
      have hrest := fun other hother => hstart other (mem_cons_of_mem text hother)
      have hfirst := (hstart text mem_cons_self).length_le
      have hothers : (texts.map start).flatten.length ≤ (texts.map whole).flatten.length := by
        simp only [length_flatten, map_map]
        exact sum_le_sum fun other hother => (hrest other hother).length_le
      simp only [map_cons, flatten_cons, length_append] at hlength
      intro other hother
      rcases mem_cons.1 hother with rfl | hother
      · exact (hstart other mem_cons_self).eq_of_length (by omega)
      · exact ih hrest (by omega) other hother

/-- Without quotes and NUL bytes every receive with more than spaces is a command. -/
theorem commandsOf_unquoted {received : List (List Byte)}
    (hfree : ∀ byte ∈ received.flatten, byte ≠ quote ∧ byte ≠ 0) :
    commandsOf received = (received.filter (filled isSpace)).map tokensOf := by
  rw [← commandsOf_filled]
  refine filter_eq_self.2 fun tokens htokens => ?_
  obtain ⟨bytes, hbytes, rfl⟩ := mem_map.1 htokens
  obtain ⟨hmem, hfilled⟩ := mem_filter.1 hbytes
  have hne := (tokensOf_eq_nil_iff
    (fun hquote => (hfree quote (mem_flatten_of_mem hmem hquote)).1 rfl)
    (fun hzero => (hfree 0 (mem_flatten_of_mem hmem hzero)).2 rfl)).not.2 (by simp [hfilled])
  simpa using hne

/-- If the receives of a stream of plain lines hold the commands of the lines, they carry
the lines. -/
theorem framed_of_commandsOf {received lines : List (List Byte)}
    (hstream : received.flatten = lines.flatten) (hplain : ∀ line ∈ lines, PlainLine line)
    (hcommands : commandsOf received = commandsOf lines) : Framed received lines := by
  have hfree : ∀ byte ∈ lines.flatten, byte ≠ quote ∧ byte ≠ 0 := by
    intro byte hbyte
    obtain ⟨line, hline, hmem⟩ := mem_flatten.1 hbyte
    constructor
    · rintro rfl
      exact (hplain line hline).quote_free hmem
    · rintro rfl
      exact (hplain line hline).nul_free hmem
  rw [commandsOf_unquoted (hstream ▸ hfree), commandsOf_unquoted hfree] at hcommands
  let chunks := received.filter (filled isSpace)
  let texts := lines.filter (filled isSpace)
  have hshown : chunks.map shown = texts.map shown := by
    have hmap := congrArg (map fun tokens : List CStr => (tokens.map CStr.bytes).flatten) hcommands
    rw [map_map, map_map] at hmap
    exact hmap
  have htexts : texts.map shown = texts.map (visible isSpace) :=
    map_congr_left fun line hline => (hplain line (mem_of_mem_filter hline)).shown_eq
  -- no letter of the stream is lost, so every receive shows all it holds
  have hwhole : ∀ bytes ∈ chunks, shown bytes = visible isSpace bytes := by
    refine eq_of_isPrefix (fun bytes hbytes => ?_) ?_
    · have hmem := mem_of_mem_filter hbytes
      rw [← hstream] at hfree
      exact shown_isPrefix (fun hquote => (hfree quote (mem_flatten_of_mem hmem hquote)).1 rfl)
        (fun hzero => (hfree 0 (mem_flatten_of_mem hmem hzero)).2 rfl)
    · rw [hshown, htexts, flatten_visible_filled, flatten_visible_filled, hstream]
  have hvisible : chunks.map (visible isSpace) = texts.map (visible isSpace) := by
    rw [← htexts, ← hshown]
    exact (map_congr_left hwhole).symm
  rw [← forall₂_eq_eq_eq, forall₂_map_left_iff, forall₂_map_right_iff] at hvisible
  obtain ⟨hlength, htrims⟩ := forall₂_iff_zip.1 (forall₂_trim (by rw [hstream]) hvisible)
  refine forall₂_iff_zip.2 ⟨hlength, fun {bytes line} hzip => .inr ⟨?_, htrims hzip⟩⟩
  exact (hplain line (mem_of_mem_filter (of_mem_zip hzip).2)).quote_free

/-! ## Runs of receives -/

section Runs

variable {F : Type} [CFloat F] {state : ReactorState F} {fd : ℕ} {bytes : List Byte}

/-- The descriptor belongs to a connection. -/
structure Connected (state : ReactorState F) (fd : ℕ) : Prop where
  fd_lt : fd < connectionSize
  opened : state.opened fd = true
  rAction_eq : (state.connList fd).rAction = some .recvCb

/-- What one receive can return. -/
def Receivable (bytes : List Byte) : Prop :=
  bytes ≠ [] ∧ bytes.length ≤ bufferLength

/-- Receives on one connection.  What the environment decides for a command depends on the
number of commands before it. -/
def arrivals (envs : ℕ → Env F) (fd : ℕ) : ℕ → List (List Byte) → List (Event F)
  | _, [] => []
  | count, bytes :: received =>
      .input fd (.data (envs count) bytes) ::
        arrivals envs fd (if tokensOf bytes = [] then count else count + 1) received

/-- The command of a request, if it has one. -/
def Observation.command : Observation → Option (List CStr)
  | .executed _ _ tokens => if tokens = [] then none else some tokens
  | _ => none

/-- The commands that the receives execute, and the server and the namespace they leave. -/
def servedStream (envs : ℕ → Env F) (state : ReactorState F) (fd : ℕ)
    (received : List (List Byte)) : Option (List (List CStr) × Server F × CStr) :=
  (run reactorStep state (arrivals envs fd 0 received)).map fun result =>
    (result.2.filterMap Observation.command, result.1.server, (result.1.connList fd).ns)

/-- A command with a reply that fits. -/
def execute (env : Env F) (tokens : List CStr) (ns : CStr) (server : Server F) :
    Option (Server F × CStr) := do
  let outcome ← kvsFilterProtocol true env tokens ns server
  let reply := if outcome.reply.length < 0 then say "ERROR\r\n" else outcome.reply
  if reply.buffer.length ≤ bufferLength then return (outcome.server, outcome.ns) else none

/-- The commands one after the other. -/
def executeAll (envs : ℕ → Env F) : ℕ → CStr → Server F → List (List CStr) →
    Option (Server F × CStr)
  | _, ns, server, [] => some (server, ns)
  | count, ns, server, tokens :: commands => do
      let (server, ns) ← execute (envs count) tokens ns server
      executeAll envs (count + 1) ns server commands

/-- Behind the bytes of a receive the tokenizer meets a NUL byte. -/
theorem store_tokens (conn : Conn) (hbytes : Receivable bytes) :
    (conn.store bytes).tokens = tokensOf bytes := by
  have hstopped : Stopped (replicate (bufferLength - bytes.length) 0 ++ intBytes bytes.length) := by
    rcases Nat.lt_or_ge bytes.length bufferLength with hshort | hfull
    · obtain ⟨room, hroom⟩ : ∃ room, bufferLength - bytes.length = room + 1 :=
        ⟨bufferLength - bytes.length - 1, by omega⟩
      rw [hroom]
      rfl
    · rw [le_antisymm hbytes.2 hfull, Nat.sub_self]
      rfl
  have htokens : (conn.store bytes).tokens = tokenStrings (stripLines bytes.length
      (bytes ++ (replicate (bufferLength - bytes.length) 0 ++ intBytes bytes.length))) :=
    congrArg (fun memory => tokenStrings (stripLines bytes.length memory)) (append_assoc ..)
  apply map_injective_iff.2 (fun _ _ => CStr.ext)
  rw [htokens, tokenStrings_stopped bytes hstopped, tokensOf_eq]

theorem kvsProtocol_store (env : Env F) (server : Server F) (conn : Conn)
    (hbytes : Receivable bytes) :
    kvsProtocol env (conn.store bytes).memory (conn.store bytes).rlength conn.ns server =
      match tokensOf bytes with
      | [] => some { server := server, ns := conn.ns, disk := env.disk, spawned := none,
                     reply := say "Unknown command\r\n" }
      | tokens => do
          let outcome ← kvsFilterProtocol true env tokens conn.ns server
          return if outcome.reply.length < 0 then
            { outcome with reply := say "ERROR\r\n" }
          else outcome := by
  have hpositive : ¬((conn.store bytes).rlength : ℤ) ≤ 0 := by
    have := length_pos_iff.2 hbytes.1
    change ¬(bytes.length : ℤ) ≤ 0
    omega
  have htokens : tokenStrings (stripLines ((conn.store bytes).rlength : ℤ).toNat
      (conn.store bytes).memory) = tokensOf bytes := store_tokens conn hbytes
  rewrite [kvsProtocol, if_neg hpositive, htokens]
  cases tokensOf bytes <;> rfl

/-- What the request in a receive makes of the server and the namespace: nothing if there are no
tokens, and otherwise what the command makes of them. -/
def serve (env : Env F) (tokens : List CStr) (ns : CStr) (server : Server F) :
    Option (Server F × CStr) :=
  if tokens = [] then some (server, ns) else execute env tokens ns server

theorem kvsRequest_store (env : Env F) (server : Server F) (conn : Conn)
    (hbytes : Receivable bytes) :
    (kvsRequest env server (conn.store bytes)).map
        (fun result => (result.2.rAction, result.1, result.2.ns)) =
      (serve env (tokensOf bytes) conn.ns server).map fun result => (conn.rAction, result) := by
  have hprotocol := kvsProtocol_store env server conn hbytes
  rw [kvsRequest]
  change Option.map _ (kvsProtocol env (conn.store bytes).memory (conn.store bytes).rlength conn.ns
    server >>= _) = _
  rw [hprotocol]
  cases htokens : tokensOf bytes with
  | nil =>
      have hfits : (say "Unknown command\r\n").buffer.length ≤ bufferLength := by decide
      simp only [serve, if_true, Option.bind_eq_bind, Option.bind_some, hfits, Option.pure_def,
        Option.map_some]
      rfl
  | cons token tokens =>
      rw [serve, if_neg (cons_ne_nil token tokens), execute]
      simp only [Option.bind_eq_bind, Option.pure_def]
      cases kvsFilterProtocol true env (token :: tokens) conn.ns server with
      | none => rfl
      | some outcome =>
          simp only [Option.bind_some]
          split <;> split <;> rfl

/-- A receive on a connection has a result if its request has one. -/
theorem reactorStep_data (hconnected : Connected state fd) (env : Env F)
    (hbytes : Receivable bytes) :
    match serve env (tokensOf bytes) (state.connList fd).ns state.server with
    | none => reactorStep state (.input fd (.data env bytes)) = none
    | some (server, ns) => ∃ after, Connected after fd ∧ after.server = server ∧
        (after.connList fd).ns = ns ∧ reactorStep state (.input fd (.data env bytes)) =
          some (after, .executed fd (state.connList fd).ns (tokensOf bytes)) := by
  have hrequest := kvsRequest_store env state.server (state.connList fd) hbytes
  have htokens := store_tokens (state.connList fd) hbytes
  have hready : state.opened fd ∧ bytes ≠ [] ∧ bytes.length ≤ bufferLength :=
    ⟨hconnected.opened, hbytes⟩
  simp only [reactorStep, if_pos hconnected.fd_lt, hconnected.rAction_eq, recvCb, if_pos hready,
    htokens]
  cases hserve : serve env (tokensOf bytes) (state.connList fd).ns state.server with
  | none =>
      rw [hserve, Option.map_none, Option.map_eq_none_iff] at hrequest
      simp [hrequest]
  | some result =>
      rw [hserve, Option.map_some, Option.map_eq_some_iff] at hrequest
      obtain ⟨⟨server, conn⟩, hrequest, hresult⟩ := hrequest
      obtain ⟨haction, rfl⟩ := Prod.mk.inj hresult
      rw [hrequest]
      refine ⟨{ state with
        server := server, connList := Function.update state.connList fd conn },
        ⟨hconnected.fd_lt, hconnected.opened, ?_⟩, rfl, ?_, rfl⟩
      · change (Function.update state.connList fd conn fd).rAction = _
        rw [Function.update_self]
        exact haction.trans hconnected.rAction_eq
      · change (Function.update state.connList fd conn fd).ns = _
        rw [Function.update_self]

theorem run_arrivals (envs : ℕ → Env F) (hconnected : Connected state fd)
    {received : List (List Byte)} (hreceived : ∀ bytes ∈ received, Receivable bytes) (count : ℕ) :
    (run reactorStep state (arrivals envs fd count received)).map
        (fun result => (result.2.filterMap Observation.command, result.1.server,
          (result.1.connList fd).ns)) =
      (executeAll envs count (state.connList fd).ns state.server (commandsOf received)).map
        fun result => (commandsOf received, result) := by
  induction received generalizing state count with
  | nil => rfl
  | cons bytes received ih =>
      have hrest := fun other hother => hreceived other (mem_cons_of_mem bytes hother)
      have hstep := reactorStep_data hconnected (envs count) (hreceived bytes mem_cons_self)
      rw [arrivals]
      by_cases htokens : tokensOf bytes = []
      · have hcommands : commandsOf (bytes :: received) = commandsOf received := by
          simp [commandsOf, htokens]
        rw [serve, if_pos htokens] at hstep
        obtain ⟨after, hafter, hserver, hns, hstep⟩ := hstep
        rw [run_cons hstep, Option.map_map, if_pos htokens, hcommands, ← hserver, ← hns,
          ← ih hafter hrest count]
        simp [Function.comp_def, Observation.command, htokens]
      · have hcommands :
            commandsOf (bytes :: received) = tokensOf bytes :: commandsOf received := by
          simp [commandsOf, htokens]
        rw [serve, if_neg htokens] at hstep
        rw [hcommands, executeAll, if_neg htokens]
        cases hexecute : execute (envs count) (tokensOf bytes) (state.connList fd).ns
            state.server with
        | none =>
            rw [hexecute] at hstep
            simp [run, hstep]
        | some result =>
            rw [hexecute] at hstep
            obtain ⟨after, hafter, hserver, hns, hstep⟩ := hstep
            have hfollow := ih hafter hrest (count + 1)
            rw [hserver, hns] at hfollow
            have hmore := congrArg (Option.map fun served =>
              (tokensOf bytes :: served.1, served.2)) hfollow
            rw [Option.map_map, Option.map_map] at hmore
            rw [run_cons hstep, Option.map_map]
            simpa [Function.comp_def, Observation.command, htokens] using hmore

/-- The lines of a client arrive in some receives. -/
structure Delivered (bodies received : List (List Byte)) : Prop where
  body_le : ∀ body ∈ bodies, body.length ≤ 1000
  receivable : ∀ bytes ∈ received, Receivable bytes
  stream_eq : received.flatten = (linesOf bodies).flatten

/-- A line fits into one receive. -/
theorem Delivered.lines_receivable {bodies received : List (List Byte)}
    (hdelivered : Delivered bodies received) : ∀ line ∈ linesOf bodies, Receivable line := by
  intro line hline
  obtain ⟨body, hbody, rfl⟩ := mem_map.1 hline
  have hlength := hdelivered.body_le body hbody
  refine ⟨by simp [crlf], ?_⟩
  simp only [length_append, crlf, length_cons, length_nil, bufferLength]
  omega

/-- What is executed depends on the receives only through their commands. -/
theorem servedStream_eq_iff (envs : ℕ → Env F) (hconnected : Connected state fd)
    {received lines : List (List Byte)} (hreceived : ∀ bytes ∈ received, Receivable bytes)
    (hlines : ∀ line ∈ lines, Receivable line) :
    (commandsOf received = commandsOf lines →
      servedStream envs state fd received = servedStream envs state fd lines) ∧
    (servedStream envs state fd lines ≠ none →
      servedStream envs state fd received = servedStream envs state fd lines →
      commandsOf received = commandsOf lines) := by
  have hcut := run_arrivals envs hconnected hreceived 0
  have halone := run_arrivals envs hconnected hlines 0
  rw [servedStream, servedStream, hcut, halone]
  constructor
  · intro hcommands
    rw [hcommands]
  · intro hdefined hsame
    obtain ⟨served, hserved⟩ := Option.ne_none_iff_exists'.1 hdefined
    rw [hserved] at hsame
    obtain ⟨result, -, rfl⟩ := Option.map_eq_some_iff.1 hserved
    obtain ⟨other, -, hboth⟩ := Option.map_eq_some_iff.1 hsame
    exact congrArg Prod.fst hboth

/-- If the receives carry the lines one each, then the commands and the server and the
namespace they leave are those of the lines.  The receives that hold the tokens of the lines are
the only ones for which this is so, and for plain lines only receives that carry them one each
do. -/
theorem framing_independent_iff (envs : ℕ → Env F) (hconnected : Connected state fd)
    {bodies received : List (List Byte)} (hdelivered : Delivered bodies received) :
    let same := servedStream envs state fd received = servedStream envs state fd (linesOf bodies)
    (Framed received (linesOf bodies) → same) ∧
    (servedStream envs state fd (linesOf bodies) ≠ none →
      (same ↔ commandsOf received = commandsOf (linesOf bodies)) ∧
      ((∀ line ∈ linesOf bodies, PlainLine line) →
        (same ↔ Framed received (linesOf bodies)))) := by
  obtain ⟨hsame, hcommands⟩ := servedStream_eq_iff envs hconnected hdelivered.receivable
    hdelivered.lines_receivable
  refine ⟨fun hframed => hsame hframed.commandsOf_eq, fun hdefined => ⟨?_, fun hplain => ?_⟩⟩
  · exact ⟨hcommands hdefined, hsame⟩
  · exact ⟨fun heq => framed_of_commandsOf hdelivered.stream_eq hplain (hcommands hdefined heq),
      fun hframed => hsame hframed.commandsOf_eq⟩

end Runs

/-- A new server with one client, on descriptor 5. -/
def firstClient : ReactorState Float32 where
  server := Server.start Float32 1000 .lru
  connList := Function.update (reactorStart (Server.start Float32 1000 .lru) [3]).connList 5
    { Conn.zero with rAction := some .recvCb, ns := lit "default" }
  opened := Function.update (fun fd => fd ∈ [3]) 5 true

theorem firstClient_connected : Connected firstClient 5 :=
  ⟨by decide, rfl, rfl⟩

/-- Two commands of a client. -/
def twoCommands : List (List Byte) :=
  [ascii "SET a 1", ascii "SET b 2"]

/-- Each line in a receive of its own, the line end of the first with the second. -/
theorem framing_independent_iff_lateLineEnd :
    servedStream (fun _ => Env.quiet Float32) firstClient 5
        [ascii "SET a 1\r", ascii "\nSET b 2\r\n"] =
      servedStream (fun _ => Env.quiet Float32) firstClient 5 (linesOf twoCommands) := by
  have hdelivered : Delivered twoCommands [ascii "SET a 1\r", ascii "\nSET b 2\r\n"] :=
    ⟨by decide, by unfold Receivable; decide, by decide⟩
  refine (framing_independent_iff (fun _ => Env.quiet Float32) firstClient_connected
    hdelivered).1 ?_
  exact .cons (.inr (by decide)) (.cons (.inl (by decide)) .nil)

/-- The array engine and the commands after some receives. -/
def storedBy (received : List (List Byte)) : Option (List (List CStr) × StrPtr × StrPtr) :=
  (servedStream (fun _ => Env.quiet Float32) firstClient 5 received).map fun served =>
    (served.1, kvsArrayGet served.2.1.engines.array (some (lit "a")),
      kvsArrayGet served.2.1.engines.array (some (lit "b")))

/-- Two lines in one receive are one command. -/
theorem coalesced_lines_are_one_command :
    Delivered twoCommands [ascii "SET a 1\r\nSET b 2\r\n"] ∧
    storedBy (linesOf twoCommands) =
      some ([[lit "SET", lit "a", lit "1"], [lit "SET", lit "b", lit "2"]],
        .text (lit "1"), .text (lit "2")) ∧
    storedBy [ascii "SET a 1\r\nSET b 2\r\n"] =
      some ([[lit "SET", lit "a", lit "1", lit "SET", lit "b", lit "2"]],
        .text (lit "1 SET b 2"), .null) := by
  refine ⟨⟨by decide, by unfold Receivable; decide, by decide⟩, ?_, ?_⟩
  · decide +kernel
  · decide +kernel

end LiteMultiKV.Reactor
