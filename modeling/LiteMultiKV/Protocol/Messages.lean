import LiteMultiKV.Persist.RoundTrip
import LiteMultiKV.Protocol.Requests

/-!
# Messages

A message is the bytes of one receive with the terminator that follows them.  This
file bounds what a message can bring into the engines, shows that every state that
messages reach is sound, and says when a dump of such a state can be loaded again.
-/

namespace LiteMultiKV.Protocol

open List Cache CText Families Files Memory Numeric Persist Run LiteMultiKV.Skip

/-- The bytes of a message, the namespace of its connection and what the environment
decides while it is served. -/
structure Message (F : Type) where
  env : Env F
  ns : CStr
  bytes : List Byte

/-- The longest message that leaves room for its terminator. -/
def messageLimit : ℕ := 1023

variable {F : Type}

/-- The message terminated in its buffer. -/
def Message.buffer (message : Message F) : List Byte :=
  message.bytes ++ [0]

/-- The tokens `kvs_protocol` finds in the message. -/
def Message.tokens (message : Message F) : List CStr :=
  tokenStrings (stripLines message.bytes.length message.buffer)

def receive [CFloat F] (server : Server F) (message : Message F) :
    Option (Server F × Written) :=
  (kvsProtocol message.env message.buffer message.bytes.length message.ns server).map
    fun outcome => (outcome.server, outcome.reply)

/-! ## Lengths of tokens -/

theorem length_cut (test : Byte → Bool) (bytes : List Byte) :
    (bytes.takeWhile test).length + (bytes.dropWhile test).tail.length ≤ bytes.length ∧
      ((bytes.dropWhile test).tail ≠ [] →
        (bytes.takeWhile test).length + (bytes.dropWhile test).tail.length < bytes.length) := by
  have hsplit := congrArg List.length (takeWhile_append_dropWhile (p := test) (l := bytes))
  rw [length_append] at hsplit
  rw [← length_pos_iff, length_tail]
  omega

/-- A token and what follows it share the text, and a byte between them is lost. -/
theorem length_nextToken {text token rest : List Byte}
    (hnext : nextToken text = some (token, rest)) :
    token.length + rest.length ≤ text.length ∧
      (rest ≠ [] → token.length + rest.length < text.length) := by
  have hdrop : (text.dropWhile (· = blank)).length ≤ text.length :=
    (dropWhile_suffix _).length_le
  unfold nextToken at hnext
  cases hblank : text.dropWhile (· = blank) with
  | nil => simp [hblank] at hnext
  | cons byte tail =>
      rw [hblank, length_cons] at hdrop
      rw [hblank] at hnext
      simp only at hnext
      split at hnext
      · simp only [Option.some.injEq, Prod.mk.injEq] at hnext
        obtain ⟨rfl, rfl⟩ := hnext
        obtain ⟨hle, hlt⟩ := length_cut (· ≠ quote) tail
        exact ⟨by omega, fun hrest => by have := hlt hrest; omega⟩
      · simp only [Option.some.injEq, Prod.mk.injEq] at hnext
        obtain ⟨rfl, rfl⟩ := hnext
        obtain ⟨hle, hlt⟩ := length_cut (· ≠ blank) (byte :: tail)
        rw [length_cons] at hle hlt
        exact ⟨by omega, fun hrest => by have := hlt hrest; omega⟩

theorem sum_grammarTokens (limit : ℕ) (text : List Byte) :
    ((grammarTokens limit text).map fun token => token.length + 1).sum ≤ text.length + 1 := by
  induction limit generalizing text with
  | zero => simp [grammarTokens]
  | succ limit ih =>
      unfold grammarTokens
      cases hnext : nextToken text with
      | none => simp
      | some pair =>
          obtain ⟨token, rest⟩ := pair
          simp only [map_cons, sum_cons]
          by_cases hrest : rest = []
          · have htoken := (length_nextToken hnext).1
            simpa [hrest, grammarTokens_nil] using htoken
          · have hlength := (length_nextToken hnext).2 hrest
            have hsum := ih rest
            omega

/-- The bytes that tokens take up in a message, each with the byte behind it. -/
def tokenRoom (tokens : List CStr) : ℕ :=
  (tokens.map fun token => strlen token + 1).sum

theorem strlen_lt_tokenRoom {tokens : List CStr} {token : CStr} (htoken : token ∈ tokens) :
    strlen token < tokenRoom tokens :=
  single_le_sum (fun _ _ => Nat.zero_le _) _ (mem_map_of_mem htoken)

theorem stripLines_buffer (message : Message F) :
    stripLines message.bytes.length message.buffer = message.bytes.map stripByte ++ [0] := by
  simp [stripLines, Message.buffer]

/-- The tokens of a message share its bytes. -/
theorem Message.tokenRoom_le (message : Message F) :
    tokenRoom message.tokens ≤ message.bytes.length + 1 := by
  have hsum := sum_grammarTokens kvsMaxTokens
    (CStr.read (stripLines message.bytes.length message.buffer)).bytes
  have hread := CStr.length_read_le (message.bytes.map stripByte)
  rw [← stripLines_buffer, length_map] at hread
  rw [← tokenStrings_eq, map_map] at hsum
  exact hsum.trans (Nat.add_le_add_right hread 1)

/-- No token is longer than the message. -/
theorem Message.strlen_token {message : Message F} {token : CStr}
    (htoken : token ∈ message.tokens) : strlen token ≤ message.bytes.length :=
  Nat.lt_succ_iff.1 ((strlen_lt_tokenRoom htoken).trans_le message.tokenRoom_le)

theorem length_joinLoop (size : ℕ) (first : Bool) (tokens : List CStr) (dst : List Byte)
    (hdst : dst.length ≤ size) : (joinLoop size first tokens dst).length ≤ size := by
  induction tokens generalizing first dst with
  | nil => exact hdst
  | cons token tokens ih =>
      unfold joinLoop
      split
      next hroom =>
        apply ih
        simp only [length_append, length_take, strlen]
        split <;> split <;> simp_all <;> omega
      next => exact hdst

theorem strlen_joinTokens (tokens : List CStr) (size : ℕ) :
    strlen (joinTokens tokens size) ≤ size :=
  (takeWhile_sublist _).length_le.trans (length_joinLoop size true tokens [] (Nat.zero_le _))

theorem strlen_valueToken {tokens : List CStr} {value : CStr} {limit : ℕ}
    (htokens : ∀ token ∈ tokens, strlen token ≤ limit) (hlimit : joinBufferSize ≤ limit)
    (hvalue : valueToken tokens = some value) : strlen value ≤ limit := by
  unfold valueToken at hvalue
  split at hvalue
  · rw [Option.some.injEq] at hvalue
    exact hvalue ▸ (strlen_joinTokens _ _).trans hlimit
  · exact htokens value (mem_of_getElem? hvalue)

theorem strlen_makeNamespacedKey {ns key : CStr} {token : Option CStr} {limit : ℕ}
    (htoken : ∀ text ∈ token, strlen text ≤ limit) (hlimit : keyBufferSize ≤ limit)
    (hkey : makeNamespacedKey ns token = some key) : strlen key ≤ limit := by
  unfold makeNamespacedKey at hkey
  split at hkey
  · exact htoken key hkey
  · rw [Option.some.injEq] at hkey
    subst hkey
    simp only [strlen, CStr.take, length_take, keyBufferSize] at hlimit ⊢
    omega

/-! ## The engines after a message -/

/-- The text a call stores. -/
def Call.text : Call → Option CStr
  | .set _ value => some value
  | .mod _ value => some value
  | _ => none

/-- What a key-value command may have done to the engines. -/
def EnginesMoved (chance : Chance) (family : Family) (key : CStr) (value : Option CStr)
    (before after : Engines) : Prop :=
  after = before ∨ ∃ call answer, engineCall chance family before call = some (after, answer) ∧
    call.key = key ∧ ∀ text, Call.text call = some text → value = some text

section Engines

variable {chance : Chance} {family : Family} {operation : Operation} {server after : Server F}
variable {key : CStr} {stored value : Option CStr} {reply : Written} {enableCache : Bool}
variable {alloc : Alloc}

/-- A read of the engine that returns has found no value, or it shows a text, after caching
it if there is a cache. -/
theorem readEngine_cases
    (hread : readEngine enableCache alloc family server stored = some (after, reply)) :
    (engineGet family server.engines stored = some .null ∧ after = server ∧
      reply = say "NO EXIST\r\n") ∨
    ∃ text, engineGet family server.engines stored = some (.text text) ∧
      reply = showValue text ∧
      (enableCache = false ∧ after = server ∨ enableCache = true ∧ ∃ name cache,
        stored = some name ∧ kvsCacheLruAdd alloc server.cache name text = some cache ∧
          after = { server with cache := cache }) := by
  simp only [readEngine, Option.bind_eq_bind, Option.bind_eq_some_iff] at hread
  obtain ⟨pointer, hpointer, hread⟩ := hread
  cases pointer with
  | null =>
      obtain ⟨rfl, rfl⟩ := Prod.mk.inj (Option.some.inj hread)
      exact .inl ⟨hpointer, rfl, rfl⟩
  | freed => cases hread
  | text text =>
      refine .inr ⟨text, hpointer, ?_⟩
      cases enableCache with
      | false =>
          obtain ⟨rfl, rfl⟩ := Prod.mk.inj (Option.some.inj hread)
          exact ⟨rfl, .inl ⟨rfl, rfl⟩⟩
      | true =>
          simp only [if_true, Option.bind_eq_some_iff, Option.pure_def, Option.some.injEq,
            Prod.mk.injEq] at hread
          obtain ⟨name, hname, cache, hadd, rfl, rfl⟩ := hread
          exact ⟨rfl, .inr ⟨rfl, name, cache, hname, hadd, rfl⟩⟩

/-- `GET` shows what is cached, or reads the engine with the cache as the lookup leaves it. -/
theorem getCommand_cases
    (hget : getCommand enableCache alloc family server stored = some (after, reply)) :
    (enableCache = false ∧
      readEngine enableCache alloc family server stored = some (after, reply)) ∨
    enableCache = true ∧ ∃ looked cached,
      kvsCacheGet server.cache stored = some (looked, cached) ∧
      ((∃ text, cached = some text ∧ after = { server with cache := looked } ∧
          reply = showValue text) ∨
        cached = none ∧ readEngine enableCache alloc family { server with cache := looked }
          stored = some (after, reply)) := by
  cases enableCache with
  | false => exact .inl ⟨rfl, hget⟩
  | true =>
      simp only [getCommand, if_true, Option.bind_eq_bind, Option.bind_eq_some_iff] at hget
      obtain ⟨⟨looked, cached⟩, hlooked, hget⟩ := hget
      refine .inr ⟨rfl, looked, cached, hlooked, ?_⟩
      cases cached with
      | none => exact .inr ⟨rfl, hget⟩
      | some text =>
          obtain ⟨rfl, rfl⟩ := Prod.mk.inj (Option.some.inj hget)
          exact .inl ⟨text, rfl, rfl, rfl⟩

/-- What a key-value command that returns has done. -/
inductive Executed (enableCache : Bool) (chance : Chance) (family : Family) (server : Server F)
    (stored value : Option CStr) : Operation → Server F → Written → Prop
  | set (engines : Engines) (code : ℤ)
      (hset : engineSet chance family server.engines stored value = some (engines, code)) :
      Executed enableCache chance family server stored value .set
        { server with engines := engines } (codeReply code "EXIST\r\n")
  | get {after : Server F} {reply : Written}
      (hget : getCommand enableCache chance.alloc family server stored = some (after, reply)) :
      Executed enableCache chance family server stored value .get after reply
  | del (engines : Engines) (code : ℤ) {cache : CacheManager F}
      (hdel : engineDel family server.engines stored = some (engines, code))
      (hdrop : dropCached enableCache server.cache stored code = some cache) :
      Executed enableCache chance family server stored value .del
        { server with engines := engines, cache := cache } (codeReply code "NO EXIST\r\n")
  | mod (engines : Engines) (code : ℤ) {cache : CacheManager F}
      (hmod : engineMod chance family server.engines stored value = some (engines, code))
      (hdrop : dropCached enableCache server.cache stored code = some cache) :
      Executed enableCache chance family server stored value .mod
        { server with engines := engines, cache := cache } (codeReply code "NO EXIST\r\n")
  | exist {code : ℤ} (hexist : engineExist family server.engines stored = some code) :
      Executed enableCache chance family server stored value .exist server
        (if code = 0 then say "EXIST\r\n" else say "NO EXIST\r\n")

theorem executed_of_keyValueCommand
    (hcommand : keyValueCommand enableCache chance family operation server stored value =
      some (after, reply)) :
    Executed enableCache chance family server stored value operation after reply := by
  cases operation with
  | get => exact .get hcommand
  | set =>
      simp only [keyValueCommand, Option.bind_eq_bind, Option.bind_eq_some_iff,
        Option.pure_def, Option.some.injEq, Prod.mk.injEq] at hcommand
      obtain ⟨⟨engines, code⟩, hset, rfl, rfl⟩ := hcommand
      exact .set engines code hset
  | del =>
      simp only [keyValueCommand, Option.bind_eq_bind, Option.bind_eq_some_iff,
        Option.pure_def, Option.some.injEq, Prod.mk.injEq] at hcommand
      obtain ⟨⟨engines, code⟩, hdel, cache, hdrop, rfl, rfl⟩ := hcommand
      exact .del engines code hdel hdrop
  | mod =>
      simp only [keyValueCommand, Option.bind_eq_bind, Option.bind_eq_some_iff,
        Option.pure_def, Option.some.injEq, Prod.mk.injEq] at hcommand
      obtain ⟨⟨engines, code⟩, hmod, cache, hdrop, rfl, rfl⟩ := hcommand
      exact .mod engines code hmod hdrop
  | exist =>
      simp only [keyValueCommand, Option.bind_eq_bind, Option.bind_eq_some_iff,
        Option.pure_def, Option.some.injEq, Prod.mk.injEq] at hcommand
      obtain ⟨code, hexist, rfl, rfl⟩ := hcommand
      exact .exist hexist

theorem readEngine_engines
    (hread : readEngine enableCache alloc family server stored = some (after, reply)) :
    after.engines = server.engines := by
  rcases readEngine_cases hread with
    ⟨-, rfl, -⟩ | ⟨_, -, -, ⟨-, rfl⟩ | ⟨-, _, _, -, -, rfl⟩⟩ <;> rfl

theorem getCommand_engines
    (hget : getCommand enableCache alloc family server stored = some (after, reply)) :
    after.engines = server.engines := by
  rcases getCommand_cases hget with
    ⟨-, hread⟩ | ⟨-, looked, _, -, ⟨_, -, rfl, -⟩ | ⟨-, hread⟩⟩
  · exact readEngine_engines hread
  · rfl
  · have hengines := readEngine_engines hread
    exact hengines

/-- Whatever is cached, a command calls its engine at most once. -/
theorem keyValueCommand_engines (hvalue : operation.takesValue = true → value ≠ none)
    (hcommand : keyValueCommand enableCache chance family operation server (some key) value =
      some (after, reply)) :
    EnginesMoved chance family key value server.engines after.engines := by
  cases executed_of_keyValueCommand hcommand with
  | set engines code hset =>
      obtain ⟨text, rfl⟩ := Option.ne_none_iff_exists'.1 (hvalue rfl)
      exact .inr ⟨.set key text, .code code, by simp [engineCall, hset], rfl, fun _ htext => htext⟩
  | get hget => exact .inl (getCommand_engines hget)
  | del engines code hdel hdrop =>
      exact .inr ⟨.del key, .code code, by simp [engineCall, hdel], rfl,
        fun _ htext => by cases htext⟩
  | mod engines code hmod hdrop =>
      obtain ⟨text, rfl⟩ := Option.ne_none_iff_exists'.1 (hvalue rfl)
      exact .inr ⟨.mod key text, .code code, by simp [engineCall, hmod], rfl, fun _ htext => htext⟩
  | exist => exact .inl rfl

variable [CFloat F]

/-- Only the key-value commands change the engines. -/
theorem runCommand_engines {env : Env F} {command : Command}
    {tokens : List CStr} {ns : CStr} {outcome : Outcome F}
    (hrun : runCommand enableCache env command tokens ns server = some outcome) :
    outcome.server.engines = server.engines ∨ ∃ family operation reply,
      runKeyValue enableCache env.chance family operation tokens ns server =
        some (outcome.server, reply) := by
  cases ran_of_runCommand hrun with
  | keyValue hcommand => exact .inr ⟨_, _, _, hcommand⟩
  | _ => exact .inl rfl

end Engines

/-- Engines that are sound and hold no string too long for a dump. -/
structure Stocked (engines : Engines) : Prop where
  sound : Sound engines
  bounded : ∀ family key value, textHeld family engines key = some value →
    strlen key ≤ maxStringLength ∧ strlen value ≤ maxStringLength

theorem textHeld_create (family : Family) (key : CStr) :
    textHeld family Engines.create key = none := by
  rw [textHeld, held, Families.create_entries]
  rfl

theorem stocked_create : Stocked Engines.create where
  sound := sound_create
  bounded := by
    intro family key value htext
    rw [textHeld_create] at htext
    cases htext

theorem bounded_mapCall {texts : Texts} {call : Call} {limit : ℕ}
    (htexts : ∀ key value, texts key = some value → strlen key ≤ limit ∧ strlen value ≤ limit)
    (hkey : strlen call.key ≤ limit)
    (htext : ∀ text, Call.text call = some text → strlen text ≤ limit) :
    ∀ key value, (mapCall texts call).1 key = some value →
      strlen key ≤ limit ∧ strlen value ≤ limit := by
  intro key value hvalue
  by_cases hother : key = call.key
  · subst hother
    cases call with
    | set own text =>
        simp only [mapCall] at hvalue
        split at hvalue
        · simp only [Call.key, Function.update_self, Option.some.injEq] at hvalue
          exact ⟨hkey, hvalue ▸ htext text rfl⟩
        · exact htexts _ _ hvalue
    | mod own text =>
        simp only [mapCall] at hvalue
        split at hvalue
        · exact htexts _ _ hvalue
        · simp only [Call.key, Function.update_self, Option.some.injEq] at hvalue
          exact ⟨hkey, hvalue ▸ htext text rfl⟩
    | del own =>
        simp only [mapCall] at hvalue
        split at hvalue
        · exact htexts _ _ hvalue
        · simp [Call.key] at hvalue
    | get own => exact htexts _ _ hvalue
    | exist own => exact htexts _ _ hvalue
  · apply htexts
    cases call <;> simp only [mapCall, Call.key] at hvalue hother <;>
      first
        | exact hvalue
        | (split at hvalue <;> simp_all [Function.update_of_ne])

section Stocked

variable [CFloat F] {server after : Server F} {message : Message F} {reply : Written}

/-- A command whose key and value respect a limit keeps every string within it. -/
theorem bounded_moved {coins : Coins} {family : Family} {key : CStr} {value : Option CStr}
    {before after : Engines} {limit : ℕ} (hsound : Sound before)
    (hbounded : ∀ family key value, textHeld family before key = some value →
      strlen key ≤ limit ∧ strlen value ≤ limit)
    (hmoved : EnginesMoved ⟨allocOk, coins⟩ family key value before after)
    (hkey : strlen key ≤ limit) (hvalue : ∀ text, value = some text → strlen text ≤ limit) :
    ∀ family key value, textHeld family after key = some value →
      strlen key ≤ limit ∧ strlen value ≤ limit := by
  rcases hmoved with rfl | ⟨call, answer, hcall, rfl, htext⟩
  · exact hbounded
  · intro other stored text hstored
    by_cases hfull : (∃ own text, call = .set own text) ∧ Full family before
    · obtain ⟨⟨own, text, rfl⟩, hfull⟩ := hfull
      rw [engineCall_full hsound hfull, Option.some.injEq, Prod.mk.injEq] at hcall
      obtain ⟨rfl, -⟩ := hcall
      exact hbounded other stored _ hstored
    · obtain ⟨expected, hexpected, hcontained, htexts⟩ := engineCall_spec hsound
        (addressable_of_engineCall hcall)
        (fun own text heq hfull' => hfull ⟨⟨own, text, heq⟩, hfull'⟩) coins
      rw [hcall, Option.some.injEq, Prod.mk.injEq] at hexpected
      obtain ⟨rfl, -⟩ := hexpected
      by_cases hother : other = family
      · subst hother
        rw [htexts] at hstored
        exact bounded_mapCall (hbounded other) hkey
          (fun text hcalled => hvalue text (htext text hcalled)) stored text hstored
      · rw [(hcontained.others other hother).textHeld_eq] at hstored
        exact hbounded other stored text hstored

theorem sound_moved {coins : Coins} {family : Family} {key : CStr} {value : Option CStr}
    {before after : Engines} (hsound : Sound before)
    (hmoved : EnginesMoved ⟨allocOk, coins⟩ family key value before after) : Sound after := by
  rcases hmoved with rfl | ⟨call, answer, hcall, -, -⟩
  · exact hsound
  · exact sound_of_engineCall hsound hcall

theorem Stocked.moved {coins : Coins} {family : Family} {key : CStr} {value : Option CStr}
    {before after : Engines} (hstocked : Stocked before)
    (hmoved : EnginesMoved ⟨allocOk, coins⟩ family key value before after)
    (hkey : strlen key ≤ maxStringLength)
    (hvalue : ∀ text, value = some text → strlen text ≤ maxStringLength) : Stocked after :=
  ⟨sound_moved hstocked.sound hmoved,
    bounded_moved hstocked.sound hstocked.bounded hmoved hkey hvalue⟩

/-- The outcome of a message comes from the dispatcher, or leaves the server alone. -/
theorem receive_cases (hreceive : receive server message = some (after, reply)) :
    after = server ∨ ∃ command outcome,
      runCommand true message.env command message.tokens message.ns server = some outcome ∧
      after = outcome.server := by
  simp only [receive, kvsProtocol, Option.map_eq_some_iff, Prod.mk.injEq] at hreceive
  obtain ⟨outcome, hprotocol, rfl, rfl⟩ := hreceive
  split at hprotocol
  · obtain rfl := Option.some.inj hprotocol
    exact .inl rfl
  · split at hprotocol
    · obtain rfl := Option.some.inj hprotocol
      exact .inl rfl
    · simp only [Option.bind_eq_bind, Option.bind_eq_some_iff, Option.pure_def,
        Option.some.injEq] at hprotocol
      obtain ⟨inner, hfilter, rfl⟩ := hprotocol
      have hserver : (if inner.reply.length < 0 then { inner with reply := say "ERROR\r\n" }
          else inner).server = inner.server := by
        split <;> rfl
      rw [hserver]
      unfold kvsFilterProtocol at hfilter
      split at hfilter
      next command hcommand => exact .inr ⟨command, inner, hfilter, rfl⟩
      next =>
        obtain rfl := Option.some.inj hfilter
        exact .inl rfl

/-- A message keeps the engines stocked. -/
theorem Stocked.receive (hstocked : Stocked server.engines)
    (halloc : message.env.alloc = allocOk) (hlength : message.bytes.length ≤ messageLimit)
    (hreceive : receive server message = some (after, reply)) : Stocked after.engines := by
  have hlimit : messageLimit ≤ maxStringLength := by decide
  have htokens : ∀ token ∈ message.tokens, strlen token ≤ maxStringLength := fun token htoken =>
    (message.strlen_token htoken).trans (hlength.trans hlimit)
  rcases receive_cases hreceive with rfl | ⟨command, outcome, hrun, rfl⟩
  · exact hstocked
  · rcases runCommand_engines hrun with hsame | ⟨family, operation, _, hcommand⟩
    · rw [hsame]
      exact hstocked
    · cases hkey : storedKey operation message.tokens message.ns with
      | none =>
          rw [runKeyValue_idle hkey, Option.some.injEq, Prod.mk.injEq] at hcommand
          rw [← hcommand.1]
          exact hstocked
      | some key =>
          rw [runKeyValue_keyed hkey, Env.chance, halloc] at hcommand
          refine hstocked.moved (keyValueCommand_engines (valueToken_ne_none hkey) hcommand) ?_
            fun text htext => strlen_valueToken htokens (by decide) htext
          exact strlen_makeNamespacedKey (fun text htext => htokens text (mem_of_getElem? htext))
            (by decide) (makeNamespacedKey_of_storedKey hkey)

end Stocked

/-! ## Dumps of reachable states -/

section Dumps

variable [CFloat F]

/-- The server as `init_kvengine` leaves it when there is no dump. -/
def Server.fresh (F : Type) [CFloat F] : Server F where
  engines := Engines.create
  vector := Vector.kvsVectorCreate F
  cache := kvsCacheInit F 1000

theorem initKvengine_eq (chance : LoadChance) {disk : Disk}
    (habsent : disk.read rdbFilename = none) :
    initKvengine F chance disk = some (Server.fresh F) := by
  simp [initKvengine, rdbLoadDefault, rdbLoad, habsent, Server.fresh]

/-- Every state that messages reach is stocked. -/
theorem stocked_of_run {messages : List (Message F)}
    (hmessages : ∀ message ∈ messages, message.env.alloc = allocOk ∧
      message.bytes.length ≤ messageLimit) {server : Server F} {replies : List Written}
    (hrun : run receive (Server.fresh F) messages = some (server, replies)) :
    Stocked server.engines := by
  have hstart : Stocked (Server.fresh F).engines := stocked_create
  exact run_preserves_along
    (fun _ _ _ _ hstocked hmessage hreceive =>
      Stocked.receive hstocked hmessage.1 hmessage.2 hreceive)
    hstart (along_of_forall (fun _ => hmessages) _) hrun

/-- A state that messages have reached can be dumped and loaded again without loss
exactly when no live key and no live value is empty. -/
theorem dump_reloads_iff {messages : List (Message F)}
    (hmessages : ∀ message ∈ messages, message.env.alloc = allocOk ∧
      message.bytes.length ≤ messageLimit) {server : Server F} {replies : List Written}
    (hrun : run receive (Server.fresh F) messages = some (server, replies))
    (save : SaveChance) {records : List Record}
    (hrecords : liveRecords server.engines = some records)
    (hopen : 0 ≤ save.results 0)
    (hwrites : Whole save.results 1 (saveOps save.timestamp records))
    (hrename : 0 ≤ save.results ((saveOps save.timestamp records).length + 1))
    (load : LoadChance) (hload : load.Succeeds) (disk : Disk) :
    ∃ saved loaded saveCount loadCount,
      rdbSaveDefault save server.engines disk = some (saved, saveCount) ∧
      rdbLoadDefault load saved Engines.create = some (loaded, loadCount) ∧
      ((loadCount = saveCount ∧ ∀ record ∈ records,
          textHeld record.family loaded record.key = some record.value) ↔
        ∀ family key value, textHeld family server.engines key = some value →
          0 < strlen key ∧ 0 < strlen value) := by
  have hstocked := stocked_of_run hmessages hrun
  obtain ⟨expected, hexpected, -, hlive, hloadable⟩ := liveRecords_spec hstocked.sound
  obtain rfl : expected = records := by
    rw [hrecords, Option.some.injEq] at hexpected
    exact hexpected.symm
  obtain ⟨saved, hsaved, hread⟩ :=
    rdbSave_complete save hrecords rdbFilename disk hopen hwrites hrename
  have hbounded : ∀ record ∈ expected, strlen record.key ≤ maxStringLength ∧
      strlen record.value ≤ maxStringLength := fun record hrecord =>
    hstocked.bounded record.family record.key record.value ((hlive record).1 hrecord)
  by_cases hall : ∀ record ∈ expected, record.Accepted
  · obtain ⟨loaded, habsorbed, hloaded⟩ := rdbLoad_encoding hload save.timestamp hall hloadable
    refine ⟨saved, loaded, _, _, hsaved, by rw [rdbLoadDefault, hread, hloaded], ?_⟩
    refine ⟨fun _ family key value htext => ?_, fun _ => ⟨rfl, habsorbed.added⟩⟩
    have haccepted := hall ⟨family, key, value⟩ ((hlive ⟨family, key, value⟩).2 htext)
    exact ⟨haccepted.1.1, haccepted.2.1⟩
  · -- cut the records before the first one that is refused
    have hsplit := takeWhile_append_dropWhile (p := fun record => decide record.Accepted)
      (l := expected)
    cases hdrop : expected.dropWhile (fun record => decide record.Accepted) with
    | nil =>
        refine absurd (fun record hrecord => ?_) hall
        simpa using dropWhile_eq_nil_iff.1 hdrop record hrecord
    | cons bad back =>
        have hbad : ¬bad.Accepted := by
          have hhead := head_dropWhile_not (fun record : Record => decide record.Accepted)
            (l := expected) (by simp [hdrop])
          simpa [hdrop] using hhead
        rw [hdrop] at hsplit
        have hmem : bad ∈ expected := by
          rw [← hsplit]
          exact mem_append_right _ mem_cons_self
        obtain ⟨hkey, hvalue⟩ := hbounded bad hmem
        have hempty : strlen bad.key = 0 ∨ strlen bad.value = 0 := by
          by_contra hfilled
          rw [not_or] at hfilled
          exact hbad ⟨⟨Nat.pos_of_ne_zero hfilled.1, hkey⟩,
            ⟨Nat.pos_of_ne_zero hfilled.2, hvalue⟩⟩
        have hfront : ∀ record ∈ expected.takeWhile (fun record => decide record.Accepted),
            record.Accepted := fun record hrecord => by
          simpa using mem_takeWhile_imp hrecord
        obtain ⟨loaded, -, hloaded⟩ := rdbLoad_refused hload save.timestamp hfront
          ⟨hempty, hkey, hvalue⟩ (hsplit ▸ hloadable)
        rw [hsplit] at hloaded
        refine ⟨saved, loaded, _, _, hsaved, by rw [rdbLoadDefault, hread, hloaded], ?_⟩
        refine ⟨fun hcount => absurd hcount.1 ?_, fun hfilled => ?_⟩
        · have hlength := congrArg length hsplit
          rw [length_append, length_cons] at hlength
          omega
        · obtain ⟨hkeyFilled, hvalueFilled⟩ :=
            hfilled bad.family bad.key bad.value ((hlive bad).1 hmem)
          omega

/-- A message with the given text. -/
def Message.typed (F : Type) [CFloat F] (ns text : String) : Message F where
  env := Env.quiet F
  ns := lit ns
  bytes := ascii text

/-- One pair with text on both sides. -/
def filledPair : List (Message Float32) :=
  [Message.typed Float32 "default" "SET k v\r\n"]

/-- The results of a save of the pair in which every call completes. -/
def filledResults (i : ℕ) : ℤ :=
  [0, 5, 4, 4, 4, 4, 4, 1, 4, 1, 4, 0].getD i 0

theorem dump_reloads_iff_filledPair :
    ∃ server replies saved loaded saveCount loadCount,
      run receive (Server.fresh Float32) filledPair = some (server, replies) ∧
      rdbSaveDefault ⟨0, filledResults⟩ server.engines Disk.empty = some (saved, saveCount) ∧
      rdbLoadDefault LoadChance.quiet saved Engines.create = some (loaded, loadCount) ∧
      ((loadCount = saveCount ∧ ∀ record ∈ [(⟨.array, lit "k", lit "v"⟩ : Record)],
          textHeld record.family loaded record.key = some record.value) ↔
        ∀ family key value, textHeld family server.engines key = some value →
          0 < strlen key ∧ 0 < strlen value) := by
  have hrecords : (run receive (Server.fresh Float32) filledPair).bind (fun result =>
      liveRecords result.1.engines) = some [⟨.array, lit "k", lit "v"⟩] := by decide +kernel
  obtain ⟨⟨server, replies⟩, hrun, hlive⟩ := Option.bind_eq_some_iff.1 hrecords
  have hmessages : ∀ message ∈ filledPair, message.env.alloc = allocOk ∧
      message.bytes.length ≤ messageLimit := by
    intro message hmessage
    obtain rfl := mem_singleton.1 hmessage
    exact ⟨rfl, by decide⟩
  obtain ⟨saved, loaded, saveCount, loadCount, hsave, hload, hiff⟩ :=
    dump_reloads_iff hmessages hrun ⟨0, filledResults⟩ hlive (by decide) (by decide) (by decide)
      LoadChance.quiet LoadChance.quiet_succeeds Disk.empty
  exact ⟨server, replies, saved, loaded, saveCount, loadCount, hrun, hsave, hload, hiff⟩

/-- An empty value, and a pair stored after it. -/
def emptyValue : List (Message Float32) :=
  [Message.typed Float32 "default" "SET k \"\"\r\n",
    Message.typed Float32 "default" "SET j v\r\n"]

/-- The results of a save of the two pairs in which every call completes. -/
def emptyValueResults (i : ℕ) : ℤ :=
  [0, 5, 4, 4, 4, 4, 4, 1, 4, 0, 4, 4, 1, 4, 1, 4, 0].getD i 0

/-- The save reports two keys and the load none. -/
theorem empty_value_truncates_load :
    (run receive (Server.fresh Float32) emptyValue).map Prod.snd =
        some [say "OK\r\n", say "OK\r\n"] ∧
      ((run receive (Server.fresh Float32) emptyValue).bind (fun result =>
        rdbSaveDefault ⟨0, emptyValueResults⟩ result.1.engines Disk.empty)).map (fun result =>
          (result.2, (rdbLoadDefault LoadChance.quiet result.1 Engines.create).map Prod.snd)) =
        some (2, some 0) := by
  decide +kernel

end Dumps

end LiteMultiKV.Protocol
