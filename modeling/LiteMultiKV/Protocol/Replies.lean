import LiteMultiKV.Engine.VectorGraph
import LiteMultiKV.Protocol.Messages

/-!
# Replies

A connection has `BUFFER_LENGTH` bytes for the reply, and most reply sites write
without asking for that size.  This file bounds what each command can write in a
state that messages reach, and says which messages overrun the buffer, report a
length beyond it, or have no reply at all.
-/

namespace LiteMultiKV.Protocol

open List Cache CText Families Memory Numeric Persist Run LiteMultiKV.Skip LiteMultiKV.Vector

/-- `BUFFER_LENGTH`. -/
def bufferLength : ℕ := 1024

/-- A reply that stays in the buffer and whose length does so too. -/
def Fits (reply : Written) : Prop :=
  reply.buffer.length ≤ bufferLength ∧ 0 ≤ reply.length ∧ reply.length ≤ bufferLength

instance (reply : Written) : Decidable (Fits reply) :=
  inferInstanceAs (Decidable (_ ∧ _ ∧ _))

/-- The longest value whose line fits, with room for the line end. -/
def valueLimit : ℕ := 1022

theorem fits_sprintf_iff {text : List Byte} : Fits (sprintf text) ↔ text.length < bufferLength := by
  simp only [Fits, sprintf, length_append, length_singleton]
  omega

theorem fits_say {text : String} (hshort : (ascii text).length < bufferLength) :
    Fits (say text) :=
  fits_sprintf_iff.2 hshort

theorem fits_showValue_iff {value : CStr} : Fits (showValue value) ↔ strlen value ≤ valueLimit := by
  simp only [Fits, showValue, snprintf, responseMaxLen, bufferLength, valueLimit, crlf, strlen,
    length_append, length_cons, length_nil]
  simp only [OfNat.ofNat_ne_zero, if_false, length_append, length_take, length_cons, length_nil]
  omega

theorem fits_codeReply (code : ℤ) {positive : String}
    (hshort : (ascii positive).length < bufferLength) : Fits (codeReply code positive) := by
  unfold codeReply
  split
  · exact fits_say (by decide)
  · split
    · exact fits_say (by decide)
    · exact fits_say hshort

/-! ## The rows of a search -/

/-- A row that is appended where it still fits keeps the reply within the buffer. -/
theorem length_snprintfAt {written : Written} {text : List Byte} {length : ℕ}
    (hlength : written.length = length) (hbuffer : written.buffer.length ≤ bufferLength)
    (hfits : length + text.length ≤ bufferLength) :
    (snprintfAt responseMaxLen written text).buffer.length ≤ bufferLength := by
  have hsize : (((responseMaxLen : ℤ) - written.length) % 2 ^ 64).toNat =
      bufferLength - length := by
    rw [hlength]
    simp only [responseMaxLen, bufferLength] at hfits ⊢
    omega
  rw [snprintfAt, hsize, length_writeAt, hlength, Int.toNat_natCast, max_le_iff]
  refine ⟨hbuffer, ?_⟩
  simp only [snprintf]
  split
  · simpa using (Nat.le_add_right _ _).trans hfits
  · simp only [length_append, length_take, length_singleton]
    omega

/-- The bytes a search reply has to hold. -/
def rowsLength {F : Type} [CFloat F] (vector : KvsVector F) (found : List (ℕ × F)) : ℕ :=
  (found.map fun item => (resultRow vector item).length).sum

section Rows

variable {F : Type} [CFloat F] (vector : KvsVector F) (found : List (ℕ × F))

theorem length_rows (written : Written) :
    (found.foldl (fun written item =>
        snprintfAt responseMaxLen written (resultRow vector item)) written).length =
      written.length + rowsLength vector found := by
  induction found generalizing written with
  | nil => simp [rowsLength]
  | cons item found ih =>
      rw [foldl_cons, ih]
      simp only [snprintfAt, rowsLength, map_cons, sum_cons]
      push_cast
      ring

theorem length_buffer_rows {written : Written} {length : ℕ} (hlength : written.length = length)
    (hbuffer : written.buffer.length ≤ bufferLength)
    (hfits : length + rowsLength vector found ≤ bufferLength) :
    (found.foldl (fun written item =>
      snprintfAt responseMaxLen written (resultRow vector item)) written).buffer.length ≤
        bufferLength := by
  induction found generalizing written length with
  | nil => exact hbuffer
  | cons item found ih =>
      simp only [rowsLength, map_cons, sum_cons] at hfits
      have hnext : (snprintfAt responseMaxLen written (resultRow vector item)).length =
          ((length + (resultRow vector item).length : ℕ) : ℤ) := by
        simp [snprintfAt, hlength]
      rw [foldl_cons]
      refine ih hnext (length_snprintfAt hlength hbuffer (by omega)) ?_
      rw [rowsLength]
      omega

theorem fits_searchReply_iff :
    Fits (searchReply vector found) ↔ 8 + rowsLength vector found ≤ bufferLength := by
  have hheader : (snprintf responseMaxLen (ascii "RESULT\r\n")).length = (8 : ℕ) := rfl
  have hlength := length_rows vector found (snprintf responseMaxLen (ascii "RESULT\r\n"))
  rw [hheader] at hlength
  refine ⟨fun hfits => ?_, fun hshort => ⟨?_, ?_, ?_⟩⟩
  · have hbound := hfits.2.2
    rw [searchReply, hlength] at hbound
    exact_mod_cast hbound
  · exact length_buffer_rows vector found hheader (by decide) hshort
  · rw [searchReply, hlength]
    positivity
  · rw [searchReply, hlength]
    exact_mod_cast hshort

end Rows

/-! ## The room a message leaves -/

theorem tokenRoom_drop_two (tokens : List CStr) (htwo : 2 ≤ tokens.length) :
    tokenRoom (tokens.drop 2) + 2 ≤ tokenRoom tokens := by
  match tokens, htwo with
  | first :: second :: rest, _ =>
      simp only [tokenRoom, drop_succ_cons, drop_zero, map_cons, sum_cons]
      omega

theorem tokenRoom_drop_le (tokens : List CStr) (count : ℕ) :
    tokenRoom (tokens.drop count) ≤ tokenRoom tokens :=
  ((drop_sublist count tokens).map _).sum_le_sum fun _ _ => Nat.zero_le _

theorem strlen_second {tokens : List CStr} {token : CStr} (htoken : tokens[1]? = some token) :
    strlen token + 2 ≤ tokenRoom tokens := by
  match tokens, htoken with
  | first :: second :: rest, htoken =>
      obtain rfl : second = token := by simpa using htoken
      simp only [tokenRoom, map_cons, sum_cons]
      omega

theorem length_joinLoop_le (size : ℕ) (first : Bool) (tokens : List CStr) (dst : List Byte) :
    (joinLoop size first tokens dst).length ≤ dst.length + tokenRoom tokens := by
  induction tokens generalizing first dst with
  | nil => simp [joinLoop]
  | cons token tokens ih =>
      unfold joinLoop
      split
      next hroom =>
        refine (ih _ _).trans ?_
        simp only [tokenRoom, map_cons, sum_cons, length_append, length_take, strlen]
        cases first <;> simp <;> omega
      next => exact Nat.le_add_right _ _

/-- A value is shorter than the message by the two tokens before it. -/
theorem strlen_valueToken_le {tokens : List CStr} {value : CStr} {limit : ℕ}
    (hroom : tokenRoom tokens ≤ limit + 2) (hvalue : valueToken tokens = some value) :
    strlen value ≤ limit := by
  unfold valueToken at hvalue
  split at hvalue
  next hlong =>
    rw [Option.some.injEq] at hvalue
    have hjoin := length_joinLoop_le joinBufferSize true (tokens.drop 2) []
    have hread : strlen (joinTokens (tokens.drop 2) joinBufferSize) ≤
        (joinLoop joinBufferSize true (tokens.drop 2) []).length :=
      (takeWhile_sublist _).length_le
    have hdrop := tokenRoom_drop_two tokens (by omega)
    rw [← hvalue]
    simp only [length_nil] at hjoin
    omega
  next hshort =>
    have hlength := (List.getElem?_eq_some_iff.1 hvalue).1
    have hdrop := tokenRoom_drop_two tokens (by omega)
    have hfirst : (tokens.drop 2)[0]? = some value := by rwa [getElem?_drop]
    have hlt := strlen_lt_tokenRoom (mem_of_getElem? hfirst)
    omega

theorem length_intercalate (tokens : List CStr) :
    (intercalate [blank] (tokens.map CStr.bytes)).length = tokenRoom tokens - 1 := by
  induction tokens with
  | nil => rfl
  | cons token tokens ih =>
      cases tokens with
      | nil => simp [intercalate, tokenRoom, strlen]
      | cons next tokens =>
          simp only [intercalate, map_cons, intersperse_cons_cons, flatten_cons, length_append,
            length_singleton] at ih ⊢
          rw [ih]
          simp only [tokenRoom, map_cons, sum_cons, strlen]
          omega

/-- Tokens of a message never fill the static buffer. -/
theorem exists_concatTokens {tokens : List CStr} (hroom : tokenRoom tokens < joinBufferSize) :
    ∃ text, concatTokens tokens = some text :=
  ⟨_, if_pos (by rw [length_intercalate]; omega)⟩

/-! ## States that messages reach -/

section Ready

variable {F : Type} {cache next : CacheManager F} {key value : CStr}

/-- A cache whose values all fit a reply. -/
structure ShortCached (cache : CacheManager F) : Prop where
  valid : cache.Valid
  short : ∀ policy key value, cache.peek policy key = some value → strlen value ≤ valueLimit

theorem ShortCached.kept (hcache : ShortCached cache) (hkept : Kept cache next)
    (hactive : ∀ key value, next.peek cache.policy key = some value →
      strlen value ≤ valueLimit) : ShortCached next where
  valid := hkept.valid
  short := by
    intro policy key value hvalue
    by_cases hpolicy : policy = cache.policy
    · exact hactive key value (hpolicy ▸ hvalue)
    · rw [hkept.peek_inactive hpolicy] at hvalue
      exact hcache.short policy key value hvalue

theorem ShortCached.dropCached (hcache : ShortCached cache) {code : ℤ}
    (hdrop : dropCached true cache (some key) code = some next) : ShortCached next := by
  obtain ⟨after, hafter, hkept, hpeek⟩ := dropCached_spec hcache.valid key code
  obtain rfl : after = next := Option.some.inj (hafter.symm.trans hdrop)
  refine hcache.kept hkept fun other text htext => ?_
  rw [hpeek] at htext
  split at htext
  · by_cases hother : other = key
    · simp [hother] at htext
    · rw [Function.update_of_ne hother] at htext
      exact hcache.short _ other text htext
  · exact hcache.short _ other text htext

/-- What every message finds: sound engines whose strings fit a reply, a cache of such
strings and a connected vector index. -/
structure Ready (server : Server F) : Prop where
  sound : Sound server.engines
  bounded : ∀ family key value, textHeld family server.engines key = some value →
    strlen key ≤ valueLimit ∧ strlen value ≤ valueLimit
  cached : ShortCached server.cache
  chained : server.vector.index.Chained

theorem ready_fresh [CFloat F] : Ready (Server.fresh F) where
  sound := sound_create
  bounded := by
    intro family key value htext
    have hnone := textHeld_create family key
    rw [← show (Server.fresh F).engines = Engines.create from rfl, htext] at hnone
    cases hnone
  cached :=
    { valid := kvsCacheInit_valid 1000
      short := by
        intro policy key value hvalue
        rw [Server.fresh, CacheManager.peek, kvsCacheInit_nodesOf] at hvalue
        cases hvalue }
  chained := chained_create

/-- A result that has a fitting reply exactly under a condition and leaves the server
ready. -/
structure Answers (result : Option (Server F × Written)) (condition : Prop) : Prop where
  served : condition → ∃ after reply, result = some (after, reply) ∧ Fits reply
  left : ∀ after reply, result = some (after, reply) →
    Ready after ∧ 0 ≤ reply.length ∧ (Fits reply → condition)

variable {server after : Server F} {reply : Written} {condition : Prop}

theorem answers_none (hcondition : ¬condition) :
    Answers (none : Option (Server F × Written)) condition where
  served := fun hholds => absurd hholds hcondition
  left := by
    intro after reply hnone
    cases hnone

theorem answers_iff (hready : Ready after) (hlength : 0 ≤ reply.length)
    (hfits : Fits reply ↔ condition) : Answers (some (after, reply)) condition where
  served := fun hcondition => ⟨after, reply, rfl, hfits.2 hcondition⟩
  left := by
    intro other answer hother
    obtain ⟨rfl, rfl⟩ := Prod.mk.inj (Option.some.inj hother)
    exact ⟨hready, hlength, hfits.1⟩

theorem answers_fits (hready : Ready after) (hfits : Fits reply) (hcondition : condition) :
    Answers (some (after, reply)) condition :=
  answers_iff hready hfits.2.1 (iff_of_true hfits hcondition)

end Ready

/-! ## Key-value commands -/

section KeyValue

variable {F : Type} {server after : Server F} {family : Family} {operation : Operation}
variable {key : CStr} {argument : Option CStr} {reply : Written}

/-- The key can be placed, or the read is answered before it is. -/
def Placed (server : Server F) (family : Family) (operation : Operation) (key : CStr) : Prop :=
  Addressable family key ∨
    operation = .get ∧ server.cache.peek server.cache.policy key ≠ none

instance (server : Server F) (family : Family) (operation : Operation) (key : CStr) :
    Decidable (Placed server family operation key) :=
  inferInstanceAs (Decidable (_ ∨ _ ∧ _))

theorem answers_get (hready : Ready server) (family : Family) (key : CStr) :
    Answers (getCommand true allocOk family server (some key))
      (Placed server family .get key) := by
  obtain ⟨looked, hlooked, hkept, hpeek⟩ := kvsCacheGet_peek hready.cached.valid key
  have hcached : ShortCached looked := hready.cached.kept hkept fun other text htext =>
    hready.cached.short _ other text (hpeek _ ▸ htext)
  have hlookedReady : Ready { server with cache := looked } :=
    ⟨hready.sound, hready.bounded, hcached, hready.chained⟩
  cases hhit : server.cache.peek server.cache.policy key with
  | some value =>
      rw [hhit] at hlooked
      have hvalue := hready.cached.short _ key value hhit
      have hget : getCommand true allocOk family server (some key) =
          some ({ server with cache := looked }, showValue value) := by
        simp [getCommand, hlooked]
      rw [hget]
      exact answers_fits hlookedReady (fits_showValue_iff.2 hvalue) (.inr ⟨rfl, by simp [hhit]⟩)
  | none =>
      rw [hhit] at hlooked
      have hget : getCommand true allocOk family server (some key) =
          readEngine true allocOk family { server with cache := looked } (some key) := by
        simp [getCommand, hlooked]
      have hmiss : looked.peek looked.policy key = none := by
        rw [hkept.policy_eq, hpeek, hhit]
      rw [hget]
      by_cases haddressable : Addressable family key
      · have hread := get_spec hready.sound haddressable
        rw [toPtr_held hready.sound] at hread
        cases htext : textHeld family server.engines key with
        | none =>
            have hreply : readEngine true allocOk family { server with cache := looked }
                (some key) = some ({ server with cache := looked }, say "NO EXIST\r\n") := by
              simp [readEngine, hread, htext]
            rw [hreply]
            exact answers_fits hlookedReady (fits_say (by decide)) (.inl haddressable)
        | some value =>
            have hvalue := (hready.bounded family key value htext).2
            obtain ⟨added, hadd, hadded, hnew, hold⟩ :=
              kvsCacheLruAdd_peek hkept.valid hmiss value
            have hreply : readEngine true allocOk family { server with cache := looked }
                (some key) = some ({ server with cache := added }, showValue value) := by
              simp [readEngine, hread, htext, hadd]
            have hshort : ShortCached added := by
              refine hcached.kept hadded fun other text hpeeked => ?_
              by_cases hother : other = key
              · rw [hother, hnew, Option.some.injEq] at hpeeked
                exact hpeeked ▸ hvalue
              · exact hcached.short _ other text (hold other text hother hpeeked)
            rw [hreply]
            exact answers_fits ⟨hready.sound, hready.bounded, hshort, hready.chained⟩
              (fits_showValue_iff.2 hvalue) (.inl haddressable)
      · have hplaced := engineCall_isSome_iff hready.sound family (fun _ => false) (.get key)
        have hnone : engineGet family server.engines (some key) = none := by
          simpa [engineCall, Call.key, haddressable] using hplaced
        have hreply : readEngine true allocOk family { server with cache := looked }
            (some key) = none := by
          simp [readEngine, hnone]
        rw [hreply]
        refine answers_none ?_
        rintro (hplace | ⟨-, hcached⟩)
        · exact haddressable hplace
        · exact hcached hhit

/-- A command of its key's engine leaves the server ready. -/
theorem Ready.keyValue {coins : Coins} (hready : Ready server) (hkey : strlen key ≤ valueLimit)
    (hvalue : ∀ text, argument = some text → strlen text ≤ valueLimit)
    (hargument : operation.takesValue = true → argument ≠ none)
    (hcommand : keyValueCommand true ⟨allocOk, coins⟩ family operation server (some key)
      argument = some (after, reply))
    (hcached : ShortCached after.cache) (hvector : after.vector = server.vector) :
    Ready after := by
  have hmoved := keyValueCommand_engines hargument hcommand
  exact ⟨sound_moved hready.sound hmoved,
    bounded_moved hready.sound hready.bounded hmoved hkey hvalue, hcached,
    hvector ▸ hready.chained⟩

/-- A command that starts with a call of its engine has a reply exactly when the key can
be placed. -/
theorem answers_called {R : Type} {called : Option R} {rest : R → Option (Server F × Written)}
    (hplaced : called.isSome ↔ Addressable family key) (hoperation : operation ≠ .get)
    (hrest : ∀ result, called = some result →
      ∃ after reply, rest result = some (after, reply) ∧ Ready after ∧ Fits reply) :
    Answers (called.bind rest) (Placed server family operation key) := by
  cases hcalled : called with
  | none =>
      have hunplaced : ¬Addressable family key := by simpa [hcalled] using hplaced
      refine answers_none ?_
      rintro (hplace | ⟨hget, -⟩)
      · exact hunplaced hplace
      · exact hoperation hget
  | some result =>
      obtain ⟨after, reply, heq, hready, hfits⟩ := hrest result hcalled
      rw [Option.bind_some, heq]
      exact answers_fits hready hfits (.inl (hplaced.1 (by simp [hcalled])))

/-- The reply to a command with a key fits exactly when the key can be placed. -/
theorem answers_keyed (hready : Ready server) (hkey : strlen key ≤ valueLimit)
    (hvalue : ∀ text, argument = some text → strlen text ≤ valueLimit)
    (hargument : operation.takesValue = true → argument ≠ none) (family : Family)
    (coins : Coins) :
    Answers (keyValueCommand true ⟨allocOk, coins⟩ family operation server (some key) argument)
      (Placed server family operation key) := by
  have hplaced := engineCall_isSome_iff hready.sound family coins
  have hleft : ∀ after reply, keyValueCommand true ⟨allocOk, coins⟩ family operation server
      (some key) argument = some (after, reply) → ShortCached after.cache →
      after.vector = server.vector → Ready after := fun _ _ hcommand =>
    hready.keyValue hkey hvalue hargument hcommand
  cases operation with
  | get => exact answers_get hready family key
  | set =>
      cases argument with
      | none => exact absurd rfl (hargument rfl)
      | some text =>
          replace hplaced := hplaced (.set key text)
          rw [engineCall, Option.isSome_map] at hplaced
          refine answers_called hplaced (by decide) fun result hset => ?_
          have hready := hleft { server with engines := result.1 } (codeReply result.2 "EXIST\r\n")
            (by simp [keyValueCommand, hset]) hready.cached rfl
          exact ⟨_, _, rfl, hready, fits_codeReply _ (by decide)⟩
  | del =>
      replace hplaced := hplaced (.del key)
      rw [engineCall, Option.isSome_map] at hplaced
      refine answers_called hplaced (by decide) fun result hdel => ?_
      obtain ⟨cache, hdrop, -⟩ := dropCached_spec hready.cached.valid key result.2
      have hready := hleft { server with engines := result.1, cache := cache }
        (codeReply result.2 "NO EXIST\r\n") (by simp [keyValueCommand, hdel, hdrop])
        (hready.cached.dropCached hdrop) rfl
      exact ⟨_, codeReply result.2 "NO EXIST\r\n", by simp [hdrop], hready,
        fits_codeReply _ (by decide)⟩
  | mod =>
      cases argument with
      | none => exact absurd rfl (hargument rfl)
      | some text =>
          replace hplaced := hplaced (.mod key text)
          rw [engineCall, Option.isSome_map] at hplaced
          refine answers_called hplaced (by decide) fun result hmod => ?_
          obtain ⟨cache, hdrop, -⟩ := dropCached_spec hready.cached.valid key result.2
          have hready := hleft { server with engines := result.1, cache := cache }
            (codeReply result.2 "NO EXIST\r\n") (by simp [keyValueCommand, hmod, hdrop])
            (hready.cached.dropCached hdrop) rfl
          exact ⟨_, codeReply result.2 "NO EXIST\r\n", by simp [hdrop], hready,
            fits_codeReply _ (by decide)⟩
  | exist =>
      replace hplaced := hplaced (.exist key)
      rw [engineCall, Option.isSome_map] at hplaced
      refine answers_called hplaced (by decide) fun code _ => ⟨server, _, rfl, hready, ?_⟩
      split <;> exact fits_say (by decide)

end KeyValue

/-! ## The other commands -/

section Texts

variable {F : Type} {server : Server F}

/-- The longest name that the refusal of an unknown policy can repeat. -/
def policyNameLimit : ℕ := 987

theorem fits_policyCommand_iff (tokens : List CStr) (cache : CacheManager F) :
    Fits (policyCommand tokens cache).2 ↔
      ∀ word ∈ tokens[1]?, ∀ name ∈ tokens[2]?, word = lit "SET" → policyArgument name = none →
        strlen name ≤ policyNameLimit := by
  have hcurrent : Fits (sprintf (ascii "Current policy: " ++ (policyName cache.policy).bytes ++
      crlf)) := by
    cases cache.policy <;> decide
  unfold policyCommand
  split
  next word name hword hname =>
    simp only [hword, hname, Option.mem_some_iff, forall_eq', strcmp_eq_zero_iff]
    by_cases hset : word = lit "SET"
    · cases hpolicy : policyArgument name with
      | some policy =>
          simp only [hset, if_true]
          refine iff_of_true ?_ fun _ hnone => by cases hnone
          cases policy <;> decide
      | none =>
          simp only [hset, if_true, forall_const, fits_sprintf_iff]
          simp only [length_append, policyNameLimit, bufferLength, strlen]
          have hbefore : (ascii "Unknown policy: ").length = 16 := by decide
          have hafter : (ascii " (use lru|lfu|arc)\r\n").length = 20 := by decide
          omega
    · rw [if_neg hset]
      exact iff_of_true hcurrent fun heq => absurd heq hset
  next hmissing =>
    refine iff_of_true hcurrent fun word hword name hname => ?_
    exact absurd hname (hmissing word name hword)

theorem policyCommand_length_nonneg (tokens : List CStr) (cache : CacheManager F) :
    0 ≤ (policyCommand tokens cache).2.length := by
  unfold policyCommand
  split
  · split
    · split <;> exact Int.natCast_nonneg _
    · exact Int.natCast_nonneg _
  · exact Int.natCast_nonneg _

/-- `POLICY` shows the policy or sets it. -/
theorem policyCommand_cases (tokens : List CStr) (cache : CacheManager F) :
    (policyCommand tokens cache).1 = cache ∨
      ∃ policy, (policyCommand tokens cache).1 = kvsCacheSetPolicy cache policy := by
  unfold policyCommand
  split
  · split
    · split
      · exact .inr ⟨_, rfl⟩
      · exact .inl rfl
    · exact .inl rfl
  · exact .inl rfl

theorem policyCommand_cached (tokens : List CStr) {cache : CacheManager F}
    (hcached : ShortCached cache) : ShortCached (policyCommand tokens cache).1 := by
  rcases policyCommand_cases tokens cache with hsame | ⟨policy, hset⟩
  · rw [hsame]
    exact hcached
  · rw [hset]
    exact ⟨kvsCacheSetPolicy_valid hcached.valid policy, hcached.short⟩

theorem fits_report {size : ℕ} (hsize : 0 < size) (hfits : size ≤ bufferLength)
    (text : List Byte) : Fits (sprintf (cutTo size text).bytes) :=
  fits_sprintf_iff.2 ((length_cutTo hsize text).trans_le hfits)

theorem fits_namespace {text : String} {name : CStr} (hname : strlen name ≤ 63)
    (htext : (ascii text).length ≤ 64) : Fits (sprintf (ascii text ++ name.bytes ++ crlf)) := by
  rw [fits_sprintf_iff]
  simp only [length_append, bufferLength, crlf, length_cons, length_nil, strlen] at hname ⊢
  omega

theorem fits_namespaceCommand (tokens : List CStr) {ns : CStr} (hns : strlen ns ≤ 63) :
    Fits (namespaceCommand tokens ns).2 := by
  have hcurrent : Fits (sprintf (ascii "Current namespace: " ++ ns.bytes ++ crlf)) :=
    fits_namespace hns (by decide)
  have hset : ∀ name, Fits (setNamespace name).2 := fun name =>
    fits_namespace (by simp [strlen, CStr.take]) (by decide)
  unfold namespaceCommand
  split
  · exact hcurrent
  · split
    · exact fits_say (by decide)
    · exact hset _
  · split
    · exact hset _
    · split
      · exact fits_say (by decide)
      · exact hcurrent

theorem fits_formatInt {before after : String} (value : ℤ)
    (hbefore : (ascii before).length ≤ 64) (hafter : (ascii after).length ≤ 64) :
    Fits (sprintf (ascii before ++ formatInt value ++ ascii after)) := by
  have hvalue := length_formatInt_le value
  rw [fits_sprintf_iff]
  simp only [length_append, bufferLength]
  omega

theorem saveCommand_spec (hready : Ready server) (env : Env F) :
    ∃ disk reply, saveCommand env server = some (disk, reply) ∧ Fits reply := by
  obtain ⟨records, hrecords, -⟩ := liveRecords_spec hready.sound
  obtain ⟨disk, code, hsave⟩ := exists_rdbSave env.save hrecords rdbFilename env.disk
  refine ⟨disk, if 0 ≤ code then
      sprintf (ascii "OK: Saved " ++ formatInt code ++ ascii " keys to dump.rdb\r\n")
    else say "ERROR: Failed to save\r\n", by simp [saveCommand, rdbSaveDefault, hsave], ?_⟩
  split
  · exact fits_formatInt code (by decide) (by decide)
  · exact fits_say (by decide)

theorem fits_bgsaveCommand (env : Env F) (server : Server F) :
    Fits (bgsaveCommand env server).2 := by
  unfold bgsaveCommand
  split
  · exact fits_formatInt env.pid (by decide) (by decide)
  · exact fits_say (by decide)

theorem fits_lastsaveCommand (env : Env F) : Fits (lastsaveCommand env) := by
  unfold lastsaveCommand
  split
  · have hvalue := length_formatLong_le env.mtime
    have hbefore : (ascii "Last save: ").length = 11 := by decide
    have hafter : (ascii " (timestamp)\r\n").length = 14 := by decide
    rw [fits_sprintf_iff]
    simp only [length_append, bufferLength]
    omega
  · exact fits_say (by decide)

end Texts

section Commands

variable {F : Type} [CFloat F] {server : Server F} {message : Message F}

/-- A message within the limits of a connection, served while memory lasts. -/
structure Message.Regular (message : Message F) : Prop where
  alloc_eq : message.env.alloc = allocOk
  length_le : message.bytes.length ≤ messageLimit
  ns_le : strlen message.ns ≤ 63

/-- What the reply of a command to a message needs in order to fit. -/
def CommandFits (server : Server F) (message : Message F) : Command → Prop
  | .keyValue family operation =>
      ∀ key ∈ storedKey operation message.tokens message.ns, Placed server family operation key
  | .vget =>
      ∀ text ∈ kvsVectorGet server.vector (makeNamespacedKey message.ns message.tokens[1]?),
        strlen text ≤ valueLimit
  | .vset =>
      4 ≤ message.tokens.length → ∀ value ∈ concatTokens (message.tokens.drop 2),
        Passes server.vector
          (message.env.setCall (makeNamespacedKey message.ns message.tokens[1]?) value)
  | .vsearch =>
      5 ≤ message.tokens.length → ∀ count ∈ message.tokens[2]?,
        ∀ query ∈ concatTokens (message.tokens.drop 4),
        ReadsPass message.env.mapped (kvsVectorSearchCalls message.env.vectorChance server.vector
          (makeNamespacedKey message.ns message.tokens[1]?) (some query)) ∧
        ∀ result ∈ kvsVectorSearch message.env.vectorChance server.vector (searchCount count)
          (makeNamespacedKey message.ns message.tokens[1]?) (some query),
        0 < result.1 → 8 + rowsLength server.vector result.2 ≤ bufferLength
  | .policy =>
      ∀ word ∈ message.tokens[1]?, ∀ name ∈ message.tokens[2]?,
        word = lit "SET" → policyArgument name = none → strlen name ≤ policyNameLimit
  | _ => True

instance decidableCommandFits (server : Server F) (message : Message F) :
    ∀ command, Decidable (CommandFits server message command)
  | .keyValue family operation =>
      inferInstanceAs (Decidable (∀ key ∈ storedKey operation message.tokens message.ns,
        Placed server family operation key))
  | .vget =>
      inferInstanceAs (Decidable (∀ text ∈ kvsVectorGet server.vector
        (makeNamespacedKey message.ns message.tokens[1]?), strlen text ≤ valueLimit))
  | .vset =>
      inferInstanceAs (Decidable (4 ≤ message.tokens.length →
        ∀ value ∈ concatTokens (message.tokens.drop 2), Passes server.vector
          (message.env.setCall (makeNamespacedKey message.ns message.tokens[1]?) value)))
  | .vsearch =>
      inferInstanceAs (Decidable (5 ≤ message.tokens.length → ∀ count ∈ message.tokens[2]?,
        ∀ query ∈ concatTokens (message.tokens.drop 4),
        ReadsPass message.env.mapped (kvsVectorSearchCalls message.env.vectorChance server.vector
          (makeNamespacedKey message.ns message.tokens[1]?) (some query)) ∧
        ∀ result ∈ kvsVectorSearch message.env.vectorChance server.vector (searchCount count)
          (makeNamespacedKey message.ns message.tokens[1]?) (some query),
        0 < result.1 → 8 + rowsLength server.vector result.2 ≤ bufferLength))
  | .policy =>
      inferInstanceAs (Decidable (∀ word ∈ message.tokens[1]?, ∀ name ∈ message.tokens[2]?,
        word = lit "SET" → policyArgument name = none → strlen name ≤ policyNameLimit))
  | .vdel => isTrue trivial
  | .vcount => isTrue trivial
  | .stats => isTrue trivial
  | .recommend => isTrue trivial
  | .ns => isTrue trivial
  | .save => isTrue trivial
  | .bgsave => isTrue trivial
  | .lastsave => isTrue trivial

omit [CFloat F] in
theorem Message.Regular.tokenRoom_le (hregular : message.Regular) :
    tokenRoom message.tokens ≤ valueLimit + 2 :=
  message.tokenRoom_le.trans (Nat.add_le_add_right hregular.length_le 1)

theorem answers_runKeyValue (hready : Ready server) (hregular : message.Regular)
    (family : Family) (operation : Operation) :
    Answers (runKeyValue true message.env.chance family operation message.tokens message.ns
      server) (CommandFits server message (.keyValue family operation)) := by
  have hroom := hregular.tokenRoom_le
  cases hkey : storedKey operation message.tokens message.ns with
  | none =>
      rw [runKeyValue_idle hkey]
      refine answers_fits hready ?_ (by simp [CommandFits, hkey])
      cases operation <;> exact fits_say (by decide)
  | some key =>
      have hcondition : CommandFits server message (.keyValue family operation) ↔
          Placed server family operation key := by simp [CommandFits, hkey]
      have hlength : strlen key ≤ valueLimit := by
        refine strlen_makeNamespacedKey (fun text htext => ?_) (by decide)
          (makeNamespacedKey_of_storedKey hkey)
        have hsecond := strlen_second htext
        omega
      rw [runKeyValue_keyed hkey, Env.chance, hregular.alloc_eq, hcondition]
      exact answers_keyed hready hlength (fun text htext => strlen_valueToken_le hroom htext)
        (valueToken_ne_none hkey) family _

omit [CFloat F] in
theorem Message.Regular.exists_concatTokens (hregular : message.Regular) (count : ℕ) :
    ∃ text, concatTokens (message.tokens.drop count) = some text := by
  apply Protocol.exists_concatTokens
  have hroom := hregular.tokenRoom_le
  have hdrop := tokenRoom_drop_le message.tokens count
  simp only [valueLimit, joinBufferSize] at hroom ⊢
  omega

theorem answers_vsetCommand (hready : Ready server) (hregular : message.Regular) :
    Answers ((vsetCommand message.env message.tokens
        (makeNamespacedKey message.ns message.tokens[1]?) server.vector).map
          fun result => ({ server with vector := result.1 }, result.2))
      (CommandFits server message .vset) := by
  have hvector : ∀ vector : KvsVector F, vector.index.Chained →
      Ready { server with vector := vector } := fun vector hchained =>
    ⟨hready.sound, hready.bounded, hready.cached, hchained⟩
  unfold vsetCommand
  split
  next hlong =>
    obtain ⟨value, hvalue⟩ := hregular.exists_concatTokens 2
    have hcondition : CommandFits server message .vset ↔ Passes server.vector
        (message.env.setCall (makeNamespacedKey message.ns message.tokens[1]?) value) := by
      simp [CommandFits, hlong, hvalue]
    rw [hcondition, hvalue]
    simp only [Option.bind_eq_bind, Option.bind_some]
    by_cases hpass : Passes server.vector
        (message.env.setCall (makeNamespacedKey message.ns message.tokens[1]?) value)
    · obtain ⟨after, code, hset, hchained⟩ := kvsVectorSet_spec message.env.vectorChance
        hready.chained (makeNamespacedKey message.ns message.tokens[1]?) (some value)
      rw [(attempt_of_passes hpass).trans hset]
      refine answers_fits (hvector after hchained) ?_ hpass
      dsimp only
      split <;> exact fits_say (by decide)
    · rw [attempt_of_fault hpass]
      exact answers_none hpass
  next hshort =>
    exact answers_fits hready (fits_say (by decide)) fun hlong => absurd hlong hshort

theorem fits_vgetCommand_iff (key : Option CStr) (vector : KvsVector F) :
    Fits (vgetCommand key vector) ↔
      ∀ text ∈ kvsVectorGet vector key, strlen text ≤ valueLimit := by
  unfold vgetCommand
  split
  next hnone => simpa [hnone] using fits_say (by decide)
  next text htext => simpa [htext] using fits_showValue_iff

theorem vgetCommand_length_nonneg (key : Option CStr) (vector : KvsVector F) :
    0 ≤ (vgetCommand key vector).length := by
  unfold vgetCommand
  split <;> exact Int.natCast_nonneg _

omit [CFloat F] in
theorem fits_vdelCommand (key : Option CStr) (vector : KvsVector F) :
    Fits (vdelCommand key vector).2 := by
  change Fits (if (kvsVectorDel vector key).2 = 0 then say "OK\r\n" else say "NO EXIST\r\n")
  split <;> exact fits_say (by decide)

theorem answers_vsearchCommand (hready : Ready server) (hregular : message.Regular) :
    Answers ((vsearchCommand message.env message.tokens
        (makeNamespacedKey message.ns message.tokens[1]?) server.vector).map
          fun reply => (server, reply))
      (CommandFits server message .vsearch) := by
  unfold vsearchCommand
  split
  next hlong =>
    obtain ⟨query, hquery⟩ := hregular.exists_concatTokens 4
    have hcount : message.tokens[2]? = some message.tokens[2] := getElem?_eq_getElem (by omega)
    obtain ⟨n, found, hsearch⟩ := kvsVectorSearch_isSome message.env.vectorChance hready.chained
      (searchCount message.tokens[2]) (makeNamespacedKey message.ns message.tokens[1]?)
      (some query)
    have hcondition : CommandFits server message .vsearch ↔
        ReadsPass message.env.mapped (kvsVectorSearchCalls message.env.vectorChance
          server.vector (makeNamespacedKey message.ns message.tokens[1]?) (some query)) ∧
        (0 < n → 8 + rowsLength server.vector found ≤ bufferLength) := by
      simp [CommandFits, hlong, hquery, hcount, hsearch]
    rw [hcondition, hquery, hcount]
    simp only [Option.bind_eq_bind, Option.bind_some]
    by_cases hpass : ReadsPass message.env.mapped (kvsVectorSearchCalls message.env.vectorChance
        server.vector (makeNamespacedKey message.ns message.tokens[1]?) (some query))
    · rw [attemptSearch, unlessFault_eq_some_iff.2 ⟨hpass, hsearch⟩, and_iff_right hpass]
      refine answers_iff hready ?_ ?_ <;> dsimp only <;> split
      · exact (fits_say (by decide)).2.1
      · rw [searchReply, length_rows, snprintf_length]
        positivity
      next hempty => exact iff_of_true (fits_say (by decide)) fun hpos => absurd hempty hpos.not_ge
      next hfound => rw [fits_searchReply_iff, forall_prop_of_true (not_le.1 hfound)]
    · rw [attemptSearch, unlessFault, if_neg hpass]
      exact answers_none fun hboth => hpass hboth.1
  next hshort =>
    exact answers_fits hready (fits_say (by decide)) fun hlong => absurd hlong hshort

theorem refreshPrediction_valid {cache : CacheManager F} (hvalid : cache.Valid) :
    (refreshPrediction cache).Valid :=
  ⟨hvalid.maxItems_pos, hvalid.lru_valid, hvalid.lfu_valid, hvalid.lfu_capacity,
    hvalid.arc_valid, hvalid.arc_maxSize⟩

theorem refreshPrediction_cached {cache : CacheManager F} (hcached : ShortCached cache) :
    ShortCached (refreshPrediction cache) where
  valid := refreshPrediction_valid hcached.valid
  short := hcached.short

/-- The reply of every command fits exactly under its condition. -/
theorem answers_runCommand (hready : Ready server) (hregular : message.Regular)
    (command : Command) :
    Answers ((runCommand true message.env command message.tokens message.ns server).map
      fun outcome => (outcome.server, outcome.reply)) (CommandFits server message command) := by
  have hvector : ∀ vector : KvsVector F, vector.index.Chained →
      Ready { server with vector := vector } := fun vector hchained =>
    ⟨hready.sound, hready.bounded, hready.cached, hchained⟩
  have hcache : ∀ cache : CacheManager F, ShortCached cache →
      Ready { server with cache := cache } := fun cache hcached =>
    ⟨hready.sound, hready.bounded, hcached, hready.chained⟩
  cases command with
  | keyValue family operation =>
      have hanswers := answers_runKeyValue hready hregular family operation
      have hrun : (runCommand true message.env (.keyValue family operation) message.tokens
          message.ns server).map (fun outcome => (outcome.server, outcome.reply)) =
          runKeyValue true message.env.chance family operation message.tokens message.ns
            server := by
        rw [runCommand]
        cases runKeyValue true message.env.chance family operation message.tokens message.ns
          server <;> rfl
      rw [hrun]
      exact hanswers
  | vset =>
      have hanswers := answers_vsetCommand hready hregular
      rw [runCommand]
      cases hset : vsetCommand message.env message.tokens
          (makeNamespacedKey message.ns message.tokens[1]?) server.vector with
      | none => rwa [hset] at hanswers
      | some result => rwa [hset] at hanswers
  | vget =>
      exact answers_iff hready (vgetCommand_length_nonneg _ _) (fits_vgetCommand_iff _ _)
  | vsearch =>
      have hanswers := answers_vsearchCommand hready hregular
      rw [runCommand]
      cases hsearch : vsearchCommand message.env message.tokens
          (makeNamespacedKey message.ns message.tokens[1]?) server.vector with
      | none => rwa [hsearch] at hanswers
      | some reply => rwa [hsearch] at hanswers
  | vdel =>
      exact answers_fits (hvector _ (chained_kvsVectorDel hready.chained _))
        (fits_vdelCommand _ _) trivial
  | vcount =>
      refine answers_fits hready ?_ trivial
      have hcount := length_formatInt_le (kvsVectorCount server.vector)
      rw [fits_sprintf_iff]
      simp only [length_append, crlf, length_cons, length_nil, bufferLength]
      omega
  | policy =>
      exact answers_iff (hcache _ (policyCommand_cached _ hready.cached))
        (policyCommand_length_nonneg _ _) (fits_policyCommand_iff _ _)
  | stats => exact answers_fits hready (fits_report (by decide) (by decide) _) trivial
  | recommend =>
      exact answers_fits (hcache _ (refreshPrediction_cached hready.cached))
        (fits_report (by decide) (by decide) _) trivial
  | ns => exact answers_fits hready (fits_namespaceCommand _ hregular.ns_le) trivial
  | save =>
      obtain ⟨disk, reply, hsave, hfits⟩ := saveCommand_spec hready message.env
      simp only [runCommand, hsave]
      exact answers_fits hready hfits trivial
  | bgsave => exact answers_fits hready (fits_bgsaveCommand _ _) trivial
  | lastsave => exact answers_fits hready (fits_lastsaveCommand _) trivial

end Commands

/-! ## Messages -/

section Messages

variable {F : Type} [CFloat F] {server after : Server F} {message : Message F} {reply : Written}

/-- What the reply to a message needs in order to fit. -/
def ReplyFits (server : Server F) (message : Message F) : Prop :=
  message.bytes ≠ [] ∧ ∀ command ∈ message.tokens.head?.bind findCommand,
    CommandFits server message command

instance (server : Server F) (message : Message F) : Decidable (ReplyFits server message) :=
  inferInstanceAs (Decidable (_ ∧ _))

theorem receive_nil (hbytes : message.bytes = []) :
    receive server message = some (server, { buffer := [], length := -1 }) := by
  simp [receive, kvsProtocol, hbytes]

/-- A message that is not empty is served by the command its first token names. -/
theorem receive_eq (hbytes : message.bytes ≠ []) :
    receive server message =
      match message.tokens.head?.bind findCommand with
      | some command =>
          (runCommand true message.env command message.tokens message.ns server).map
            fun outcome => (outcome.server,
              if outcome.reply.length < 0 then say "ERROR\r\n" else outcome.reply)
      | none => some (server, say "Unknown command\r\n") := by
  have hlength : ¬((message.bytes.length : ℤ) ≤ 0) := by
    simpa using hbytes
  have htokens : tokenStrings (stripLines (message.bytes.length : ℤ).toNat message.buffer) =
      message.tokens := rfl
  rw [receive, kvsProtocol, if_neg hlength, htokens]
  cases htoken : message.tokens with
  | nil => rfl
  | cons token tokens =>
      simp only [kvsFilterProtocol]
      cases hcommand : ((token :: tokens).head?.bind findCommand) with
      | none => rfl
      | some command =>
          simp only
          cases hrun : runCommand true message.env command (token :: tokens) message.ns server with
          | none => rfl
          | some outcome =>
              simp only [Option.bind_eq_bind, Option.bind_some, Option.pure_def,
                Option.map_some]
              split <;> rfl

/-- A message that is not empty has a fitting reply exactly under its condition. -/
theorem answers_receive (hready : Ready server) (hregular : message.Regular)
    (hbytes : message.bytes ≠ []) :
    Answers (receive server message) (ReplyFits server message) := by
  rw [receive_eq hbytes]
  cases hcommand : message.tokens.head?.bind findCommand with
  | none =>
      refine answers_fits hready (fits_say (by decide)) ⟨hbytes, ?_⟩
      simp [hcommand]
  | some command =>
      have hcondition : ReplyFits server message ↔ CommandFits server message command := by
        simp [ReplyFits, hbytes, hcommand]
      have hanswers := answers_runCommand hready hregular command
      rw [hcondition]
      simp only
      cases hrun : runCommand true message.env command message.tokens message.ns server with
      | none => rwa [hrun] at hanswers
      | some outcome =>
          rw [hrun] at hanswers
          have hlength := (hanswers.left _ _ rfl).2.1
          simp only [Option.map_some, if_neg hlength.not_gt]
          exact hanswers

theorem receive_fits_iff (hready : Ready server) (hregular : message.Regular) :
    (∃ after reply, receive server message = some (after, reply) ∧ Fits reply) ↔
      ReplyFits server message := by
  by_cases hbytes : message.bytes = []
  · refine iff_of_false ?_ fun hfits => hfits.1 hbytes
    rintro ⟨after, reply, hreceive, hfits⟩
    rw [receive_nil hbytes, Option.some.injEq, Prod.mk.injEq] at hreceive
    obtain ⟨rfl, rfl⟩ := hreceive
    exact absurd hfits (by decide)
  · have hanswers := answers_receive hready hregular hbytes
    refine ⟨fun ⟨after, reply, hreceive, hfits⟩ => ?_, hanswers.served⟩
    exact (hanswers.left after reply hreceive).2.2 hfits

theorem Ready.receive (hready : Ready server) (hregular : message.Regular)
    (hreceive : receive server message = some (after, reply)) : Ready after := by
  by_cases hbytes : message.bytes = []
  · rw [receive_nil hbytes, Option.some.injEq, Prod.mk.injEq] at hreceive
    exact hreceive.1 ▸ hready
  · exact ((answers_receive hready hregular hbytes).left after reply hreceive).1

/-- In a run of messages on a fresh server every reply fits its buffer exactly when every
message meets its condition in the state it finds. -/
theorem replies_fit_iff {messages : List (Message F)}
    (hmessages : ∀ message ∈ messages, message.Regular) :
    Every receive (fun _ _ reply => Fits reply) (Server.fresh F) messages ↔
      Along receive ReplyFits (Server.fresh F) messages :=
  every_iff_along Message.Regular
    (fun _ _ hready hregular => receive_fits_iff hready hregular)
    (fun _ _ _ _ hready hregular hreceive _ => hready.receive hregular hreceive)
    ready_fresh hmessages

theorem typed_message_regular {ns text : String} (hns : strlen (lit ns) ≤ 63)
    (htext : (ascii text).length ≤ messageLimit) : (Message.typed F ns text).Regular :=
  ⟨rfl, htext, hns⟩

/-- A pair, two vectors and an unknown policy, each of them short. -/
def shortReplies : List (Message Float32) :=
  [Message.typed Float32 "default" "HSET k v\r\n",
    Message.typed Float32 "default" "HGET k\r\n",
    Message.typed Float32 "default" "VSEARCH q 2 L2 1 2\r\n",
    Message.typed Float32 "default" "VSET p 1 0.5\r\n",
    Message.typed Float32 "default" "VSET q 1 0.25\r\n",
    Message.typed Float32 "default" "VGET r\r\n",
    Message.typed Float32 "default" "POLICY SET mru\r\n"]

theorem replies_fit_iff_shortReplies :
    Every receive (fun _ _ reply => Fits reply) (Server.fresh Float32) shortReplies ∧
      Along receive ReplyFits (Server.fresh Float32) shortReplies := by
  have hregular : ∀ message ∈ shortReplies, message.Regular := by
    intro message hmessage
    simp only [shortReplies, mem_cons, not_mem_nil, or_false] at hmessage
    rcases hmessage with rfl | rfl | rfl | rfl | rfl | rfl | rfl <;>
      exact typed_message_regular (by decide) (by decide)
  have halong : Along receive ReplyFits (Server.fresh Float32) shortReplies := by
    decide +kernel
  exact ⟨(replies_fit_iff hregular).2 halong, halong⟩

/-- A policy with a name of 1000 bytes. -/
def longPolicy : Message Float32 where
  env := Env.quiet Float32
  ns := lit "default"
  bytes := ascii "POLICY SET " ++ replicate 1000 120

/-- The refusal repeats the name and is written behind the end of the buffer. -/
theorem refusal_overruns_buffer :
    longPolicy.Regular ∧
      (receive (Server.fresh Float32) longPolicy).map (fun result =>
        (result.2.buffer.length, result.2.length)) = some (1037, 1036) := by
  refine ⟨⟨rfl, ?_, ?_⟩, ?_⟩
  · decide +kernel
  · decide +kernel
  · decide +kernel

end Messages

end LiteMultiKV.Protocol
