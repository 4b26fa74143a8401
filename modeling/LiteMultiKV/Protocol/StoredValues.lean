import LiteMultiKV.Protocol.Replies

/-!
# What is stored is what was sent

The words of a value are cut apart by the tokenizer, joined again with one blank
between them, copied into an engine and shown by a later read.  The tokenizer
takes 128 tokens and drops the others without a word, so a value comes back as
it was sent if it has at most 126 words.
-/

namespace LiteMultiKV.Protocol

open List Cache CText Families
open LiteMultiKV.Hash (Ascii)
open Memory Numeric

/-! ## Joining tokens -/

/-- Tokens with one blank between them. -/
def joined (tokens : List CStr) : List Byte :=
  intercalate [blank] (tokens.map CStr.bytes)

theorem joined_cons (token : CStr) (tokens : List CStr) :
    joined (token :: tokens) =
      token.bytes ++ tokens.flatMap fun token => blank :: token.bytes := by
  induction tokens generalizing token with
  | nil => simp [joined, intercalate]
  | cons next tokens ih =>
      have hnext := ih next
      simp only [joined, map_cons, intercalate, intersperse_cons_cons, flatten_cons] at hnext ⊢
      rw [hnext]
      simp

/-- Copying a token, cut where the buffer ends. -/
theorem copied_eq_take {size : ℕ} {dst : List Byte} (hdst : dst.length < size) (token : CStr) :
    dst ++ token.bytes.take (if size ≤ dst.length + strlen token then size - dst.length - 1
      else strlen token) = (dst ++ token.bytes).take (size - 1) := by
  rw [take_append, take_of_length_le (by omega : dst.length ≤ size - 1)]
  split
  next hcut =>
    congr 2
    omega
  next hshort =>
    rw [strlen, take_length, take_of_length_le]
    rw [strlen] at hshort
    omega

theorem take_take_append (text more : List Byte) (size : ℕ) :
    (text.take size ++ more).take size = (text ++ more).take size := by
  rw [take_append, take_append, take_take, length_take, min_self]
  congr 2
  omega

/-- The loop fills the buffer up to its last byte but one and stops there. -/
theorem joinLoop_take {size : ℕ} (tokens : List CStr) {dst : List Byte}
    (hdst : dst.length ≤ size - 1) :
    joinLoop size false tokens dst =
      (dst ++ tokens.flatMap fun token => blank :: token.bytes).take (size - 1) := by
  induction tokens generalizing dst with
  | nil => rw [joinLoop, flatMap_nil, append_nil, take_of_length_le hdst]
  | cons token tokens ih =>
      rw [joinLoop]
      split
      next hroom =>
        have hblank : (dst ++ [blank]).length < size := by
          rw [length_append, length_singleton]
          omega
        simp only [Bool.false_eq_true, if_false]
        rw [copied_eq_take hblank, ih (length_take_le _ _), take_take_append]
        simp
      next hfull =>
        rw [take_append_of_le_length (not_lt.1 hfull), take_of_length_le hdst]

/-- What is joined is the beginning of the text that leaves room for a NUL. -/
theorem joinLoop_eq_take {size : ℕ} (hsize : 1 ≤ size) (tokens : List CStr) :
    joinLoop size true tokens [] = (joined tokens).take (size - 1) := by
  cases tokens with
  | nil => simp [joinLoop, joined, intercalate]
  | cons token tokens =>
      rw [joinLoop, joined_cons]
      split
      next hroom =>
        simp only [if_true]
        rw [copied_eq_take (by rw [length_nil]; omega), joinLoop_take _ (length_take_le _ _),
          take_take_append, nil_append]
      next hfull =>
        rw [length_nil] at hfull
        rw [Nat.eq_zero_of_not_pos hfull, take_zero]

/-- The rounds write what the loop over the tokens that are left appends. -/
theorem joinRounds_eq {tokens : List CStr} (start dstSize : ℕ) (dst : ℕ → Byte) (left : ℕ)
    {i : ℕ} (hstart : start ≤ i) (hleft : i + left ≤ tokens.length) (text : List Byte) :
    joinRounds tokens start dstSize left i text.length (store dst 0 text) =
      let after := joinLoop dstSize (decide (i = start)) ((tokens.drop i).take left) text
      some (store dst 0 after, after.length) := by
  induction left generalizing i text with
  | zero => simp [joinRounds, joinLoop]
  | succ left ih =>
      have hi : i < tokens.length := by omega
      -- one token is copied behind a text, and the rounds that are left follow
      have hcopy : ∀ text : List Byte,
          let length := if dstSize ≤ text.length + strlen tokens[i] then
            dstSize - text.length - 1 else strlen tokens[i]
          let after := joinLoop dstSize false ((tokens.drop (i + 1)).take left)
            (text ++ tokens[i].bytes.take length)
          joinRounds tokens start dstSize left (i + 1) (text.length + length)
            (store (store dst 0 text) text.length (tokens[i].bytes.take length)) =
            some (store dst 0 after, after.length) := by
        intro text length after
        have hlength : (text ++ tokens[i].bytes.take length).length = text.length + length := by
          have hle : length ≤ strlen tokens[i] := by
            simp only [length]
            split <;> omega
          rw [length_append, length_take_of_le hle]
        have hrest := ih (by omega : start ≤ i + 1) (by omega)
          (text ++ tokens[i].bytes.take length)
        rw [hlength, decide_eq_false (by omega : ¬i + 1 = start)] at hrest
        rw [store_store]
        exact hrest
      rw [drop_eq_getElem_cons hi, take_succ_cons, joinRounds, joinLoop]
      split
      next hroom =>
        rcases hstart.eq_or_lt with rfl | hlater
        · have hfirst := hcopy text
          simpa [getElem?_eq_getElem hi] using hfirst
        · have hblank := hcopy (text ++ [blank])
          rw [← store_store, length_append, length_singleton] at hblank
          simpa [getElem?_eq_getElem hi, hlater, hlater.ne', hroom] using hblank
      next hfull => rfl

/-- The text that `join_tokens` leaves in a buffer of a size. -/
def joinedText (tokens : List CStr) (start count dstSize : ℕ) : List Byte :=
  (joined ((tokens.drop start).take (count - start))).take (dstSize - 1)

theorem joinTokensInto_eq {tokens : List CStr} {start count dstSize : ℕ} (hstart : start ≤ count)
    (hcount : count ≤ tokens.length) (hsize : 1 ≤ dstSize) (dst : ℕ → Byte) :
    joinTokensInto tokens start count dst dstSize =
      some (store dst 0 (joinedText tokens start count dstSize ++ [0])) := by
  have hrounds := joinRounds_eq start dstSize dst (count - start) le_rfl
    (by omega : start + (count - start) ≤ tokens.length) []
  rw [store_nil, decide_eq_true rfl, joinLoop_eq_take hsize] at hrounds
  simp only [length_nil] at hrounds
  rw [joinTokensInto, hrounds]
  simp only [Option.bind_eq_bind, Option.bind_some, store_store]
  rfl

/-- Joining is truncated: the buffer holds the beginning of the joined text that
leaves room for the NUL behind it, and nothing behind the buffer is written. -/
theorem joinTokensInto_truncates (tokens : List CStr) {start count dstSize : ℕ}
    (hstart : start ≤ count) (hcount : count ≤ tokens.length) (hsize : 1 ≤ dstSize)
    (dst : ℕ → Byte) :
    ∃ after, joinTokensInto tokens start count dst dstSize = some after ∧
      (∀ index, dstSize ≤ index → after index = dst index) ∧
      (∀ index byte, (joinedText tokens start count dstSize)[index]? = some byte →
        after index = byte) ∧
      after (joinedText tokens start count dstSize).length = 0 := by
  refine ⟨_, joinTokensInto_eq hstart hcount hsize dst, fun index hindex => ?_,
    fun index byte hbyte => ?_, ?_⟩
  · refine store_outside dst ?_
    have hlength : (joinedText tokens start count dstSize).length ≤ dstSize - 1 :=
      length_take_le _ _
    rw [length_append, length_singleton]
    omega
  · have hwithin := (List.getElem?_eq_some_iff.1 hbyte).1
    simp [store, getElem?_append_left hwithin, hbyte]
  · simp [store]

/-- A blank in the last byte: the third token finds no room. -/
theorem joinTokensInto_truncates_blank :
    joinedText [lit "SET", lit "k", lit "ab", lit "cd"] 2 4 4 = ascii "ab " ∧
      ∃ after, joinTokensInto [lit "SET", lit "k", lit "ab", lit "cd"] 2 4 (fun _ => 255) 4 =
          some after ∧
        (∀ index, 4 ≤ index → after index = 255) ∧
        (∀ index byte, (joinedText [lit "SET", lit "k", lit "ab", lit "cd"] 2 4 4)[index]? =
          some byte → after index = byte) ∧
        after (joinedText [lit "SET", lit "k", lit "ab", lit "cd"] 2 4 4).length = 0 :=
  ⟨by decide, joinTokensInto_truncates _ (by decide) (by decide) (by decide) _⟩

theorem nulFree_joined (tokens : List CStr) : 0 ∉ joined tokens := by
  cases tokens with
  | nil => exact not_mem_nil
  | cons token tokens =>
      rw [joined_cons, mem_append, mem_flatMap, not_or]
      refine ⟨token.nulFree, ?_⟩
      rintro ⟨next, -, hzero⟩
      rcases mem_cons.1 hzero with hzero | hzero
      · exact absurd hzero (by decide)
      · exact next.nulFree hzero

/-- In a buffer with room, the tokens are joined completely. -/
theorem joinTokens_eq {size : ℕ} (tokens : List CStr)
    (hroom : (joined tokens).length < size) :
    joinTokens tokens size = ⟨joined tokens, nulFree_joined tokens⟩ := by
  have hloop : joinLoop size true tokens [] = joined tokens := by
    rw [joinLoop_eq_take (by omega), take_of_length_le (by omega)]
  apply CStr.ext
  simp only [joinTokens, CStr.read, hloop]
  refine takeWhile_eq_self_iff.2 fun byte hbyte => ?_
  simpa using fun heq : byte = 0 => nulFree_joined tokens (heq ▸ hbyte)

theorem valueToken_words (command key : CStr) {words : List CStr} (hwords : words ≠ [])
    (hroom : (joined words).length < joinBufferSize) :
    valueToken (command :: key :: words) = some ⟨joined words, nulFree_joined words⟩ := by
  match words, hwords with
  | [word], _ =>
      refine congrArg some (CStr.ext ?_)
      simp [joined, intercalate]
  | word :: next :: words, _ =>
      rw [valueToken, if_pos (by simp)]
      exact congrArg some (joinTokens_eq (word :: next :: words) hroom)

theorem tokenRoom_sublist {fewer words : List CStr} (hsublist : fewer.Sublist words) :
    tokenRoom fewer ≤ tokenRoom words ∧ (tokenRoom fewer = tokenRoom words → fewer = words) := by
  induction hsublist with
  | slnil => exact ⟨le_rfl, fun _ => rfl⟩
  | cons word _ ih =>
      simp only [tokenRoom, map_cons, sum_cons] at ih ⊢
      exact ⟨by omega, fun heq => by omega⟩
  | cons_cons word _ ih =>
      simp only [tokenRoom, map_cons, sum_cons] at ih ⊢
      exact ⟨by omega, fun heq => by rw [ih.2 (by omega)]⟩

theorem length_joined_le {fewer words : List CStr} (hsublist : fewer.Sublist words) :
    (joined fewer).length ≤ (joined words).length := by
  rw [joined, joined, length_intercalate, length_intercalate]
  exact Nat.sub_le_sub_right (tokenRoom_sublist hsublist).1 1

/-- Leaving out words makes a value shorter. -/
theorem eq_of_joined_eq {fewer words : List CStr} (hsublist : fewer.Sublist words)
    (hfewer : fewer ≠ []) (hjoined : joined fewer = joined words) : fewer = words := by
  have hlength := congrArg length hjoined
  rw [joined, joined, length_intercalate, length_intercalate] at hlength
  obtain ⟨word, hword⟩ := exists_mem_of_ne_nil fewer hfewer
  have hpos := strlen_lt_tokenRoom hword
  obtain ⟨hle, hsame⟩ := tokenRoom_sublist hsublist
  exact hsame (by omega)

/-! ## A value sent and read back -/

/-- How a key is typed: as it is, or between quotes. -/
inductive Spells (key : CStr) : List Byte → Prop
  | bare (hne : key.bytes ≠ []) (hquote : key.bytes.head? ≠ some quote)
      (hfree : ∀ byte ∈ key.bytes, byte ≠ blank ∧ byte ≠ 13 ∧ byte ≠ 10) : Spells key key.bytes
  | quoted (hfree : ∀ byte ∈ key.bytes, byte ≠ quote ∧ byte ≠ 13 ∧ byte ≠ 10) :
      Spells key (quote :: (key.bytes ++ [quote]))

/-- The names of the commands that store and read a value. -/
def setName : Family → String
  | .array => "SET"
  | .rbtree => "RSET"
  | .hash => "HSET"
  | .skip => "SSET"

def getName : Family → String
  | .array => "GET"
  | .rbtree => "RGET"
  | .hash => "HGET"
  | .skip => "SGET"

/-- A value sent to an engine under a key, and the read of that key that follows, each
line with the same line end. -/
structure Exchange (F : Type) where
  family : Family
  key : CStr
  typed : List Byte
  words : List CStr
  ending : List Byte
  setEnv : Env F
  getEnv : Env F

variable {F : Type}

/-- `SET k v1 ... vn`, without the line end. -/
def Exchange.setLine (exchange : Exchange F) : List Byte :=
  ascii (setName exchange.family) ++ blank :: exchange.typed ++
    exchange.words.flatMap fun word => blank :: word.bytes

def Exchange.setMessage (exchange : Exchange F) : Message F where
  env := exchange.setEnv
  ns := lit "default"
  bytes := exchange.setLine ++ exchange.ending

def Exchange.getMessage (exchange : Exchange F) : Message F where
  env := exchange.getEnv
  ns := lit "default"
  bytes := ascii (getName exchange.family) ++ blank :: exchange.typed ++ exchange.ending

/-- The key is a 7-bit token that is stored nowhere, the words hold no separators, and line
and value are within their limits. -/
structure Exchange.Proper (exchange : Exchange F) (server : Server F) : Prop where
  sound : Sound server.engines
  valid : server.cache.Valid
  absent : textHeld exchange.family server.engines exchange.key = none
  uncached : server.cache.peek server.cache.policy exchange.key = none
  spells : Spells exchange.key exchange.typed
  ascii_key : Ascii exchange.key
  words_ne : exchange.words ≠ []
  words_free : ∀ word ∈ exchange.words, ∀ byte ∈ word.bytes,
    byte ≠ blank ∧ byte ≠ quote ∧ byte ≠ 13 ∧ byte ≠ 10
  ending : ∀ byte ∈ exchange.ending, byte = 13 ∨ byte = 10
  line_le : exchange.setLine.length ≤ 1022
  value_le : (joined exchange.words).length ≤ 1000
  setMemory : exchange.setEnv.alloc = allocOk
  getMemory : exchange.getEnv.alloc = allocOk

/-- If the value is accepted, the read answers with the words, one blank between them. -/
def Exchange.Returned [CFloat F] (exchange : Exchange F) (server : Server F) : Prop :=
  ∀ after, receive server exchange.setMessage = some (after, say "OK\r\n") →
    ∃ final, receive after exchange.getMessage =
      some (final, sprintf (joined exchange.words ++ crlf))

/-- What the tokens of a message leave of the words. -/
def Exchange.kept (exchange : Exchange F) : List CStr :=
  (exchange.words.filter (·.bytes ≠ [])).take (kvsMaxTokens - 2)

section Lines

variable {server : Server F} {exchange : Exchange F}

theorem Spells.free {key : CStr} {typed : List Byte} (hspells : Spells key typed) :
    ∀ byte ∈ typed, byte ≠ 13 ∧ byte ≠ 10 ∧ byte ≠ 0 := by
  intro byte hbyte
  cases hspells with
  | bare _ _ hfree =>
      exact ⟨(hfree byte hbyte).2.1, (hfree byte hbyte).2.2, fun hzero =>
        key.nulFree (hzero ▸ hbyte)⟩
  | quoted hfree =>
      simp only [mem_cons, mem_append, not_mem_nil, or_false] at hbyte
      rcases hbyte with rfl | hbyte | rfl
      · decide
      · exact ⟨(hfree byte hbyte).2.1, (hfree byte hbyte).2.2, fun hzero =>
          key.nulFree (hzero ▸ hbyte)⟩
      · decide

theorem Spells.grammarTokens_eq {key : CStr} {typed rest : List Byte} (hspells : Spells key typed)
    (hspaced : Spaced rest) (limit : ℕ) :
    grammarTokens (limit + 1) (typed ++ rest) = key.bytes :: grammarTokens limit rest := by
  cases hspells with
  | bare hne hquote hfree =>
      exact grammarTokens_bare hne (fun hblank => (hfree blank hblank).1 rfl) hquote hspaced limit
  | quoted hfree =>
      rw [cons_append, append_assoc, singleton_append]
      exact grammarTokens_quoted (fun hquote => (hfree quote hquote).1 rfl) rest limit

/-- A line and its line end are read as the line and blanks. -/
theorem Message.tokens_line {message : Message F} {line ending : List Byte}
    (hbytes : message.bytes = line ++ ending)
    (hline : ∀ byte ∈ line, byte ≠ 13 ∧ byte ≠ 10 ∧ byte ≠ 0)
    (hending : ∀ byte ∈ ending, byte = 13 ∨ byte = 10) :
    message.tokens.map CStr.bytes =
      grammarTokens kvsMaxTokens (line ++ replicate ending.length blank) := by
  have hblanks : ending.map stripByte = replicate ending.length blank :=
    (map_congr_left fun byte hbyte => if_pos (hending byte hbyte)).trans (map_const' ..)
  have hkept : line.map stripByte = line :=
    (map_congr_left fun byte hbyte => if_neg (by simp [hline byte hbyte])).trans (map_id line)
  have hnul : 0 ∉ line ++ replicate ending.length blank := by
    rw [mem_append, not_or]
    exact ⟨fun hzero => (hline 0 hzero).2.2 rfl, fun hzero =>
      absurd (eq_of_mem_replicate hzero) (by decide)⟩
  rw [Message.tokens, tokenStrings_eq, stripLines_buffer, hbytes, map_append, hkept, hblanks]
  exact congrArg (fun text => grammarTokens kvsMaxTokens text.bytes)
    (CStr.read_terminated ⟨_, hnul⟩ [])

/-- The tokens of a message that is a command, a key and words. -/
theorem tokens_of_line (hproper : exchange.Proper server) {message : Message F} {name : CStr}
    (hname : name.bytes ≠ []) (hupper : ∀ byte ∈ name.bytes, 64 < byte.toNat)
    {words : List CStr} (hwords : words ⊆ exchange.words)
    (hbytes : message.bytes = name.bytes ++ blank :: exchange.typed ++
      (words.flatMap fun word => blank :: word.bytes) ++ exchange.ending) :
    message.tokens =
      name :: exchange.key :: (words.filter (·.bytes ≠ [])).take (kvsMaxTokens - 2) := by
  let texts := words.map CStr.bytes
  have hfree : ∀ text ∈ texts, ∀ byte ∈ text,
      byte ≠ blank ∧ byte ≠ quote ∧ byte ≠ 13 ∧ byte ≠ 10 ∧ byte ≠ 0 := by
    intro text htext byte hbyte
    obtain ⟨word, hword, rfl⟩ := mem_map.1 htext
    obtain ⟨hblank, hquote, hcr, hlf⟩ := hproper.words_free word (hwords hword) byte hbyte
    exact ⟨hblank, hquote, hcr, hlf, fun hzero => word.nulFree (hzero ▸ hbyte)⟩
  let line := name.bytes ++ (blank :: (exchange.typed ++ texts.flatMap (blank :: ·)))
  have hline : ∀ byte ∈ line, byte ≠ 13 ∧ byte ≠ 10 ∧ byte ≠ 0 := by
    intro byte hbyte
    simp only [line, mem_append, mem_cons, mem_flatMap] at hbyte
    rcases hbyte with hbyte | rfl | hbyte | ⟨text, htext, rfl | hbyte⟩
    · have hlarge := hupper byte hbyte
      refine ⟨?_, ?_, ?_⟩ <;> rintro rfl <;> exact absurd hlarge (by decide)
    · decide
    · exact hproper.spells.free byte hbyte
    · decide
    · exact (hfree text htext byte hbyte).2.2
  have hform : message.bytes = line ++ exchange.ending := by
    simp [hbytes, line, texts, flatMap_map]
  have hblanks : ∀ byte ∈ replicate exchange.ending.length blank, byte = blank :=
    fun byte hbyte => eq_of_mem_replicate hbyte
  have hkeyed := hproper.spells.grammarTokens_eq (spaced_words texts hblanks) (kvsMaxTokens - 2)
  have hrest := grammarTokens_words (fun text htext hblank => (hfree text htext _ hblank).1 rfl)
    (fun text htext hquote => (hfree text htext _ (mem_of_mem_head? hquote)).2.1 rfl) hblanks
    (kvsMaxTokens - 2)
  apply map_injective_iff.2 (fun _ _ => CStr.ext)
  have hnameBlank : blank ∉ name.bytes := fun hblank => absurd (hupper blank hblank) (by decide)
  have hnameQuote : name.bytes.head? ≠ some quote := fun hquote =>
    absurd (hupper quote (mem_of_mem_head? hquote)) (by decide)
  have hspaced : ∀ text, Spaced (blank :: text) := fun text byte hbyte => by simpa using hbyte.symm
  rw [Message.tokens_line hform hline hproper.ending, append_assoc, cons_append, append_assoc,
    show kvsMaxTokens = kvsMaxTokens - 2 + 1 + 1 from rfl,
    grammarTokens_bare hname hnameBlank hnameQuote (hspaced _), grammarTokens_blank, hkeyed, hrest]
  simp only [map_cons, map_take, texts, filter_map]
  rfl

theorem Exchange.set_tokens (hproper : exchange.Proper server) :
    exchange.setMessage.tokens =
      lit (setName exchange.family) :: exchange.key :: exchange.kept := by
  have hname : (lit (setName exchange.family)).bytes = ascii (setName exchange.family) := by
    cases exchange.family <;> decide
  refine tokens_of_line hproper ?_ ?_ (Subset.refl exchange.words) ?_
  · cases exchange.family <;> decide
  · cases exchange.family <;> decide +kernel
  · rw [hname]
    rfl

theorem Exchange.get_tokens (hproper : exchange.Proper server) :
    exchange.getMessage.tokens = [lit (getName exchange.family), exchange.key] := by
  have hname : (lit (getName exchange.family)).bytes = ascii (getName exchange.family) := by
    cases exchange.family <;> decide
  refine tokens_of_line hproper ?_ ?_ (nil_subset exchange.words) ?_
  · cases exchange.family <;> decide
  · cases exchange.family <;> decide +kernel
  · rw [hname, flatMap_nil, append_nil]
    rfl

theorem Exchange.Proper.addressable (hproper : exchange.Proper server) :
    Addressable exchange.family exchange.key :=
  fun _ => Hash.exists_bucket_of_ascii hproper.ascii_key

theorem Exchange.find_set (exchange : Exchange F) :
    findCommand (lit (setName exchange.family)) = some (.keyValue exchange.family .set) := by
  cases exchange.family <;> decide

theorem Exchange.find_get (exchange : Exchange F) :
    findCommand (lit (getName exchange.family)) = some (.keyValue exchange.family .get) := by
  cases exchange.family <;> decide

/-- An absent key cannot be answered from the cache. -/
theorem Exchange.Proper.hitAgrees (hproper : exchange.Proper server) :
    HitAgrees exchange.family server exchange.key := by
  intro text htext
  rw [hproper.uncached] at htext
  cases htext

theorem Exchange.kept_sublist (exchange : Exchange F) :
    exchange.kept.Sublist exchange.words :=
  (take_sublist _ _).trans filter_sublist

theorem Exchange.length_kept_le (hproper : exchange.Proper server) :
    (joined exchange.kept).length ≤ 1000 :=
  (length_joined_le exchange.kept_sublist).trans hproper.value_le

theorem Exchange.length_kept_lt (hproper : exchange.Proper server) :
    (joined exchange.kept).length < joinBufferSize :=
  (exchange.length_kept_le hproper).trans_lt (by decide)

theorem Exchange.kept_eq_words_iff (exchange : Exchange F) :
    exchange.kept = exchange.words ↔ exchange.words.length ≤ kvsMaxTokens - 2 ∧
      ∀ word ∈ exchange.words, word.bytes ≠ [] := by
  constructor
  · intro hkept
    rw [← hkept]
    refine ⟨(length_take_le _ _), fun word hword => ?_⟩
    simpa using (mem_filter.1 (mem_of_mem_take hword)).2
  · rintro ⟨hlength, hfilled⟩
    have hfilter : exchange.words.filter (·.bytes ≠ []) = exchange.words :=
      filter_eq_self.2 fun word hword => by simpa using hfilled word hword
    rw [Exchange.kept, hfilter, take_of_length_le hlength]

theorem Exchange.kept_eq_nil_iff (exchange : Exchange F) :
    exchange.kept = [] ↔ ∀ word ∈ exchange.words, word.bytes = [] := by
  simp [Exchange.kept, kvsMaxTokens]

end Lines

theorem showValue_eq (value : CStr) (hshort : value.bytes.length ≤ 1000) :
    showValue value = sprintf (value.bytes ++ crlf) := by
  have htake : (value.bytes ++ crlf).take (responseMaxLen - 1) = value.bytes ++ crlf := by
    refine take_of_length_le ?_
    simp only [length_append, crlf, length_cons, length_nil, responseMaxLen]
    omega
  rw [showValue, snprintf, if_neg (by decide), htake]
  rfl

section Exchanges

variable [CFloat F] {server : Server F} {exchange : Exchange F}

theorem receive_keyValue {message : Message F} {family : Family} {operation : Operation}
    (hcommand : message.tokens.head?.bind findCommand = some (.keyValue family operation))
    {after : Server F} {reply : Written}
    (hrun : runKeyValue true message.env.chance family operation message.tokens message.ns server =
      some (after, reply)) (hlength : 0 ≤ reply.length) :
    receive server message = some (after, reply) := by
  have hbytes : message.bytes ≠ [] := by
    intro hnil
    have htokens : message.tokens = [] := by
      rw [Message.tokens, Message.buffer, hnil]
      rfl
    rw [htokens] at hcommand
    cases hcommand
  rw [receive_eq hbytes, hcommand]
  simp [runCommand, hrun, hlength.not_gt]

/-- A key-value message with the key of the exchange is served by the engine. -/
theorem Exchange.receive_keyed (hproper : exchange.Proper server) {message : Message F}
    {operation : Operation} (hns : message.ns = lit "default")
    (hmemory : message.env.alloc = allocOk) {name : CStr} {rest : List CStr}
    (htokens : message.tokens = name :: exchange.key :: rest)
    (hcommand : findCommand name = some (.keyValue exchange.family operation))
    (hargument : operation.takesValue = true → rest ≠ []) {now : Server F}
    (hsound : Sound now.engines) (hvalid : now.cache.Valid)
    (hhit : HitAgrees exchange.family now exchange.key) :
    ∃ engines cache reply, referenceCommand ⟨allocOk, message.env.coins⟩ exchange.family operation
        now.engines (some exchange.key) (valueToken message.tokens) = some (engines, reply) ∧
      (0 ≤ reply.length →
        receive now message = some ({ now with engines := engines, cache := cache }, reply)) ∧
      Refreshed exchange.family exchange.key now engines cache := by
  have hkey : storedKey operation message.tokens message.ns = some exchange.key := by
    have hlong : ¬(operation.takesValue && decide (message.tokens.length < 3)) = true := by
      rw [htokens, Bool.and_eq_true, not_and]
      intro htakes
      have hrest := length_pos_iff.2 (hargument htakes)
      simp only [length_cons, decide_eq_true_eq]
      omega
    rw [storedKey, if_neg hlong, htokens, hns]
    exact if_pos (.inr (strcmp_eq_zero_iff.2 rfl))
  have hchance : message.env.chance = ⟨allocOk, message.env.coins⟩ := by
    rw [Env.chance, hmemory]
  obtain ⟨engines, cache, reply, hcommand', hreference, -, hrefreshed⟩ :=
    keyValueCommand_cached hsound hvalid hproper.addressable (fun _ => hhit) message.env.coins
      (valueToken_ne_none hkey)
  refine ⟨engines, cache, reply, hreference, fun hlength => ?_, hrefreshed⟩
  refine receive_keyValue (by rw [htokens]; exact hcommand) ?_ hlength
  rw [runKeyValue_keyed hkey, hchance]
  exact hcommand'

/-- With words and room for them, the value is accepted and the engine holds it. -/
theorem Exchange.set_accepted (hproper : exchange.Proper server)
    (hroom : ¬Full exchange.family server.engines) (hkept : exchange.kept ≠ []) :
    ∃ after, receive server exchange.setMessage = some (after, say "OK\r\n") ∧
      Sound after.engines ∧ after.cache.Valid ∧ HitAgrees exchange.family after exchange.key ∧
      textHeld exchange.family after.engines exchange.key =
        some ⟨joined exchange.kept, nulFree_joined exchange.kept⟩ := by
  have hlength := exchange.length_kept_lt hproper
  obtain ⟨engines, cache, reply, hreference, hreceive, hrefreshed⟩ :=
    exchange.receive_keyed hproper rfl hproper.setMemory (exchange.set_tokens hproper)
      exchange.find_set (fun _ => hkept) hproper.sound hproper.valid hproper.hitAgrees
  rw [exchange.set_tokens hproper, valueToken_words _ _ hkept hlength] at hreference
  obtain ⟨after, hafter, hcontained, htexts⟩ := referenceCommand_spec hproper.sound
    hproper.addressable (fun _ => hroom) exchange.setMessage.env.coins (fun _ => rfl)
  rw [hafter, Option.some.injEq, Prod.mk.injEq] at hreference
  obtain ⟨rfl, rfl⟩ := hreference
  simp only [dictionaryStep, hproper.absent] at hreceive htexts
  have hheld := congrFun htexts exchange.key
  rw [Function.update_self] at hheld
  refine ⟨_, hreceive (by decide), hcontained.sound, hrefreshed.kept.valid, fun text htext => ?_,
    hheld⟩
  rw [hrefreshed.kept.policy_eq] at htext
  exact hrefreshed.here hproper.hitAgrees text htext

/-- Without words, or when the engine is full, the value is refused. -/
theorem Exchange.set_refused (hproper : exchange.Proper server)
    (hrefused : exchange.kept = [] ∨ Full exchange.family server.engines) (after : Server F) :
    receive server exchange.setMessage ≠ some (after, say "OK\r\n") := by
  have htokens := exchange.set_tokens hproper
  by_cases hkept : exchange.kept = []
  · have hkey : storedKey .set exchange.setMessage.tokens exchange.setMessage.ns = none := by
      rw [htokens, hkept]
      rfl
    have hreceive := receive_keyValue (by rw [htokens]; exact exchange.find_set)
      (runKeyValue_idle hkey true exchange.setMessage.env.chance exchange.family server) (by decide)
    rw [hreceive, Ne, Option.some.injEq, Prod.mk.injEq, not_and]
    exact fun _ => by decide
  · obtain ⟨engines, cache, reply, hreference, hreceive, -⟩ :=
      exchange.receive_keyed hproper rfl hproper.setMemory htokens exchange.find_set
        (fun _ => hkept) hproper.sound hproper.valid hproper.hitAgrees
    have hlength := exchange.length_kept_lt hproper
    rw [htokens, valueToken_words _ _ hkept hlength,
      referenceCommand_full hproper.sound (hrefused.resolve_left hkept), Option.some.injEq,
      Prod.mk.injEq] at hreference
    obtain ⟨rfl, rfl⟩ := hreference
    rw [hreceive (by decide), Ne, Option.some.injEq, Prod.mk.injEq, not_and]
    exact fun _ => by decide

/-- A read of the key shows what the engine holds. -/
theorem Exchange.get_shows (hproper : exchange.Proper server) {now : Server F}
    (hsound : Sound now.engines) (hvalid : now.cache.Valid)
    (hhit : HitAgrees exchange.family now exchange.key) {value : CStr}
    (hheld : textHeld exchange.family now.engines exchange.key = some value) :
    ∃ final, receive now exchange.getMessage = some (final, showValue value) := by
  obtain ⟨engines, cache, reply, hreference, hreceive, -⟩ :=
    exchange.receive_keyed hproper rfl hproper.getMemory (exchange.get_tokens hproper)
      exchange.find_get (by simp [Operation.takesValue]) hsound hvalid hhit
  rw [referenceCommand_get hsound hproper.addressable _ value, Option.some.injEq,
    Prod.mk.injEq] at hreference
  obtain ⟨rfl, rfl⟩ := hreference
  simp only [dictionaryStep, hheld] at hreceive
  exact ⟨_, hreceive (Int.natCast_nonneg _)⟩

/-- What a value needs in order to come back as it was sent, if it is accepted at all. -/
def Exchange.Whole (exchange : Exchange F) (server : Server F) : Prop :=
  (exchange.words.length ≤ kvsMaxTokens - 2 ∧ ∀ word ∈ exchange.words, word.bytes ≠ []) ∨
    (∀ word ∈ exchange.words, word.bytes = []) ∨ Full exchange.family server.engines

/-- A value comes back as it was sent exactly if the tokenizer takes all its words. -/
theorem stored_value_returned_iff (exchange : Exchange F) (server : Server F)
    (hproper : exchange.Proper server) : exchange.Returned server ↔ exchange.Whole server := by
  by_cases hrefused : exchange.kept = [] ∨ Full exchange.family server.engines
  · refine iff_of_true (fun after hset => absurd hset (exchange.set_refused hproper hrefused after))
      (.inr ?_)
    exact hrefused.imp exchange.kept_eq_nil_iff.1 id
  · obtain ⟨hkept, hroom⟩ := not_or.1 hrefused
    obtain ⟨after, hset, hsound, hvalid, hhit, hheld⟩ := exchange.set_accepted hproper hroom hkept
    obtain ⟨final, hget⟩ := exchange.get_shows hproper hsound hvalid hhit hheld
    have hwhole : exchange.Whole server ↔ exchange.kept = exchange.words := by
      rw [Exchange.Whole, ← exchange.kept_eq_nil_iff, or_iff_left hrefused,
        exchange.kept_eq_words_iff]
    have hshow := showValue_eq ⟨joined exchange.kept, nulFree_joined exchange.kept⟩
      (exchange.length_kept_le hproper)
    rw [hwhole]
    constructor
    · intro hreturned
      obtain ⟨other, hother⟩ := hreturned after hset
      rw [hget, hshow, Option.some.injEq, Prod.mk.injEq] at hother
      have hbytes := congrArg Written.buffer hother.2
      simp only [sprintf, append_cancel_right_eq] at hbytes
      exact eq_of_joined_eq exchange.kept_sublist hkept hbytes
    · intro hwords other hother
      rw [hset, Option.some.injEq, Prod.mk.injEq] at hother
      obtain ⟨rfl, -⟩ := hother
      exact ⟨final, by rw [hget, hshow, hwords]⟩

end Exchanges

/-- Words sent to the hash engine of a new server, under a key typed in quotes. -/
def greeting : Exchange Float32 where
  family := .hash
  key := lit "my key"
  typed := ascii "\"my key\""
  words := [lit "hello", lit "there", lit "you"]
  ending := crlf
  setEnv := Env.quiet Float32
  getEnv := Env.quiet Float32

theorem stored_value_returned_iff_greeting :
    greeting.Returned (Server.start Float32 1000 .lru) := by
  have hproper : greeting.Proper (Server.start Float32 1000 .lru) :=
    { sound := sound_create
      valid := start_valid 1000 .lru
      absent := textHeld_create .hash _
      uncached := by decide +kernel
      spells := .quoted (by decide +kernel)
      ascii_key := by unfold Ascii; decide +kernel
      words_ne := by decide
      words_free := by decide +kernel
      ending := by decide +kernel
      line_le := by decide +kernel
      value_le := by decide +kernel
      setMemory := rfl
      getMemory := rfl }
  exact (stored_value_returned_iff greeting (Server.start Float32 1000 .lru) hproper).2
    (.inl ⟨by decide, by decide +kernel⟩)

/-- A value of 127 words. -/
def manyWords : Exchange Float32 where
  family := .array
  key := lit "k"
  typed := ascii "k"
  words := replicate 127 (lit "a")
  ending := crlf
  setEnv := Env.quiet Float32
  getEnv := Env.quiet Float32

theorem manyWords_proper : manyWords.Proper (Server.start Float32 1000 .lru) where
  sound := sound_create
  valid := start_valid 1000 .lru
  absent := textHeld_create .array _
  uncached := by decide +kernel
  spells := .bare (by decide) (by decide) (by decide +kernel)
  ascii_key := by unfold Ascii; decide +kernel
  words_ne := by decide
  words_free := by
    intro word hword
    obtain rfl := eq_of_mem_replicate hword
    decide +kernel
  ending := by decide +kernel
  line_le := by decide +kernel
  value_le := by decide +kernel
  setMemory := rfl
  getMemory := rfl

/-- The value is accepted, and comes back without its last word. -/
theorem last_word_lost :
    ∃ after final, manyWords.Proper (Server.start Float32 1000 .lru) ∧
      receive (Server.start Float32 1000 .lru) manyWords.setMessage =
        some (after, say "OK\r\n") ∧
      receive after manyWords.getMessage =
        some (final, sprintf (joined (replicate 126 (lit "a")) ++ crlf)) ∧
      joined manyWords.words = joined (replicate 126 (lit "a")) ++ ascii " a" := by
  have hproper := manyWords_proper
  have hkept : manyWords.kept = replicate 126 (lit "a") := by decide +kernel
  obtain ⟨after, hset, hsound, hvalid, hhit, hheld⟩ := manyWords.set_accepted hproper
    (by decide +kernel) (by rw [hkept]; decide)
  obtain ⟨final, hget⟩ := manyWords.get_shows hproper hsound hvalid hhit hheld
  rw [showValue_eq _ (manyWords.length_kept_le hproper)] at hget
  refine ⟨after, final, hproper, hset, ?_, by decide +kernel⟩
  rw [hget, hkept]

end LiteMultiKV.Protocol
