import LiteMultiKV.Protocol.Requests

/-!
# The end of a request

`kvs_protocol` is told how long a request is, but only the loop that rewrites
line ends keeps to that length.  The tokenizer goes on until it meets a NUL byte
or has found as many tokens as it can take, so it may read into whatever an
earlier request has left behind in the buffer.

It stays inside the request if the request holds a NUL byte or ends that many
tokens.  Then the outcome does not depend on the bytes behind it.  Otherwise the
bytes behind it decide which tokens are found.
-/

namespace LiteMultiKV.Protocol

open List CText Numeric

/-- The byte that ends a token, by the byte the token starts with. -/
def stopOf (byte : Byte) : Byte :=
  if byte = quote then quote else blank

/-- What follows the first token of a text if the token ends inside the text. -/
def behindToken (text : List Byte) : Option (List Byte) :=
  match text.dropWhile (· = blank) with
  | [] => none
  | byte :: rest =>
      if stopOf byte ∈ rest then some (rest.dropWhile (· ≠ stopOf byte)).tail else none

/-- The first `count` tokens of a text end inside it. -/
def endsTokens : ℕ → List Byte → Bool
  | 0, _ => true
  | count + 1, text =>
      match behindToken text with
      | none => false
      | some rest => endsTokens count rest

/-- The tokenizer comes to its end within the request. -/
def ScanEnds (request : List Byte) : Prop :=
  0 ∈ request ∨ endsTokens kvsMaxTokens (request.map stripByte) = true

instance (request : List Byte) : Decidable (ScanEnds request) :=
  inferInstanceAs (Decidable (_ ∨ _))

/-! ## A text and the bytes behind it -/

theorem takeWhile_append_of_stop {stop : Byte} {text : List Byte} (hstop : stop ∈ text)
    (more : List Byte) :
    (text ++ more).takeWhile (· ≠ stop) = text.takeWhile (· ≠ stop) ∧
      (text ++ more).dropWhile (· ≠ stop) = text.dropWhile (· ≠ stop) ++ more ∧
      text.dropWhile (· ≠ stop) ≠ [] := by
  induction text with
  | nil => cases hstop
  | cons byte text ih =>
      by_cases hbyte : byte = stop
      · simp [hbyte]
      · have hrest := ih ((mem_cons.1 hstop).resolve_left (Ne.symm hbyte))
        simpa [hbyte] using hrest

theorem takeWhile_of_no_stop {stop : Byte} {text : List Byte} (hstop : stop ∉ text) :
    text.takeWhile (· ≠ stop) = text ∧ text.dropWhile (· ≠ stop) = [] := by
  have hall : ∀ byte ∈ text, decide (byte ≠ stop) = true := by
    intro byte hbyte
    simpa using fun heq : byte = stop => hstop (heq ▸ hbyte)
  exact ⟨takeWhile_eq_self_iff.2 hall, dropWhile_eq_nil_iff.2 hall⟩

/-- The first token by the byte that it starts with. -/
theorem nextToken_of_blanks {text rest : List Byte} {byte : Byte}
    (hblanks : text.dropWhile (· = blank) = byte :: rest) :
    nextToken text =
      some ((if byte = quote then [] else [byte]) ++ rest.takeWhile (· ≠ stopOf byte),
        (rest.dropWhile (· ≠ stopOf byte)).tail) := by
  have hbyte : byte ≠ blank := by simpa using head_dropWhile_ne hblanks
  by_cases hquote : byte = quote
  · simp [nextToken, hblanks, stopOf, hquote]
  · simp [nextToken, hblanks, stopOf, hbyte, hquote]

theorem dropWhile_blanks_append {text rest : List Byte} {byte : Byte}
    (hblanks : text.dropWhile (· = blank) = byte :: rest) (more : List Byte) :
    (text ++ more).dropWhile (· = blank) = byte :: (rest ++ more) := by
  rw [dropWhile_append, hblanks]
  simp

/-- A token that ends inside a text is the same whatever follows the text. -/
theorem nextToken_append {text rest : List Byte} (hbehind : behindToken text = some rest)
    (more : List Byte) :
    ∃ token, nextToken text = some (token, rest) ∧
      nextToken (text ++ more) = some (token, rest ++ more) := by
  unfold behindToken at hbehind
  cases hblanks : text.dropWhile (· = blank) with
  | nil => simp [hblanks] at hbehind
  | cons byte tail =>
      simp only [hblanks] at hbehind
      rw [nextToken_of_blanks hblanks,
        nextToken_of_blanks (dropWhile_blanks_append hblanks more)]
      split at hbehind
      case isTrue hstop =>
          obtain ⟨htake, hdrop, hne⟩ := takeWhile_append_of_stop hstop more
          simp only [Option.some.injEq] at hbehind
          rw [htake, hdrop, tail_append_of_ne_nil hne, hbehind]
          exact ⟨_, rfl, rfl⟩
      case isFalse => cases hbehind

/-- Without such a token the next byte starts a token or joins the last one. -/
theorem nextToken_snoc {text : List Byte} (hbehind : behindToken text = none) {byte : Byte}
    (hblank : byte ≠ blank) (hquote : byte ≠ quote) :
    (nextToken text = none ∧ nextToken (text ++ [byte]) = some ([byte], [])) ∨
      ∃ token, nextToken text = some (token, []) ∧
        nextToken (text ++ [byte]) = some (token ++ [byte], []) := by
  unfold behindToken at hbehind
  cases hblanks : text.dropWhile (· = blank) with
  | nil =>
      left
      have hgrown : (text ++ [byte]).dropWhile (· = blank) = [byte] := by
        rw [dropWhile_append, hblanks]
        simp [hblank]
      exact ⟨by simp [nextToken, hblanks], by rw [nextToken_of_blanks hgrown]; simp [hquote]⟩
  | cons first tail =>
      right
      simp only [hblanks] at hbehind
      rw [nextToken_of_blanks hblanks,
        nextToken_of_blanks (dropWhile_blanks_append hblanks [byte])]
      split at hbehind
      case isTrue => cases hbehind
      case isFalse hstop =>
          have hother : byte ≠ stopOf first := by
            unfold stopOf
            split
            · exact hquote
            · exact hblank
          have hgrown : stopOf first ∉ tail ++ [byte] := by simp [hstop, hother.symm]
          obtain ⟨htake, hdrop⟩ := takeWhile_of_no_stop hstop
          obtain ⟨htakeGrown, hdropGrown⟩ := takeWhile_of_no_stop hgrown
          rw [htake, hdrop, htakeGrown, hdropGrown, ← append_assoc]
          exact ⟨_, rfl, rfl⟩

theorem grammarTokens_append {count : ℕ} {text : List Byte} (hends : endsTokens count text = true)
    (more : List Byte) : grammarTokens count (text ++ more) = grammarTokens count text := by
  induction count generalizing text with
  | zero => rfl
  | succ count ih =>
      unfold endsTokens at hends
      cases hbehind : behindToken text with
      | none => simp [hbehind] at hends
      | some rest =>
          obtain ⟨token, htoken, hgrown⟩ := nextToken_append hbehind more
          simp only [hbehind] at hends
          simp only [grammarTokens, htoken, hgrown, ih hends]

theorem grammarTokens_snoc_ne {count : ℕ} {text : List Byte}
    (hends : endsTokens count text = false) {byte : Byte} (hblank : byte ≠ blank)
    (hquote : byte ≠ quote) :
    grammarTokens count (text ++ [byte]) ≠ grammarTokens count text := by
  induction count generalizing text with
  | zero => cases hends
  | succ count ih =>
      unfold endsTokens at hends
      cases hbehind : behindToken text with
      | none =>
          rcases nextToken_snoc hbehind hblank hquote with ⟨hnone, hgrown⟩ | ⟨token, htoken, hgrown⟩
          · simp [grammarTokens, hnone, hgrown]
          · simp [grammarTokens, htoken, hgrown]
      | some rest =>
          obtain ⟨token, htoken, hgrown⟩ := nextToken_append hbehind [byte]
          simp only [hbehind] at hends
          simp only [grammarTokens, htoken, hgrown, ne_eq, cons.injEq, true_and]
          exact ih hends

/-! ## A request and the bytes behind it -/

theorem stripLines_append (request rest : List Byte) :
    stripLines request.length (request ++ rest) = request.map stripByte ++ rest := by
  simp [stripLines]

theorem zero_mem_map_stripByte {request : List Byte} :
    0 ∈ request.map stripByte ↔ 0 ∈ request := by
  have hzero : ∀ byte, stripByte byte = 0 ↔ byte = 0 := by
    intro byte
    unfold stripByte
    split
    · next hline =>
        rcases hline with rfl | rfl <;> decide
    · rfl
  simp [hzero]

theorem tokenStrings_eq_iff {left right : List Byte} :
    tokenStrings left = tokenStrings right ↔
      grammarTokens kvsMaxTokens (CStr.read left).bytes =
        grammarTokens kvsMaxTokens (CStr.read right).bytes := by
  rw [← tokenStrings_eq, ← tokenStrings_eq]
  refine (map_injective_iff.2 ?_).eq_iff.symm
  intro one other heq
  exact CStr.ext heq

/-- The bytes behind a request in which the scan ends do not change the tokens. -/
theorem tokenStrings_of_scanEnds {request : List Byte} (hends : ScanEnds request)
    (rest other : List Byte) :
    tokenStrings (stripLines request.length (request ++ rest)) =
      tokenStrings (stripLines request.length (request ++ other)) := by
  rw [stripLines_append, stripLines_append, tokenStrings_eq_iff]
  by_cases hzero : 0 ∈ request.map stripByte
  · have hread : ∀ more, (CStr.read (request.map stripByte ++ more)).bytes =
        (request.map stripByte).takeWhile (· ≠ 0) := fun more =>
      (takeWhile_append_of_stop hzero more).1
    rw [hread, hread]
  · have hread : ∀ more, (CStr.read (request.map stripByte ++ more)).bytes =
        request.map stripByte ++ more.takeWhile (· ≠ 0) := by
      intro more
      have hall : ∀ byte ∈ request.map stripByte, decide (byte ≠ 0) = true := by
        intro byte hbyte
        simpa using fun heq : byte = 0 => hzero (heq ▸ hbyte)
      simp only [CStr.read, takeWhile_append_of_pos hall]
    have hcount := hends.resolve_left fun hmem => hzero (zero_mem_map_stripByte.2 hmem)
    rw [hread, hread, grammarTokens_append hcount, grammarTokens_append hcount]

/-- A byte behind a request in which the scan does not end changes the tokens. -/
theorem tokenStrings_ne_of_not_scanEnds {request : List Byte} (hends : ¬ScanEnds request) :
    tokenStrings (stripLines request.length (request ++ [120, 0])) ≠
      tokenStrings (stripLines request.length (request ++ [0])) := by
  rw [ScanEnds, not_or, Bool.not_eq_true] at hends
  obtain ⟨hzero, hcount⟩ := hends
  have htext : 0 ∉ request.map stripByte := fun hmem => hzero (zero_mem_map_stripByte.1 hmem)
  rw [stripLines_append, stripLines_append, ne_eq, tokenStrings_eq_iff]
  have hread : ∀ more, 0 ∉ more →
      (CStr.read (request.map stripByte ++ (more ++ [0]))).bytes =
        request.map stripByte ++ more := by
    intro more hmore
    have hfree : 0 ∉ request.map stripByte ++ more := by simp [htext, hmore]
    rw [← append_assoc]
    exact congrArg CStr.bytes (CStr.read_terminated ⟨_, hfree⟩ [])
  have hlonger := hread [120] (by decide)
  have hplain := hread [] (by simp)
  rw [append_nil] at hplain
  rw [show [120, 0] = [120] ++ [(0 : Byte)] from rfl, hlonger,
    show [(0 : Byte)] = [] ++ [0] from rfl, hplain]
  exact grammarTokens_snoc_ne hcount (by decide) (by decide)

/-- A request in which the scan ends is decided by its own bytes, in every state of the
server; for any other request the bytes behind it decide which tokens are found. -/
theorem request_decided_by_own_bytes {F : Type} [CFloat F] {request : List Byte}
    (hrequest : request ≠ []) :
    (ScanEnds request → ∀ (env : Env F) (ns : CStr) (server : Server F) (rest other : List Byte),
      kvsProtocol env (request ++ rest) request.length ns server =
        kvsProtocol env (request ++ other) request.length ns server) ∧
    (¬ScanEnds request → ∃ rest other,
      tokenStrings (stripLines request.length (request ++ rest)) ≠
        tokenStrings (stripLines request.length (request ++ other))) := by
  refine ⟨fun hends env ns server rest other => ?_, fun hends => ?_⟩
  · have hpositive : ¬(request.length : ℤ) ≤ 0 := by
      have := length_pos_iff.2 hrequest
      omega
    simp only [kvsProtocol, hpositive, if_false, Int.toNat_natCast,
      tokenStrings_of_scanEnds hends rest other]
  · exact ⟨_, _, tokenStrings_ne_of_not_scanEnds hends⟩

/-- A request that brings its terminator along. -/
def terminated : List Byte :=
  ascii "GET k\x00"

theorem request_decided_by_own_bytes_terminated :
    kvsProtocol (Env.quiet Float32) (terminated ++ ascii "ey\x00") terminated.length
        (lit "default") (Server.start Float32 1000 .lru) =
      kvsProtocol (Env.quiet Float32) (terminated ++ ascii "\x00") terminated.length
        (lit "default") (Server.start Float32 1000 .lru) :=
  (request_decided_by_own_bytes (by decide : terminated ≠ [])).1 (by decide +kernel) _ _ _ _ _

/-- The reply to `GET k` on a server that holds `key`, with the given bytes behind it. -/
def replyWithBehind (rest : List Byte) : Option Written := do
  let stored ← kvsProtocol (Env.quiet Float32) (ascii "SET key 1\x00") 9 (lit "default")
    (Server.start Float32 1000 .lru)
  let outcome ← kvsProtocol (Env.quiet Float32) (ascii "GET k" ++ rest) 5 (lit "default")
    stored.server
  return outcome.reply

/-- The bytes behind the request complete its key. -/
theorem stale_bytes_join_request :
    replyWithBehind (ascii "\x00") = some (say "NO EXIST\r\n") ∧
      replyWithBehind (ascii "ey\x00") = some (say "1\r\n") := by
  decide +kernel

end LiteMultiKV.Protocol
