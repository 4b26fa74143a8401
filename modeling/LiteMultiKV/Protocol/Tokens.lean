import LiteMultiKV.Core.CText

/-!
# Splitting a message

`kvs_protocol` turns line ends into blanks and `kvs_split_token` cuts the
message in place: a token is a pointer into the buffer, ended by a NUL byte
that overwrites the byte behind it, and the tokens are read only after all of
them have been found.  The buffer is a list of bytes; memory behind it counts
as NUL.  The main result reads the tokens off the text before the first NUL.
-/

namespace LiteMultiKV.Protocol

open List CText

/-- `KVS_MAX_TOKENS`. -/
def kvsMaxTokens : ℕ := 128

/-- The blank and the double quote. -/
def blank : Byte := 32

def quote : Byte := 34

/-- The byte a line end is rewritten to. -/
def stripByte (byte : Byte) : Byte :=
  if byte = 13 ∨ byte = 10 then blank else byte

/-- The rewriting loop of `kvs_protocol` over the first `length` bytes. -/
def stripLines (length : ℕ) (msg : List Byte) : List Byte :=
  (msg.take length).map stripByte ++ msg.drop length

/-- `*p`. -/
def byteAt (buffer : List Byte) (p : ℕ) : Byte :=
  buffer.getD p 0

/-- `while (test(*p)) p++`. -/
def scanWhile (test : Byte → Bool) (buffer : List Byte) (p : ℕ) : ℕ :=
  p + ((buffer.drop p).takeWhile test).length

/-- Find the end of a token and terminate it: the buffer and the position behind
the token. -/
def cutToken (stop : Byte) (buffer : List Byte) (start : ℕ) : List Byte × ℕ :=
  let p := scanWhile (fun byte => byte ≠ 0 && byte ≠ stop) buffer start
  if byteAt buffer p = stop then (buffer.set p 0, p + 1) else (buffer, p)

/-- The loop of `kvs_split_token`: the buffer and the offsets in `tokens`. -/
def splitLoop : ℕ → List Byte → ℕ → List ℕ → List Byte × List ℕ
  | 0, buffer, _, tokens => (buffer, tokens)
  | fuel + 1, buffer, p, tokens =>
      let p := scanWhile (· = blank) buffer p
      if byteAt buffer p = 0 then (buffer, tokens)
      else
        let quoted := byteAt buffer p = quote
        let start := if quoted then p + 1 else p
        let cut := cutToken (if quoted then quote else blank) buffer start
        let tokens := tokens ++ [start]
        if kvsMaxTokens ≤ tokens.length then (cut.1, tokens)
        else splitLoop fuel cut.1 cut.2 tokens

def kvsSplitToken (msg : List Byte) : List Byte × List ℕ :=
  splitLoop (msg.length + 1) msg 0 []

/-- The strings the token pointers denote after the split. -/
def tokenStrings (msg : List Byte) : List CStr :=
  let split := kvsSplitToken msg
  split.2.map fun offset => CStr.read (split.1.drop offset)

/-- The loop of `join_tokens`; `first` marks the token that gets no blank before
it. -/
def joinLoop (dstSize : ℕ) : Bool → List CStr → List Byte → List Byte
  | _, [], dst => dst
  | first, token :: tokens, dst =>
      if dst.length < dstSize - 1 then
        let dst := if first then dst else dst ++ [blank]
        let length :=
          if dstSize ≤ dst.length + strlen token then dstSize - dst.length - 1
          else strlen token
        joinLoop dstSize false tokens (dst ++ token.bytes.take length)
      else dst

def joinTokens (tokens : List CStr) (dstSize : ℕ) : CStr :=
  CStr.read (joinLoop dstSize true tokens [])

/-- The rounds of `join_tokens` that are left at index `i`, on the memory from `dst`
on: the memory and the offset behind the last byte. -/
def joinRounds (tokens : List CStr) (start dstSize : ℕ) :
    ℕ → ℕ → ℕ → (ℕ → Byte) → Option ((ℕ → Byte) × ℕ)
  | 0, _, offset, dst => some (dst, offset)
  | left + 1, i, offset, dst =>
      if offset < dstSize - 1 then do
        let blanked := start < i ∧ offset < dstSize - 1
        let dst := if blanked then store dst offset [blank] else dst
        let offset := if blanked then offset + 1 else offset
        let token ← tokens[i]?
        let length :=
          if dstSize ≤ offset + strlen token then dstSize - offset - 1 else strlen token
        joinRounds tokens start dstSize left (i + 1) (offset + length)
          (store dst offset (token.bytes.take length))
      else some (dst, offset)

/-- `join_tokens` on the memory from `dst` on. -/
def joinTokensInto (tokens : List CStr) (start count : ℕ) (dst : ℕ → Byte) (dstSize : ℕ) :
    Option (ℕ → Byte) := do
  let (dst, offset) ← joinRounds tokens start dstSize (count - start) start 0 dst
  return store dst offset [0]

/-- The size of the buffer of a namespaced key. -/
def keyBufferSize : ℕ := 256

/-- The empty and the default namespace leave the key as it is; `printf` shows a
missing key as `(null)`. -/
def makeNamespacedKey (ns : CStr) (key : Option CStr) : Option CStr :=
  if strlen ns = 0 ∨ strcmp ns (lit "default") = 0 then key
  else
    some (((ns.append (lit ":")).append (key.getD (lit "(null)"))).take (keyBufferSize - 1))

/-! ## The tokens of a text -/

/-- The first token of a text and what follows its end. -/
def nextToken (text : List Byte) : Option (List Byte × List Byte) :=
  match text.dropWhile (· = blank) with
  | [] => none
  | byte :: rest =>
      if byte = quote then
        some (rest.takeWhile (· ≠ quote), (rest.dropWhile (· ≠ quote)).tail)
      else
        some ((byte :: rest).takeWhile (· ≠ blank),
          ((byte :: rest).dropWhile (· ≠ blank)).tail)

/-- The first `limit` tokens of a text. -/
def grammarTokens : ℕ → List Byte → List (List Byte)
  | 0, _ => []
  | limit + 1, text =>
      match nextToken text with
      | none => []
      | some (token, rest) => token :: grammarTokens limit rest

/-- Memory behind a text starts with a NUL byte. -/
def Stopped (memory : List Byte) : Prop :=
  memory.headD 0 = 0

theorem takeWhile_stopped {test : Byte → Bool} (htest : test 0 = false) (text : List Byte)
    {memory : List Byte} (hstopped : Stopped memory) :
    (text ++ memory).takeWhile test = text.takeWhile test := by
  have hmemory : memory.takeWhile test = [] := by
    cases memory with
    | nil => rfl
    | cons byte memory =>
        have hzero : byte = 0 := hstopped
        rw [takeWhile_cons, hzero, htest]
        rfl
  rw [takeWhile_append]
  split
  · next hwhole =>
      rw [hmemory, append_nil]
      exact ((takeWhile_sublist test).eq_of_length hwhole).symm
  · rfl

theorem scanWhile_eq (test : Byte → Bool) (htest : test 0 = false) (before text : List Byte)
    {memory : List Byte} (hstopped : Stopped memory) :
    scanWhile test (before ++ text ++ memory) before.length =
      before.length + (text.takeWhile test).length := by
  rw [scanWhile, append_assoc, drop_left, takeWhile_stopped htest text hstopped]

theorem byteAt_eq (before text memory : List Byte) :
    byteAt (before ++ text ++ memory) before.length = (text ++ memory).headD 0 := by
  rw [byteAt, append_assoc, getD_eq_getElem?_getD, getElem?_append_right (le_refl _)]
  cases text ++ memory <;> simp

/-- A token that ends inside the text is terminated there. -/
theorem cutToken_inside {stop : Byte} {token : List Byte}
    (htoken : ∀ byte ∈ token, byte ≠ 0 ∧ byte ≠ stop) (before rest memory : List Byte) :
    cutToken stop (before ++ (token ++ stop :: rest) ++ memory) before.length =
      (before ++ token ++ 0 :: rest ++ memory, before.length + token.length + 1) := by
  have hscan : scanWhile (fun byte => byte ≠ 0 && byte ≠ stop)
      (before ++ (token ++ stop :: rest) ++ memory) before.length =
        (before ++ token).length := by
    rw [scanWhile, append_assoc, drop_left, append_assoc,
      takeWhile_append_of_pos (by simpa using htoken)]
    simp
  have hbyte : byteAt (before ++ (token ++ stop :: rest) ++ memory)
      (before ++ token).length = stop := by
    have heq := byteAt_eq (before ++ token) (stop :: rest) memory
    simpa using heq
  simp only [cutToken, hscan, hbyte, if_true]
  have hsplit : before ++ (token ++ stop :: rest) ++ memory =
      (before ++ token) ++ stop :: (rest ++ memory) := by simp
  rw [hsplit, set_append_right _ _ (le_refl _)]
  simp

/-- A token that runs to the end of the text is not. -/
theorem cutToken_end {stop : Byte} (hstop : stop ≠ 0) {token memory : List Byte}
    (htoken : ∀ byte ∈ token, byte ≠ 0 ∧ byte ≠ stop) (hstopped : Stopped memory)
    (before : List Byte) :
    cutToken stop (before ++ token ++ memory) before.length =
      (before ++ token ++ memory, before.length + token.length) := by
  have htest : (fun byte : Byte => (byte ≠ 0 && byte ≠ stop : Bool)) 0 = false := by simp
  have hscan : scanWhile (fun byte => byte ≠ 0 && byte ≠ stop)
      (before ++ token ++ memory) before.length = (before ++ token).length := by
    rw [scanWhile_eq _ htest before token hstopped, takeWhile_eq_self_iff.2 (by simpa using htoken)]
    simp
  have hbyte : byteAt (before ++ token ++ memory) (before ++ token).length = 0 := by
    have heq := byteAt_eq (before ++ token) [] memory
    rw [append_nil, nil_append] at heq
    exact heq.trans hstopped
  simp only [cutToken, hscan, hbyte]
  rw [if_neg hstop.symm, length_append]

theorem splitLoop_at_end (fuel : ℕ) (before : List Byte) {memory : List Byte}
    (hstopped : Stopped memory) (tokens : List ℕ) :
    splitLoop fuel (before ++ memory) before.length tokens = (before ++ memory, tokens) := by
  cases fuel with
  | zero => rfl
  | succ fuel =>
      have hscan := scanWhile_eq (· = blank) (by decide) before [] hstopped
      have hbyte := byteAt_eq before [] memory
      rw [append_nil] at hscan hbyte
      rw [nil_append] at hbyte
      have hzero : byteAt (before ++ memory) before.length = 0 := hbyte.trans hstopped
      simp only [splitLoop, hscan, takeWhile_nil, length_nil, Nat.add_zero, hzero, if_true]

theorem read_token {token rest : List Byte} (htoken : 0 ∉ token) (before : List Byte)
    (hrest : Stopped rest) :
    (CStr.read ((before ++ (token ++ rest)).drop before.length)).bytes = token := by
  rw [drop_left]
  simp only [CStr.read]
  rw [takeWhile_stopped (by simp) token hrest, takeWhile_eq_self_iff]
  intro byte hbyte
  have hne : byte ≠ 0 := fun hzero => htoken (hzero ▸ hbyte)
  simpa using hne

/-- What one round of the loop does with the token that starts behind `lead`:
the token is the part of `body` before the first `stop`. -/
structure Round (text lead body : List Byte) (stop : Byte) : Prop where
  split : text.dropWhile (· = blank) = lead ++ body
  stop_ne : stop ≠ 0
  next : nextToken text =
    some (body.takeWhile (· ≠ stop), (body.dropWhile (· ≠ stop)).tail)
  step : ∀ (fuel : ℕ) (before memory : List Byte) (tokens : List ℕ), Stopped memory →
    splitLoop (fuel + 1) (before ++ text ++ memory) before.length tokens =
      let start := before.length + (text.takeWhile (· = blank)).length + lead.length
      let cut := cutToken stop (before ++ text ++ memory) start
      if kvsMaxTokens ≤ (tokens ++ [start]).length then (cut.1, tokens ++ [start])
      else splitLoop fuel cut.1 cut.2 (tokens ++ [start])

theorem byteAt_behind_blanks (before text : List Byte) {memory : List Byte}
    (hstopped : Stopped memory) :
    byteAt (before ++ text ++ memory)
        (before.length + (text.takeWhile (· = blank)).length) =
      (text.dropWhile (· = blank)).headD 0 := by
  have heq := byteAt_eq (before ++ text.takeWhile (· = blank)) (text.dropWhile (· = blank))
    memory
  rw [append_assoc before, takeWhile_append_dropWhile, length_append] at heq
  rw [heq]
  cases text.dropWhile (· = blank) with
  | nil => exact hstopped
  | cons byte rest => rfl

theorem head_dropWhile_ne {test : Byte → Bool} {text rest : List Byte} {byte : Byte}
    (hdrop : text.dropWhile test = byte :: rest) : test byte = false := by
  have hhead := head_dropWhile_not test (l := text) (by simp [hdrop])
  simpa [hdrop] using hhead

theorem round_quoted {text rest : List Byte}
    (hdrop : text.dropWhile (· = blank) = quote :: rest) :
    Round text [quote] rest quote where
  split := hdrop
  stop_ne := by decide
  next := by simp [nextToken, hdrop]
  step := by
    intro fuel before memory tokens hstopped
    have hscan := scanWhile_eq (· = blank) (by decide) before text hstopped
    have hbyte := byteAt_behind_blanks before text hstopped
    rw [hdrop, headD_cons] at hbyte
    have hne : ¬quote = 0 := by decide
    simp only [splitLoop, hscan, hbyte, hne, if_false, if_true, length_singleton]

theorem round_bare {text rest : List Byte} {byte : Byte} (hbyte : byte ≠ 0)
    (hquote : byte ≠ quote) (hdrop : text.dropWhile (· = blank) = byte :: rest) :
    Round text [] (byte :: rest) blank where
  split := hdrop
  stop_ne := by decide
  next := by simp [nextToken, hdrop, hquote]
  step := by
    intro fuel before memory tokens hstopped
    have hscan := scanWhile_eq (· = blank) (by decide) before text hstopped
    have hat := byteAt_behind_blanks before text hstopped
    rw [hdrop, headD_cons] at hat
    simp only [splitLoop, hscan, hat, hbyte, hquote, if_false, length_nil, Nat.add_zero]

theorem exists_round {text rest : List Byte} {byte : Byte} (hfree : 0 ∉ text)
    (hdrop : text.dropWhile (· = blank) = byte :: rest) :
    ∃ lead body stop, Round text lead body stop := by
  by_cases hquote : byte = quote
  · exact ⟨_, _, _, round_quoted (hquote ▸ hdrop)⟩
  · have hbyte : byte ≠ 0 := by
      rintro rfl
      have hmem : 0 ∈ text.dropWhile (· = blank) := hdrop ▸ mem_cons_self
      exact hfree ((dropWhile_sublist _).subset hmem)
    exact ⟨_, _, _, round_bare hbyte hquote hdrop⟩

section Round

variable {text lead body rest : List Byte} {stop last : Byte}

theorem Round.text_eq (hround : Round text lead body stop) :
    text = text.takeWhile (· = blank) ++ lead ++ body := by
  rw [append_assoc, ← hround.split, takeWhile_append_dropWhile]

theorem Round.token_free (hround : Round text lead body stop) (hfree : 0 ∉ text) :
    ∀ item ∈ body.takeWhile (· ≠ stop), item ≠ 0 ∧ item ≠ stop := by
  intro item hitem
  have hne := mem_takeWhile_imp hitem
  refine ⟨fun hzero => hfree ?_, by simpa using hne⟩
  have hmem : item ∈ body := (takeWhile_sublist _).subset hitem
  rw [hround.text_eq, ← hzero]
  exact mem_append_right _ hmem

/-- The buffer of a round, cut where its token starts. -/
theorem Round.buffer_eq (hround : Round text lead body stop) (before memory : List Byte) :
    before ++ text ++ memory =
      before ++ text.takeWhile (· = blank) ++ lead ++ body ++ memory := by
  conv_lhs => rw [hround.text_eq]
  simp only [append_assoc]

/-- A token that runs to the end of the text ends the loop. -/
theorem Round.step_last (hround : Round text lead body stop) (hfree : 0 ∉ text)
    (hlast : body.dropWhile (· ≠ stop) = []) (fuel : ℕ) (before : List Byte) {memory : List Byte}
    (hstopped : Stopped memory) (tokens : List ℕ) :
    splitLoop (fuel + 1) (before ++ text ++ memory) before.length tokens =
      (before ++ text ++ memory,
        tokens ++ [(before ++ text.takeWhile (· = blank) ++ lead).length]) := by
  have hbody : body.takeWhile (· ≠ stop) = body := by
    have hsplit := takeWhile_append_dropWhile (p := (· ≠ stop)) (l := body)
    rwa [hlast, append_nil] at hsplit
  have hcut := cutToken_end hround.stop_ne (hbody ▸ hround.token_free hfree) hstopped
    (before ++ text.takeWhile (· = blank) ++ lead)
  have hend := splitLoop_at_end fuel (before ++ text.takeWhile (· = blank) ++ lead ++ body)
    hstopped (tokens ++ [(before ++ text.takeWhile (· = blank) ++ lead).length])
  rw [hround.step fuel before memory tokens hstopped, hround.buffer_eq, ← length_append,
    ← length_append]
  generalize before ++ text.takeWhile (· = blank) ++ lead = front at hcut hend
  rw [length_append] at hend
  simp only [hcut, hend, ite_self]

/-- Any other token is terminated in the buffer, and the loop goes on behind it. -/
theorem Round.step_more (hround : Round text lead body stop) (hfree : 0 ∉ text)
    (hmore : body.dropWhile (· ≠ stop) = last :: rest) (fuel : ℕ) (before : List Byte)
    {memory : List Byte} (hstopped : Stopped memory) (tokens : List ℕ) :
    splitLoop (fuel + 1) (before ++ text ++ memory) before.length tokens =
      let front := before ++ text.takeWhile (· = blank) ++ lead
      let cut := front ++ body.takeWhile (· ≠ stop) ++ [0]
      if kvsMaxTokens ≤ tokens.length + 1 then
        (cut ++ rest ++ memory, tokens ++ [front.length])
      else splitLoop fuel (cut ++ rest ++ memory) cut.length (tokens ++ [front.length]) := by
  have hstop : last = stop := by simpa using head_dropWhile_ne hmore
  have hbody : body = body.takeWhile (· ≠ stop) ++ stop :: rest := by
    rw [← hstop, ← hmore, hstop, takeWhile_append_dropWhile]
  have hcut := cutToken_inside (hround.token_free hfree)
    (before ++ text.takeWhile (· = blank) ++ lead) rest memory
  rw [← hbody] at hcut
  rw [hround.step fuel before memory tokens hstopped, hround.buffer_eq, ← length_append,
    ← length_append]
  generalize before ++ text.takeWhile (· = blank) ++ lead = front at hcut
  generalize body.takeWhile (· ≠ stop) = token at hcut
  have hterminated : front ++ token ++ 0 :: rest ++ memory =
      front ++ token ++ [0] ++ rest ++ memory := by simp
  have hlength : front.length + token.length + 1 = (front ++ token ++ [0]).length := by
    simp [Nat.add_assoc]
  have hcount : (tokens ++ [front.length]).length = tokens.length + 1 := by
    rw [length_append, length_singleton]
  rw [hterminated, hlength] at hcut
  simp only [hcut, hcount]

end Round

/-- Each round finds the next token of the text; what later rounds write lies
behind it. -/
theorem splitLoop_spec : ∀ (fuel : ℕ) (before text memory : List Byte) (tokens : List ℕ),
    0 ∉ text → Stopped memory → text.length < fuel → tokens.length < kvsMaxTokens →
    ∃ after new, splitLoop fuel (before ++ text ++ memory) before.length tokens =
        (before ++ after ++ memory, tokens ++ new) ∧
      new.map (fun offset => (CStr.read ((before ++ after ++ memory).drop offset)).bytes) =
        grammarTokens (kvsMaxTokens - tokens.length) text
  | 0, _, _, _, _, _, _, hfuel, _ => absurd hfuel (Nat.not_lt_zero _)
  | fuel + 1, before, text, memory, tokens, hfree, hstopped, hfuel, hroom => by
      obtain ⟨limit, hlimit⟩ : ∃ limit, kvsMaxTokens - tokens.length = limit + 1 :=
        ⟨kvsMaxTokens - tokens.length - 1, by omega⟩
      cases hdrop : text.dropWhile (· = blank) with
      | nil =>
          have hbyte := byteAt_behind_blanks before text hstopped
          rw [hdrop, headD_nil] at hbyte
          have hscan := scanWhile_eq (· = blank) (by decide) before text hstopped
          refine ⟨text, [], ?_, ?_⟩
          · simp only [splitLoop, hscan, hbyte, if_true, append_nil]
          · simp [hlimit, grammarTokens, nextToken, hdrop]
      | cons byte tail =>
          obtain ⟨lead, body, stop, hround⟩ := exists_round hfree hdrop
          have hnul : 0 ∉ body.takeWhile (· ≠ stop) := fun hzero =>
            (hround.token_free hfree 0 hzero).1 rfl
          have hbody := takeWhile_append_dropWhile (p := (· ≠ stop)) (l := body)
          rw [hlimit, grammarTokens, hround.next]
          cases hafter : body.dropWhile (· ≠ stop) with
          | nil =>
              rw [hafter, append_nil] at hbody
              refine ⟨text, _, hround.step_last hfree hafter fuel before hstopped tokens, ?_⟩
              rw [map_singleton, hround.buffer_eq, append_assoc _ body, hbody,
                read_token (hbody ▸ hnul) _ hstopped]
              cases limit <;> simp [grammarTokens, nextToken]
          | cons last rest =>
              have hstep := hround.step_more hfree hafter fuel before hstopped tokens
              have htext := hround.text_eq
              rw [hafter] at hbody
              generalize text.takeWhile (· = blank) = spaces at hstep htext
              generalize body.takeWhile (· ≠ stop) = token at hstep hnul hbody
              simp only at hstep
              have hshape : ∀ later : List Byte,
                  before ++ (spaces ++ lead ++ token ++ [0] ++ later) ++ memory =
                    before ++ spaces ++ lead ++ token ++ [0] ++ later ++ memory := by simp
              -- where the token ends nothing is written any more
              have hread : ∀ later : List Byte,
                  (CStr.read ((before ++ spaces ++ lead ++ token ++ [0] ++ later ++ memory).drop
                    (before ++ spaces ++ lead).length)).bytes = token := by
                intro later
                have hsplit : before ++ spaces ++ lead ++ token ++ [0] ++ later ++ memory =
                    before ++ spaces ++ lead ++ (token ++ 0 :: (later ++ memory)) := by simp
                rw [hsplit]
                exact read_token hnul _ rfl
              by_cases hfull : kvsMaxTokens ≤ tokens.length + 1
              · rw [if_pos hfull] at hstep
                refine ⟨spaces ++ lead ++ token ++ [0] ++ rest, _, by rw [hshape]; exact hstep, ?_⟩
                rw [hshape, map_singleton, hread, show limit = 0 by omega]
                rfl
              · rw [if_neg hfull] at hstep
                have htail : rest.Sublist text := by
                  rw [htext, ← hbody]
                  exact (((sublist_cons_self last rest).trans (sublist_append_right _ _)).trans
                    (sublist_append_right _ _))
                have hshorter : rest.length < fuel := by
                  have hlength := congrArg length htext
                  rw [← hbody] at hlength
                  simp only [length_append, length_cons] at hlength
                  omega
                have hlength : (tokens ++ [(before ++ spaces ++ lead).length]).length =
                    tokens.length + 1 := by
                  rw [length_append, length_singleton]
                obtain ⟨later, new, hloop, hnew⟩ := splitLoop_spec fuel
                  (before ++ spaces ++ lead ++ token ++ [0]) rest memory
                  (tokens ++ [(before ++ spaces ++ lead).length])
                  (fun hzero => hfree (htail.subset hzero)) hstopped hshorter (by omega)
                refine ⟨spaces ++ lead ++ token ++ [0] ++ later,
                  (before ++ spaces ++ lead).length :: new, ?_, ?_⟩
                · rw [hstep, hloop, hshape, append_assoc tokens, singleton_append]
                · rw [hshape, map_cons, hread, hnew, hlength,
                    show kvsMaxTokens - (tokens.length + 1) = limit by omega]
                  rfl

/-- The tokens are those of the text before the first NUL byte. -/
theorem tokenStrings_eq (msg : List Byte) :
    (tokenStrings msg).map CStr.bytes = grammarTokens kvsMaxTokens (CStr.read msg).bytes := by
  have hsplit : (CStr.read msg).bytes ++ msg.dropWhile (· ≠ 0) = msg :=
    takeWhile_append_dropWhile
  have hstopped : Stopped (msg.dropWhile (· ≠ 0)) := by
    cases hdrop : msg.dropWhile (· ≠ 0) with
    | nil => rfl
    | cons byte rest =>
        have hzero : byte = 0 := by simpa using head_dropWhile_ne hdrop
        exact hzero
  have hlength : (CStr.read msg).bytes.length < msg.length + 1 :=
    Nat.lt_succ_of_le (takeWhile_sublist _).length_le
  obtain ⟨after, new, hloop, hnew⟩ := splitLoop_spec (msg.length + 1) []
    (CStr.read msg).bytes (msg.dropWhile (· ≠ 0)) [] (CStr.read msg).nulFree hstopped hlength
    (by decide)
  rw [nil_append, hsplit, nil_append, length_nil, nil_append] at hloop
  rw [nil_append, length_nil, Nat.sub_zero] at hnew
  simp only [tokenStrings, kvsSplitToken, hloop, map_map]
  exact hnew

/-! ## Typed words -/

theorem grammarTokens_nil (limit : ℕ) : grammarTokens limit [] = [] := by
  cases limit <;> rfl

theorem grammarTokens_blank (limit : ℕ) (text : List Byte) :
    grammarTokens limit (blank :: text) = grammarTokens limit text := by
  cases limit with
  | zero => rfl
  | succ limit => simp [grammarTokens, nextToken]

theorem grammarTokens_blanks (limit : ℕ) {text : List Byte}
    (hblanks : ∀ byte ∈ text, byte = blank) :
    grammarTokens limit text = [] := by
  induction text with
  | nil => exact grammarTokens_nil limit
  | cons byte text ih =>
      rw [hblanks byte mem_cons_self, grammarTokens_blank]
      exact ih fun other hother => hblanks other (mem_cons_of_mem _ hother)

/-- A text that does not go on with another byte of a bare token. -/
def Spaced (text : List Byte) : Prop :=
  ∀ byte ∈ text.head?, byte = blank

theorem grammarTokens_tail {text : List Byte} (hspaced : Spaced text) (limit : ℕ) :
    grammarTokens limit text.tail = grammarTokens limit text := by
  cases text with
  | nil => rfl
  | cons byte text =>
      obtain rfl : byte = blank := hspaced byte rfl
      exact (grammarTokens_blank limit text).symm

theorem grammarTokens_bare {word rest : List Byte} (hword : word ≠ [])
    (hblank : blank ∉ word) (hquote : word.head? ≠ some quote) (hspaced : Spaced rest)
    (limit : ℕ) :
    grammarTokens (limit + 1) (word ++ rest) = word :: grammarTokens limit rest := by
  have hfree : ∀ byte ∈ word, decide (byte ≠ blank) = true := by
    intro byte hbyte
    simpa using fun heq : byte = blank => hblank (heq ▸ hbyte)
  have htake : (word ++ rest).takeWhile (· ≠ blank) = word := by
    rw [takeWhile_append_of_pos hfree]
    cases rest with
    | nil => simp
    | cons byte rest => simp [hspaced byte rfl]
  have hdrop : (word ++ rest).dropWhile (· ≠ blank) = rest := by
    rw [dropWhile_append_of_pos hfree]
    cases rest with
    | nil => rfl
    | cons byte rest => simp [hspaced byte rfl]
  rw [← grammarTokens_tail hspaced]
  cases word with
  | nil => exact absurd rfl hword
  | cons byte word =>
      have hfirst : byte ≠ blank := by simpa using hfree byte mem_cons_self
      have hbare : byte ≠ quote := by simpa using hquote
      rw [cons_append] at htake hdrop
      have hnext : nextToken (byte :: word ++ rest) = some (byte :: word, rest.tail) := by
        rw [nextToken, cons_append, dropWhile_cons_of_neg (by simpa using hfirst)]
        simp only [hbare, if_false, htake, hdrop]
      rw [grammarTokens, hnext]

theorem grammarTokens_quoted {body : List Byte} (hbody : quote ∉ body) (rest : List Byte)
    (limit : ℕ) :
    grammarTokens (limit + 1) (quote :: (body ++ quote :: rest)) =
      body :: grammarTokens limit rest := by
  have hfree : ∀ byte ∈ body, decide (byte ≠ quote) = true := by
    intro byte hbyte
    simpa using fun heq : byte = quote => hbody (heq ▸ hbyte)
  have hnext : nextToken (quote :: (body ++ quote :: rest)) = some (body, rest) := by
    rw [nextToken, dropWhile_cons_of_neg (by decide)]
    simp only [if_true, takeWhile_append_of_pos hfree, dropWhile_append_of_pos hfree]
    simp
  rw [grammarTokens, hnext]

theorem spaced_words (words : List (List Byte)) {rest : List Byte}
    (hrest : ∀ byte ∈ rest, byte = blank) : Spaced (words.flatMap (blank :: ·) ++ rest) := by
  intro byte hbyte
  cases words with
  | nil => exact hrest byte (mem_of_mem_head? hbyte)
  | cons word words => simpa using hbyte.symm

/-- Words typed one after the other are the tokens, except for empty ones. -/
theorem grammarTokens_words {words : List (List Byte)} {rest : List Byte}
    (hblank : ∀ word ∈ words, blank ∉ word) (hquote : ∀ word ∈ words, word.head? ≠ some quote)
    (hrest : ∀ byte ∈ rest, byte = blank) (limit : ℕ) :
    grammarTokens limit (words.flatMap (blank :: ·) ++ rest) =
      (words.filter (· ≠ [])).take limit := by
  induction words generalizing limit with
  | nil => simpa using grammarTokens_blanks limit hrest
  | cons word words ih =>
      have hrec := ih (fun other hother => hblank other (mem_cons_of_mem _ hother))
        (fun other hother => hquote other (mem_cons_of_mem _ hother))
      rw [flatMap_cons, cons_append, cons_append, grammarTokens_blank, append_assoc]
      by_cases hword : word = []
      · rw [hword, nil_append, hrec limit, filter_cons_of_neg (by simp)]
      · rw [filter_cons_of_pos (by simpa using hword)]
        cases limit with
        | zero => rfl
        | succ limit =>
            rw [grammarTokens_bare hword (hblank word mem_cons_self) (hquote word mem_cons_self)
              (spaced_words words hrest), hrec limit, take_succ_cons]

/-! ## Written lines -/

/-- A token as a client writes it: bare where it can be, in quotes otherwise. -/
def writeToken (token : CStr) : List Byte :=
  if token.bytes ≠ [] ∧ blank ∉ token.bytes then token.bytes
  else quote :: (token.bytes ++ [quote])

/-- A token behind one blank and as many more as the number says. -/
def writeSpaced (piece : ℕ × CStr) : List Byte :=
  replicate (piece.1 + 1) blank ++ writeToken piece.2

/-- A line of tokens, with its line end. -/
def writeLine (first : CStr) (others : List (ℕ × CStr)) : List Byte :=
  writeToken first ++ others.flatMap writeSpaced ++ [13, 10]

/-- Free of quotes and line ends. -/
def Plain (token : CStr) : Prop :=
  quote ∉ token.bytes ∧ 13 ∉ token.bytes ∧ 10 ∉ token.bytes

instance (token : CStr) : Decidable (Plain token) := by
  unfold Plain
  infer_instance

section Written

variable {token first : CStr} {others : List (ℕ × CStr)} {rest : List Byte}

theorem grammarTokens_written (hquote : quote ∉ token.bytes) (hspaced : Spaced rest)
    (limit : ℕ) :
    grammarTokens (limit + 1) (writeToken token ++ rest) =
      token.bytes :: grammarTokens limit rest := by
  unfold writeToken
  split
  next hbare =>
    refine grammarTokens_bare hbare.1 hbare.2 (fun hhead => hquote ?_) hspaced limit
    exact mem_of_mem_head? hhead
  next =>
    rw [cons_append, append_assoc, singleton_append]
    exact grammarTokens_quoted hquote rest limit

theorem grammarTokens_replicate (limit count : ℕ) (text : List Byte) :
    grammarTokens limit (replicate count blank ++ text) = grammarTokens limit text := by
  induction count with
  | zero => rfl
  | succ count ih => rw [replicate_succ, cons_append, grammarTokens_blank, ih]

theorem spaced_pieces (hrest : Spaced rest) : Spaced (others.flatMap writeSpaced ++ rest) := by
  cases others with
  | nil => exact hrest
  | cons piece others =>
      intro byte hbyte
      simpa [writeSpaced, replicate_succ] using hbyte.symm

/-- The spaced tokens of a line are its tokens, as far as the limit goes. -/
theorem grammarTokens_pieces (hplain : ∀ piece ∈ others, quote ∉ piece.2.bytes)
    (hrest : ∀ byte ∈ rest, byte = blank) {limit : ℕ} (hlimit : others.length ≤ limit) :
    grammarTokens limit (others.flatMap writeSpaced ++ rest) =
      others.map fun piece => piece.2.bytes := by
  have hspaced : Spaced rest := fun byte hbyte => hrest byte (mem_of_mem_head? hbyte)
  induction others generalizing limit with
  | nil => simpa using grammarTokens_blanks limit hrest
  | cons piece others ih =>
      obtain ⟨limit, rfl⟩ : ∃ fewer, limit = fewer + 1 :=
        Nat.exists_eq_succ_of_ne_zero (by rw [length_cons] at hlimit; omega)
      have hlater := ih (fun other hother => hplain other (mem_cons_of_mem _ hother))
        (Nat.le_of_succ_le_succ hlimit)
      rw [flatMap_cons, writeSpaced, append_assoc, append_assoc, grammarTokens_replicate,
        grammarTokens_written (hplain piece mem_cons_self) (spaced_pieces hspaced), hlater,
        map_cons]

theorem mem_writeToken {byte : Byte} (hbyte : byte ∈ writeToken token) :
    byte = quote ∨ byte ∈ token.bytes := by
  unfold writeToken at hbyte
  split at hbyte
  next => exact .inr hbyte
  next => simpa [or_comm] using hbyte

/-- The written tokens hold no line end, so rewriting touches the line end only. -/
theorem stripByte_written (hplain : ∀ token ∈ first :: others.map Prod.snd, Plain token) :
    (writeLine first others).map stripByte =
      writeToken first ++ others.flatMap writeSpaced ++ [blank, blank] := by
  have htoken : ∀ token ∈ first :: others.map Prod.snd, ∀ byte ∈ writeToken token,
      stripByte byte = byte := by
    intro token htoken byte hbyte
    obtain ⟨-, hreturn, hfeed⟩ := hplain token htoken
    refine if_neg ?_
    rintro (rfl | rfl)
    · exact (mem_writeToken hbyte).elim (by decide) hreturn
    · exact (mem_writeToken hbyte).elim (by decide) hfeed
  have hpieces : ∀ byte ∈ others.flatMap writeSpaced, stripByte byte = byte := by
    intro byte hbyte
    obtain ⟨piece, hpiece, hbyte⟩ := mem_flatMap.1 hbyte
    rcases mem_append.1 hbyte with hblank | hwritten
    · rw [eq_of_mem_replicate hblank]
      decide
    · exact htoken piece.2 (mem_cons_of_mem _ (mem_map_of_mem hpiece)) byte hwritten
  have hkept : ∀ text : List Byte, (∀ byte ∈ text, stripByte byte = byte) →
      text.map stripByte = text := fun text htext =>
    (map_congr_left htext).trans (map_id text)
  rw [writeLine, map_append, map_append, hkept _ (htoken first mem_cons_self),
    hkept _ hpieces]
  rfl

/-- The written tokens hold no NUL byte. -/
theorem zero_notMem_written : 0 ∉ writeToken first ++ others.flatMap writeSpaced := by
  intro hzero
  rcases mem_append.1 hzero with hfirst | hothers
  · exact (mem_writeToken hfirst).elim (by decide) first.nulFree
  · obtain ⟨piece, -, hbyte⟩ := mem_flatMap.1 hothers
    rcases mem_append.1 hbyte with hblank | hwritten
    · exact absurd (eq_of_mem_replicate hblank) (by decide)
    · exact (mem_writeToken hwritten).elim (by decide) piece.2.nulFree

/-- A written line splits into the tokens it was written from. -/
theorem tokenStrings_written (hplain : ∀ token ∈ first :: others.map Prod.snd, Plain token)
    (hcount : others.length + 1 ≤ kvsMaxTokens) (memory : List Byte) :
    tokenStrings (stripLines (writeLine first others).length
        (writeLine first others ++ 0 :: memory)) = first :: others.map Prod.snd := by
  have hread : (CStr.read (stripLines (writeLine first others).length
      (writeLine first others ++ 0 :: memory))).bytes =
        writeToken first ++ (others.flatMap writeSpaced ++ [blank, blank]) := by
    have hfree : 0 ∉ writeToken first ++ (others.flatMap writeSpaced ++ [blank, blank]) := by
      rw [← append_assoc, mem_append, not_or]
      exact ⟨zero_notMem_written, by decide⟩
    have hstopped : Stopped (0 :: memory) := rfl
    rw [stripLines, take_left, drop_left, stripByte_written hplain,
      append_assoc (writeToken first)]
    exact read_token hfree [] hstopped
  have hspaced : Spaced (others.flatMap writeSpaced ++ [blank, blank]) :=
    spaced_pieces fun byte hbyte => by simpa using hbyte.symm
  have htokens := tokenStrings_eq (stripLines (writeLine first others).length
    (writeLine first others ++ 0 :: memory))
  rw [hread, show kvsMaxTokens = 127 + 1 from rfl,
    grammarTokens_written (hplain first mem_cons_self).1 hspaced,
    grammarTokens_pieces (fun piece hpiece =>
      (hplain piece.2 (mem_cons_of_mem _ (mem_map_of_mem hpiece))).1) (by simp)
      (Nat.le_of_succ_le_succ hcount)] at htokens
  have hinjective : Function.Injective CStr.bytes := fun left right heq => CStr.ext heq
  apply map_injective_iff.2 hinjective
  rw [htokens, map_cons, map_map]
  rfl

end Written

theorem length_grammarTokens_le (limit : ℕ) (text : List Byte) :
    (grammarTokens limit text).length ≤ limit := by
  induction limit generalizing text with
  | zero => simp [grammarTokens]
  | succ limit ih =>
      rw [grammarTokens]
      cases nextToken text with
      | none => simp
      | some next => simpa using ih next.2

/-- The tokens of a message, after all the cuts, are those of the grammar, at most 128 of
them; a written line splits into the tokens it was written from. -/
theorem tokenizer_round_trip :
    (∀ msg : List Byte,
      (tokenStrings msg).map CStr.bytes = grammarTokens kvsMaxTokens (CStr.read msg).bytes ∧
        (kvsSplitToken msg).2.length ≤ kvsMaxTokens) ∧
    ∀ (first : CStr) (others : List (ℕ × CStr)) (memory : List Byte),
      (∀ token ∈ first :: others.map Prod.snd, Plain token) →
      others.length + 1 ≤ kvsMaxTokens →
      tokenStrings (stripLines (writeLine first others).length
        (writeLine first others ++ 0 :: memory)) = first :: others.map Prod.snd := by
  refine ⟨fun msg => ⟨tokenStrings_eq msg, ?_⟩,
    fun first others memory hplain hcount => tokenStrings_written hplain hcount memory⟩
  have hlength := congrArg length (tokenStrings_eq msg)
  rw [length_map, tokenStrings, length_map] at hlength
  rw [hlength]
  exact length_grammarTokens_le _ _

/-- A value with a blank and an empty one, written in quotes. -/
theorem tokenizer_round_trip_quoted :
    tokenStrings (stripLines 21 (ascii "SET k  \"one two\" \"\"\r\n" ++ [0, 7])) =
      [lit "SET", lit "k", lit "one two", lit ""] :=
  tokenizer_round_trip.2 (lit "SET") [(0, lit "k"), (1, lit "one two"), (0, lit "")] [7]
    (by decide) (by decide)

end LiteMultiKV.Protocol
