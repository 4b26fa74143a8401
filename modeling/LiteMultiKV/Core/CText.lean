import Mathlib

/-!
# C strings and formatted output

The server stores, compares and prints NUL-terminated byte strings.  A `CStr`
is such a string without its terminator: the bytes carry the proof that none
of them is NUL, so that equality of `CStr` values is equality in the sense of
`strcmp`.  The second half of the file models the output side of `printf`:
decimal conversion of machine integers and a buffer that records how far a
call has written.
-/

namespace LiteMultiKV.CText

abbrev Byte := UInt8

/-- A NUL-terminated string, without the terminator. -/
structure CStr where
  bytes : List Byte
  nulFree : 0 ∉ bytes
  deriving DecidableEq

@[ext]
theorem CStr.ext {left right : CStr} (hbytes : left.bytes = right.bytes) :
    left = right := by
  cases left
  cases right
  simpa using hbytes

/-- What a `char *` into `memory` denotes: everything before the first NUL. -/
def CStr.read (memory : List Byte) : CStr where
  bytes := memory.takeWhile (· ≠ 0)
  nulFree := fun hzero => by
    simpa using List.mem_takeWhile_imp hzero

/-- The ASCII bytes of a source-code literal. -/
def ascii (text : String) : List Byte :=
  text.toList.map fun char => UInt8.ofNat char.toNat

/-- A string literal of the source. -/
def lit (text : String) : CStr :=
  CStr.read (ascii text)

def strlen (text : CStr) : ℕ :=
  text.bytes.length

def CStr.append (left right : CStr) : CStr where
  bytes := left.bytes ++ right.bytes
  nulFree := by simp [left.nulFree, right.nulFree]

def CStr.take (text : CStr) (count : ℕ) : CStr where
  bytes := text.bytes.take count
  nulFree := fun hzero => text.nulFree (List.mem_of_mem_take hzero)

/-- Distinct texts, told apart by their length. -/
def unaryKey (index : ℕ) : CStr :=
  CStr.read (List.replicate (index + 1) 97)

theorem unaryKey_bytes (index : ℕ) : (unaryKey index).bytes = List.replicate (index + 1) 97 :=
  List.takeWhile_eq_self_iff.2 fun byte hbyte => by simp [List.eq_of_mem_replicate hbyte]

theorem unaryKey_injective {left right : ℕ} (heq : unaryKey left = unaryKey right) :
    left = right := by
  have hlength := congrArg (fun key => key.bytes.length) heq
  simpa [unaryKey_bytes] using hlength

/-- `read` undoes writing a string followed by its terminator. -/
theorem CStr.read_terminated (text : CStr) (suffix : List Byte) :
    CStr.read (text.bytes ++ 0 :: suffix) = text := by
  apply CStr.ext
  have hall : ∀ byte ∈ text.bytes, decide (byte ≠ 0) = true := by
    intro byte hbyte
    have hne : byte ≠ 0 := fun hzero => text.nulFree (hzero ▸ hbyte)
    simpa using hne
  simp only [CStr.read]
  rw [List.takeWhile_append_of_pos hall]
  simp

theorem CStr.read_bytes (text : CStr) : CStr.read text.bytes = text := by
  apply CStr.ext
  simp only [CStr.read]
  apply List.takeWhile_eq_self_iff.2
  intro byte hbyte
  have hne : byte ≠ 0 := fun hzero => text.nulFree (hzero ▸ hbyte)
  simpa using hne

/-- A terminator bounds the string before it. -/
theorem CStr.length_read_le (memory : List Byte) :
    (CStr.read (memory ++ [0])).bytes.length ≤ memory.length := by
  simp only [CStr.read, List.takeWhile_append]
  split
  · simp
  · exact (List.takeWhile_sublist _).length_le

/-! ## `strcmp` as a linear order -/

/-- The loop of `strcmp`: the first differing pair decides, the end of a string
counts as the byte 0. -/
def compareBytes : List Byte → List Byte → ℤ
  | [], [] => 0
  | [], byte :: _ => -(byte.toNat : ℤ)
  | byte :: _, [] => byte.toNat
  | left :: lefts, right :: rights =>
      if left = right then compareBytes lefts rights
      else (left.toNat : ℤ) - right.toNat

def strcmp (left right : CStr) : ℤ :=
  compareBytes left.bytes right.bytes

/-- The unsigned byte values, whose lexicographic order `strcmp` follows. -/
def codes (text : CStr) : List ℕ :=
  text.bytes.map UInt8.toNat

theorem codes_injective : Function.Injective codes := by
  intro left right heq
  apply CStr.ext
  exact List.map_injective_iff.2 (fun _ _ h => UInt8.toNat_inj.1 h) heq

/-- C strings are ordered as `strcmp` orders them. -/
instance : LinearOrder CStr where
  le left right := codes left ≤ codes right
  lt left right := codes left < codes right
  le_refl text := le_refl (codes text)
  le_trans _ _ _ hleft hright := le_trans hleft hright
  lt_iff_le_not_ge _ _ := lt_iff_le_not_ge
  le_antisymm _ _ hle hge := codes_injective (le_antisymm hle hge)
  le_total left right := le_total (codes left) (codes right)
  toDecidableLE left right := inferInstanceAs (Decidable (codes left ≤ codes right))
  toDecidableLT left right := inferInstanceAs (Decidable (codes left < codes right))
  toDecidableEq := instDecidableEqCStr

private theorem toNat_pos {byte : Byte} (hne : byte ≠ 0) : 0 < byte.toNat := by
  apply Nat.pos_of_ne_zero
  intro hzero
  exact hne (UInt8.toNat_inj.1 (by simpa using hzero))

theorem compareBytes_self (bytes : List Byte) : compareBytes bytes bytes = 0 := by
  induction bytes with
  | nil => rfl
  | cons byte bytes ih => simp [compareBytes, ih]

private theorem compareBytes_neg_iff :
    ∀ lefts rights : List Byte, 0 ∉ lefts → 0 ∉ rights →
      (compareBytes lefts rights < 0 ↔
        lefts.map UInt8.toNat < rights.map UInt8.toNat)
  | [], [], _, _ => by simp [compareBytes]
  | [], byte :: rights, _, hright => by
      have hpos : 0 < byte.toNat := toNat_pos (fun h => hright (by simp [h]))
      simp [compareBytes, hpos]
  | byte :: lefts, [], _, _ => by
      simp [compareBytes]
  | left :: lefts, right :: rights, hleft, hright => by
      have ih := compareBytes_neg_iff lefts rights
        (fun h => hleft (List.mem_cons_of_mem _ h))
        (fun h => hright (List.mem_cons_of_mem _ h))
      by_cases heq : left = right
      · subst heq
        simp [compareBytes, ih]
      · have hne : left.toNat ≠ right.toNat := fun h => heq (UInt8.toNat_inj.1 h)
        simp only [compareBytes, heq, if_false, List.map_cons,
          List.cons_lt_cons_iff, hne, false_and, or_false]
        omega

private theorem compareBytes_neg_swap :
    ∀ lefts rights : List Byte,
      compareBytes lefts rights = -compareBytes rights lefts
  | [], [] => by simp [compareBytes]
  | [], byte :: rights => by simp [compareBytes]
  | byte :: lefts, [] => by simp [compareBytes]
  | left :: lefts, right :: rights => by
      by_cases heq : left = right
      · subst heq
        simpa [compareBytes] using compareBytes_neg_swap lefts rights
      · have hne : ¬right = left := fun h => heq h.symm
        simp [compareBytes, heq, hne]

theorem strcmp_neg_iff {left right : CStr} : strcmp left right < 0 ↔ left < right :=
  compareBytes_neg_iff left.bytes right.bytes left.nulFree right.nulFree

theorem strcmp_pos_iff {left right : CStr} : 0 < strcmp left right ↔ right < left := by
  rw [← strcmp_neg_iff, strcmp, strcmp, compareBytes_neg_swap]
  omega

theorem strcmp_eq_zero_iff {left right : CStr} : strcmp left right = 0 ↔ left = right := by
  constructor
  · intro hzero
    have hlt : ¬left < right := by rw [← strcmp_neg_iff]; omega
    have hgt : ¬right < left := by rw [← strcmp_pos_iff]; omega
    exact le_antisymm (not_lt.1 hgt) (not_lt.1 hlt)
  · rintro rfl
    exact compareBytes_self _

/-! ## Formatted output -/

/-- Two's complement wrap-around of a C `int`. -/
def int32 (value : ℤ) : ℤ :=
  value.bmod (2 ^ 32)

/-- Two's complement wrap-around of a C `long`. -/
def int64 (value : ℤ) : ℤ :=
  value.bmod (2 ^ 64)

/-- `%lu` of a natural number that fits its type. -/
def decimal (value : ℕ) : List Byte :=
  if value = 0 then ascii "0"
  else (Nat.digits 10 value).reverse.map fun digit => UInt8.ofNat (48 + digit)

/-- Decimal text of a signed number. -/
def signedDecimal (value : ℤ) : List Byte :=
  if value < 0 then ascii "-" ++ decimal value.natAbs else decimal value.natAbs

/-- `%d`. -/
def formatInt (value : ℤ) : List Byte :=
  signedDecimal (int32 value)

/-- `%ld`. -/
def formatLong (value : ℤ) : List Byte :=
  signedDecimal (int64 value)

/-- `%lu`. -/
def formatUlong (value : ℕ) : List Byte :=
  decimal (value % 2 ^ 64)

theorem length_decimal_le {value : ℕ} (digits : ℕ) (hdigits : 0 < digits)
    (hvalue : value < 10 ^ digits) : (decimal value).length ≤ digits := by
  by_cases hzero : value = 0
  · subst hzero
    simp only [decimal, if_true, ascii]
    exact hdigits
  · simp only [decimal, hzero, if_false, List.length_map, List.length_reverse]
    exact (Nat.digits_length_le_iff (by norm_num) value).2 hvalue

theorem length_signedDecimal_le {value : ℤ} (digits : ℕ) (hdigits : 0 < digits)
    (hvalue : value.natAbs < 10 ^ digits) :
    (signedDecimal value).length ≤ digits + 1 := by
  have hlength := length_decimal_le digits hdigits hvalue
  unfold signedDecimal
  split
  · have hsign : (ascii "-").length = 1 := rfl
    rw [List.length_append, hsign]
    omega
  · omega

theorem length_formatInt_le (value : ℤ) : (formatInt value).length ≤ 11 := by
  apply length_signedDecimal_le 10 (by norm_num)
  have hlow := @Int.le_bmod value (2 ^ 32) (by norm_num)
  have hhigh := @Int.bmod_lt value (2 ^ 32) (by norm_num)
  simp only [int32]
  omega

theorem length_formatLong_le (value : ℤ) : (formatLong value).length ≤ 20 := by
  apply length_signedDecimal_le 19 (by norm_num)
  have hlow := @Int.le_bmod value (2 ^ 64) (by norm_num)
  have hhigh := @Int.bmod_lt value (2 ^ 64) (by norm_num)
  simp only [int64]
  omega

/-- An output array after some `printf` calls: the bytes written so far, with
their terminators, and the value the last call returned. -/
structure Written where
  buffer : List Byte
  length : ℤ
  deriving DecidableEq

/-- Overwrite `bytes` at `offset`; a gap left before it keeps whatever was
there, shown as zeros. -/
def writeAt (buffer : List Byte) (offset : ℕ) (bytes : List Byte) : List Byte :=
  buffer.take offset ++ List.replicate (offset - buffer.length) 0 ++ bytes ++
    buffer.drop (offset + bytes.length)

/-- Copy `bytes` to the addresses from `offset` on. -/
def store (memory : ℕ → Byte) (offset : ℕ) (bytes : List Byte) : ℕ → Byte :=
  fun address =>
    if offset ≤ address then bytes.getD (address - offset) (memory address) else memory address

/-- `sprintf(response, ...)` producing `text`: no bound, terminator included. -/
def sprintf (text : List Byte) : Written where
  buffer := text ++ [0]
  length := text.length

/-- `snprintf(response, size, ...)` producing `text`: at most `size` bytes are
stored, the return value is the untruncated length. -/
def snprintf (size : ℕ) (text : List Byte) : Written where
  buffer := if size = 0 then [] else text.take (size - 1) ++ [0]
  length := text.length

/-- `length += snprintf(out + length, limit - length, ...)`.  The size argument
is unsigned, so a negative difference becomes a huge bound. -/
def snprintfAt (limit : ℤ) (written : Written) (text : List Byte) : Written where
  buffer := writeAt written.buffer written.length.toNat
    (snprintf ((limit - written.length) % 2 ^ 64).toNat text).buffer
  length := written.length + text.length

@[simp]
theorem store_nil (memory : ℕ → Byte) (offset : ℕ) : store memory offset [] = memory := by
  funext address
  simp [store]

/-- What is written behind other bytes extends them. -/
theorem store_store (memory : ℕ → Byte) (front back : List Byte) :
    store (store memory 0 front) front.length back = store memory 0 (front ++ back) := by
  funext address
  simp only [store, Nat.zero_le, if_true, Nat.sub_zero, List.getD_eq_getElem?_getD]
  split
  next hbehind =>
    rw [List.getElem?_eq_none hbehind, List.getElem?_append_right hbehind]
    rfl
  next hbefore =>
    rw [List.getElem?_append_left (Nat.not_le.1 hbefore)]

theorem store_outside (memory : ℕ → Byte) {bytes : List Byte} {address : ℕ}
    (houtside : bytes.length ≤ address) : store memory 0 bytes address = memory address := by
  simp [store, List.getElem?_eq_none houtside]

@[simp]
theorem sprintf_length (text : List Byte) : (sprintf text).length = text.length := rfl

@[simp]
theorem snprintf_length (size : ℕ) (text : List Byte) :
    (snprintf size text).length = text.length := rfl

/-- Writing at the end appends. -/
theorem writeAt_length (buffer bytes : List Byte) :
    writeAt buffer buffer.length bytes = buffer ++ bytes := by
  simp [writeAt]

theorem length_writeAt (buffer : List Byte) (offset : ℕ) (bytes : List Byte) :
    (writeAt buffer offset bytes).length =
      max buffer.length (offset + bytes.length) := by
  simp [writeAt]
  omega

end LiteMultiKV.CText
