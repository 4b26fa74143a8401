import LiteMultiKV.Core.Delimited
import LiteMultiKV.Persist.RoundTrip

/-!
# Loading any file

The records of the format delimit themselves, so the body of any file is a longest
sequence of well-formed records and a tail.  This file shows what `rdb_load` does with
both: it applies the `set` operations of the records and stops at the tail, except that
a tail that is cut inside a string is a buffer freed twice.
-/

namespace LiteMultiKV.Persist

open List CText Delimited Families Memory

/-! ## The format -/

/-- A string in the file: its length and its bytes. -/
def textBytes (text : List Byte) : List Byte :=
  intBytes text.length ++ text

/-- A length that is accepted. -/
def Fits (text : List Byte) : Prop :=
  0 < text.length ∧ text.length ≤ maxStringLength

/-- A record in the file. -/
structure Wire where
  tag : ℤ
  key : List Byte
  value : List Byte
  deriving DecidableEq

def Wire.bytes (record : Wire) : List Byte :=
  intBytes record.tag ++ (textBytes record.key ++ textBytes record.value)

structure Wire.WellFormed (record : Wire) : Prop where
  tag_int : int32 record.tag = record.tag
  tag_ne : record.tag ≠ -1
  key_fits : Fits record.key
  value_fits : Fits record.value

/-- The 17 bytes of a header and what follows it. -/
def Headed (file body : List Byte) : Prop :=
  ∃ stamp, stamp.length = 8 ∧ file = rdbMagic ++ (intBytes rdbVersion ++ (stamp ++ body))

/-- A string of which fewer bytes are left than its length says. -/
def CutText (bytes : List Byte) : Prop :=
  ∃ length part, 0 < length ∧ length ≤ maxStringLength ∧ part.length < length ∧
    bytes = intBytes length ++ part

/-- A record that is cut inside its key or its value, in a buffer that was allocated. -/
def Torn (keyAlloc valueAlloc : Bool) (bytes : List Byte) : Prop :=
  ∃ tag rest, int32 tag = tag ∧ tag ≠ -1 ∧ bytes = intBytes tag ++ rest ∧ keyAlloc = true ∧
    (CutText rest ∨ valueAlloc = true ∧
      ∃ key last, Fits key ∧ rest = textBytes key ++ last ∧ CutText last)

/-! ## Reading integers and strings -/

theorem readExact_eq_some_iff {count : ℕ} {bytes front rest : List Byte} :
    readExact count bytes = some (front, rest) ↔ front.length = count ∧ bytes = front ++ rest := by
  unfold readExact
  constructor
  · intro hread
    split at hread
    next => cases hread
    next hlength =>
      obtain ⟨rfl, rfl⟩ := Prod.mk.inj (Option.some.inj hread)
      exact ⟨by rw [length_take]; omega, (take_append_drop count bytes).symm⟩
  · rintro ⟨rfl, rfl⟩
    simp

theorem intBytes_bytesInt {word : List Byte} (hlength : word.length = 4) :
    intBytes (bytesInt word) = word := by
  obtain ⟨a, b, c, d, rfl⟩ : ∃ a b c d, word = [a, b, c, d] := by
    match word, hlength with
    | [a, b, c, d], _ => exact ⟨a, b, c, d, rfl⟩
  have ha := a.toNat_lt
  have hb := b.toNat_lt
  have hc := c.toNat_lt
  have hd := d.toNat_lt
  have hbits : (bytesInt [a, b, c, d] % 2 ^ 32).toNat =
      ((a.toNat * 256 + b.toNat) * 256 + c.toNat) * 256 + d.toNat := by
    simp only [bytesInt, int32, foldl_cons, foldl_nil]
    have hpower : (2 : ℤ) ^ 32 = ((2 ^ 32 : ℕ) : ℤ) := by norm_num
    rw [hpower, Int.bmod_emod]
    omega
  have hbyte : ∀ (byte : Byte) (value : ℕ), value % 256 = byte.toNat →
      UInt8.ofNat value = byte := by
    intro byte value hvalue
    apply UInt8.toNat_inj.1
    rw [UInt8.toNat_ofNat']
    exact hvalue
  simp only [intBytes, hbits]
  rw [hbyte a _ (by omega), hbyte b _ (by omega), hbyte c _ (by omega), hbyte d _ (by omega)]

theorem reads_int : Reads intBytes (fun value => int32 value = value) rdbReadInt where
  complete := by
    intro value hvalue rest
    rw [rdbReadInt_append, hvalue]
  sound := by
    intro text value rest hread
    rw [rdbReadInt, Option.map_eq_some_iff] at hread
    obtain ⟨⟨word, after⟩, hword, heq⟩ := hread
    obtain ⟨rfl, rfl⟩ := Prod.mk.inj heq
    obtain ⟨hlength, rfl⟩ := readExact_eq_some_iff.1 hword
    exact ⟨Int.bmod_bmod, by rw [intBytes_bytesInt hlength]⟩

/-- Take a string off. -/
def takeText (bytes : List Byte) : Option (List Byte × List Byte) := do
  let (length, bytes) ← rdbReadInt bytes
  if length ≤ 0 ∨ (maxStringLength : ℤ) < length then none
  else readExact length.toNat bytes

theorem reads_text : Reads textBytes Fits takeText where
  complete := by
    intro text hfits rest
    have hread := reads_int.complete (int32_length hfits.2) (text ++ rest)
    rw [takeText, textBytes, append_assoc, hread]
    obtain ⟨hpositive, hlength⟩ := hfits
    have hgood : ¬((text.length : ℤ) ≤ 0 ∨ (maxStringLength : ℤ) < text.length) := by omega
    simp only [Option.bind_eq_bind, Option.bind_some, if_neg hgood, Int.toNat_natCast]
    exact readExact_append rfl rest
  sound := by
    intro bytes text rest hread
    simp only [takeText, Option.bind_eq_bind, Option.bind_eq_some_iff] at hread
    obtain ⟨⟨length, after⟩, hlength, hread⟩ := hread
    obtain ⟨-, rfl⟩ := reads_int.sound hlength
    simp only at hread
    split at hread
    next => cases hread
    next hgood =>
      obtain ⟨hcount, rfl⟩ := readExact_eq_some_iff.1 hread
      have hcast : (text.length : ℤ) = length := by
        rw [hcount]
        omega
      refine ⟨⟨by omega, by omega⟩, ?_⟩
      rw [textBytes, hcast, append_assoc]

/-- A string that is cut short does not start with a whole one. -/
theorem CutText.stuck {bytes : List Byte} (hcut : CutText bytes) :
    Stuck textBytes Fits bytes := by
  obtain ⟨length, part, -, hlength, hpart, rfl⟩ := hcut
  intro text rest hfits heq
  rw [textBytes, append_assoc] at heq
  obtain ⟨hsame, rfl⟩ := reads_int.append_inj (int32_length hlength) (int32_length hfits.2) heq
  rw [length_append] at hpart
  omega

/-- The bytes start with a whole string, with a string that is cut short, or with no string
at all. -/
theorem rdbReadString_cases (alloc : Bool) (bytes : List Byte) :
    (∃ text rest, Fits text ∧ bytes = textBytes text ++ rest ∧
        rdbReadString alloc bytes =
          if alloc then .text (CStr.read text) rest else .untouched) ∨
      (CutText bytes ∧ rdbReadString alloc bytes = if alloc then .released else .untouched) ∨
      (Stuck textBytes Fits bytes ∧ ¬CutText bytes ∧
        rdbReadString alloc bytes = .untouched) := by
  cases hint : rdbReadInt bytes with
  | none =>
      right; right
      refine ⟨reads_text.eq_none_iff.1 (by simp [takeText, hint]), ?_,
        by simp [rdbReadString, hint]⟩
      rintro ⟨length, part, -, hlength, -, rfl⟩
      rw [reads_int.complete (int32_length hlength)] at hint
      cases hint
  | some result =>
      obtain ⟨length, after⟩ := result
      by_cases hbad : length ≤ 0 ∨ (maxStringLength : ℤ) < length
      · right; right
        have htake : takeText bytes = none := by simp [takeText, hint, hbad]
        have hread : rdbReadString alloc bytes = .untouched := by
          simp only [rdbReadString, hint]
          rw [if_pos]
          tauto
        refine ⟨reads_text.eq_none_iff.1 htake, ?_, hread⟩
        rintro ⟨count, part, hpositive, hlength, -, rfl⟩
        rw [reads_int.complete (int32_length hlength), Option.some.injEq, Prod.mk.injEq] at hint
        omega
      · obtain ⟨hvalid, rfl⟩ := reads_int.sound hint
        have hcast : (length.toNat : ℤ) = length := Int.toNat_of_nonneg (by omega)
        cases hexact : readExact length.toNat after with
        | none =>
            right; left
            refine ⟨⟨length.toNat, after, by omega, by omega, ?_, by rw [hcast]⟩, ?_⟩
            · by_contra hlong
              simp [readExact, hlong] at hexact
            · cases alloc <;> simp [rdbReadString, hint, hbad, hexact]
        | some result =>
            left
            obtain ⟨text, rest⟩ := result
            obtain ⟨hcount, rfl⟩ := readExact_eq_some_iff.1 hexact
            refine ⟨text, rest, ⟨by omega, by omega⟩, ?_, ?_⟩
            · rw [textBytes, hcount, hcast, append_assoc]
            · cases alloc <;> simp [rdbReadString, hint, hbad, hexact]

theorem rdbReadString_eq_text_iff {alloc : Bool} {bytes rest : List Byte} {value : CStr} :
    rdbReadString alloc bytes = .text value rest ↔
      alloc = true ∧ ∃ text, Fits text ∧ bytes = textBytes text ++ rest ∧
        value = CStr.read text := by
  rcases rdbReadString_cases alloc bytes with ⟨text, last, hfits, rfl, hread⟩ |
    ⟨hcut, hread⟩ | ⟨hstuck, -, hread⟩
  · rw [hread]
    constructor
    · cases alloc with
      | true =>
          rintro ⟨rfl, rfl⟩
          exact ⟨rfl, text, hfits, rfl, rfl⟩
      | false => rintro ⟨⟩
    · rintro ⟨rfl, other, hother, heq, rfl⟩
      obtain ⟨rfl, rfl⟩ := reads_text.append_inj hfits hother heq
      rfl
  · rw [hread]
    constructor
    · cases alloc <;> rintro ⟨⟩
    · rintro ⟨-, text, hfits, rfl, -⟩
      exact absurd rfl (hcut.stuck text rest hfits)
  · rw [hread]
    constructor
    · rintro ⟨⟩
    · rintro ⟨-, text, hfits, rfl, -⟩
      exact absurd rfl (hstuck text rest hfits)

theorem rdbReadString_eq_released_iff {alloc : Bool} {bytes : List Byte} :
    rdbReadString alloc bytes = .released ↔ alloc = true ∧ CutText bytes := by
  rcases rdbReadString_cases alloc bytes with ⟨text, last, hfits, rfl, hread⟩ |
    ⟨hcut, hread⟩ | ⟨-, hwhole, hread⟩
  · rw [hread]
    constructor
    · cases alloc <;> rintro ⟨⟩
    · rintro ⟨-, hcut⟩
      exact absurd rfl (hcut.stuck text last hfits)
  · rw [hread]
    cases alloc with
    | true => exact ⟨fun _ => ⟨rfl, hcut⟩, fun _ => rfl⟩
    | false => exact ⟨by rintro ⟨⟩, by rintro ⟨⟨⟩, -⟩⟩
  · rw [hread]
    exact ⟨by rintro ⟨⟩, fun hcut => absurd hcut.2 hwhole⟩

/-! ## Reading records -/

/-- Take a record off. -/
def takeWire (bytes : List Byte) : Option (Wire × List Byte) :=
  (rdbReadInt bytes).bind fun tagged =>
    if tagged.1 = -1 then none
    else
      (takeText tagged.2).bind fun key =>
        (takeText key.2).map fun value => (⟨tagged.1, key.1, value.1⟩, value.2)

theorem reads_wire : Reads Wire.bytes Wire.WellFormed takeWire where
  complete := by
    intro record hrecord rest
    rw [takeWire, Wire.bytes, append_assoc, append_assoc, reads_int.complete hrecord.tag_int,
      Option.bind_some, if_neg hrecord.tag_ne, reads_text.complete hrecord.key_fits,
      Option.bind_some, reads_text.complete hrecord.value_fits, Option.map_some]
  sound := by
    intro bytes record rest hread
    obtain ⟨⟨tag, afterTag⟩, hint, hbody⟩ := Option.bind_eq_some_iff.1 hread
    obtain ⟨htag, rfl⟩ := reads_int.sound hint
    by_cases hne : tag = -1
    · rw [if_pos hne] at hbody
      cases hbody
    · rw [if_neg hne] at hbody
      obtain ⟨⟨key, afterKey⟩, hfirst, hrest⟩ := Option.bind_eq_some_iff.1 hbody
      obtain ⟨⟨value, last⟩, hsecond, heq⟩ := Option.map_eq_some_iff.1 hrest
      obtain ⟨rfl, rfl⟩ := Prod.mk.inj heq
      obtain ⟨hkey, rfl⟩ := reads_text.sound hfirst
      obtain ⟨hvalue, rfl⟩ := reads_text.sound hsecond
      exact ⟨⟨htag, hne, hkey, hvalue⟩, by simp [Wire.bytes]⟩

theorem Wire.bytes_ne_nil (record : Wire) : record.bytes ≠ [] := by
  intro hnil
  have hlength := congrArg length hnil
  simp [Wire.bytes] at hlength

/-- Fuel for a record and what follows it is fuel for what follows it. -/
theorem Wire.rest_length_lt {record : Wire} {rest : List Byte} {fuel : ℕ}
    (hfuel : (record.bytes ++ rest).length < fuel + 1) : rest.length < fuel := by
  have hpositive := length_pos_iff.2 record.bytes_ne_nil
  rw [length_append] at hfuel
  omega

section Records

variable {chance : LoadChance} {i : ℕ} {bytes rest : List Byte} {tag : ℤ}

/-- How the value of a record ends the reading of it. -/
def readValue (tag : ℤ) (key : CStr) : StringRead → RecordRead
  | .untouched => .stop
  | .released => .doubleFree
  | .text value rest => .record tag key value rest

/-- How the key does; behind it the value is read. -/
def readKey (tag : ℤ) (value : List Byte → StringRead) : StringRead → RecordRead
  | .untouched => .stop
  | .released => .doubleFree
  | .text key rest => readValue tag key (value rest)

theorem readRecord_tag (chance : LoadChance) (i : ℕ) (htag : int32 tag = tag) (hne : tag ≠ -1)
    (rest : List Byte) :
    readRecord chance i (intBytes tag ++ rest) =
      readKey tag (rdbReadString (chance.strings (2 * i + 1)))
        (rdbReadString (chance.strings (2 * i)) rest) := by
  rw [readRecord, reads_int.complete htag]
  simp only [if_neg hne]
  cases rdbReadString (chance.strings (2 * i)) rest with
  | untouched => rfl
  | released => rfl
  | text key last =>
      simp only [readKey]
      cases rdbReadString (chance.strings (2 * i + 1)) last with
      | untouched => rfl
      | released => rfl
      | text value last => rfl

/-- Without a tag nothing is read. -/
theorem readRecord_untagged
    (huntagged : ∀ tag rest, int32 tag = tag → tag ≠ -1 → bytes ≠ intBytes tag ++ rest) :
    readRecord chance i bytes = .stop := by
  cases hint : rdbReadInt bytes with
  | none => simp [readRecord, hint]
  | some result =>
      obtain ⟨tag, rest⟩ := result
      obtain ⟨htag, hbytes⟩ := reads_int.sound hint
      by_cases hne : tag = -1
      · simp [readRecord, hint, hne]
      · exact absurd hbytes (huntagged tag rest htag hne)

theorem rdbReadString_denied (bytes : List Byte) : rdbReadString false bytes = .untouched := by
  rcases rdbReadString_cases false bytes with ⟨_, _, _, _, hread⟩ | ⟨_, hread⟩ | ⟨_, _, hread⟩
  · exact hread
  · exact hread
  · exact hread

theorem rdbReadString_text {text : List Byte} (hfits : Fits text) (alloc : Bool)
    (rest : List Byte) :
    rdbReadString alloc (textBytes text ++ rest) =
      if alloc then .text (CStr.read text) rest else .untouched := by
  cases alloc with
  | true => exact rdbReadString_eq_text_iff.2 ⟨rfl, text, hfits, rfl, rfl⟩
  | false => exact rdbReadString_denied _

/-- A well-formed record is read if both its buffers can be allocated. -/
theorem readRecord_wire (chance : LoadChance) (i : ℕ) {record : Wire}
    (hrecord : record.WellFormed) (rest : List Byte) :
    readRecord chance i (record.bytes ++ rest) =
      if chance.strings (2 * i) && chance.strings (2 * i + 1) then
        .record record.tag (CStr.read record.key) (CStr.read record.value) rest
      else .stop := by
  rw [Wire.bytes, append_assoc, append_assoc,
    readRecord_tag chance i hrecord.tag_int hrecord.tag_ne,
    rdbReadString_text hrecord.key_fits]
  cases chance.strings (2 * i) with
  | false => simp [readKey]
  | true =>
      simp only [if_true, readKey, rdbReadString_text hrecord.value_fits, Bool.true_and]
      cases chance.strings (2 * i + 1) with
      | false => simp [readValue]
      | true => simp [readValue]

/-- A buffer is freed twice exactly when the record is torn. -/
theorem readRecord_eq_doubleFree_iff :
    readRecord chance i bytes = .doubleFree ↔
      Torn (chance.strings (2 * i)) (chance.strings (2 * i + 1)) bytes := by
  by_cases htagged : ∃ tag rest, int32 tag = tag ∧ tag ≠ -1 ∧ bytes = intBytes tag ++ rest
  · obtain ⟨tag, rest, htag, hne, rfl⟩ := htagged
    have htorn : Torn (chance.strings (2 * i)) (chance.strings (2 * i + 1))
        (intBytes tag ++ rest) ↔ chance.strings (2 * i) = true ∧
          (CutText rest ∨ chance.strings (2 * i + 1) = true ∧
            ∃ key last, Fits key ∧ rest = textBytes key ++ last ∧ CutText last) := by
      constructor
      · rintro ⟨other, last, hother, -, heq, hcut⟩
        obtain ⟨rfl, rfl⟩ := reads_int.append_inj htag hother heq
        exact hcut
      · exact fun hcut => ⟨tag, rest, htag, hne, rfl, hcut⟩
    rw [htorn, readRecord_tag chance i htag hne]
    cases hkey : rdbReadString (chance.strings (2 * i)) rest with
    | untouched =>
        refine ⟨by rintro ⟨⟩, ?_⟩
        rintro ⟨halloc, hcut | ⟨-, key, last, hfits, rfl, -⟩⟩
        · rw [rdbReadString_eq_released_iff.2 ⟨halloc, hcut⟩] at hkey
          cases hkey
        · rw [rdbReadString_text hfits, halloc] at hkey
          cases hkey
    | released =>
        obtain ⟨halloc, hcut⟩ := rdbReadString_eq_released_iff.1 hkey
        exact ⟨fun _ => ⟨halloc, .inl hcut⟩, fun _ => rfl⟩
    | text stored last =>
        obtain ⟨halloc, key, hfits, rfl, -⟩ := rdbReadString_eq_text_iff.1 hkey
        have hvalue : readValue tag stored (rdbReadString (chance.strings (2 * i + 1)) last) =
            .doubleFree ↔ chance.strings (2 * i + 1) = true ∧ CutText last := by
          rw [← rdbReadString_eq_released_iff]
          cases rdbReadString (chance.strings (2 * i + 1)) last <;> simp [readValue]
        refine hvalue.trans ⟨fun ⟨hvalueAlloc, hcut⟩ =>
          ⟨halloc, .inr ⟨hvalueAlloc, key, last, hfits, rfl, hcut⟩⟩, ?_⟩
        rintro ⟨-, hcut | ⟨hvalueAlloc, other, rest, hother, heq, hcut⟩⟩
        · exact absurd rfl (hcut.stuck key last hfits)
        · obtain ⟨rfl, rfl⟩ := reads_text.append_inj hfits hother heq
          exact ⟨hvalueAlloc, hcut⟩
  · rw [readRecord_untagged fun tag rest htag hne hbytes =>
      htagged ⟨tag, rest, htag, hne, hbytes⟩]
    refine ⟨by rintro ⟨⟩, ?_⟩
    rintro ⟨tag, rest, htag, hne, hbytes, -⟩
    exact absurd ⟨tag, rest, htag, hne, hbytes⟩ htagged

/-- Only a well-formed record is read. -/
theorem exists_wire_of_readRecord {key value : CStr}
    (hread : readRecord chance i bytes = .record tag key value rest) :
    ∃ record : Wire, record.WellFormed ∧ bytes = record.bytes ++ rest := by
  by_cases htagged : ∃ tag rest, int32 tag = tag ∧ tag ≠ -1 ∧ bytes = intBytes tag ++ rest
  · obtain ⟨tag, after, htag, hne, rfl⟩ := htagged
    rw [readRecord_tag chance i htag hne] at hread
    cases hkey : rdbReadString (chance.strings (2 * i)) after with
    | untouched => simp [hkey, readKey] at hread
    | released => simp [hkey, readKey] at hread
    | text stored last =>
        rw [hkey, readKey] at hread
        cases hvalue : rdbReadString (chance.strings (2 * i + 1)) last with
        | untouched => simp [hvalue, readValue] at hread
        | released => simp [hvalue, readValue] at hread
        | text contents final =>
            rw [hvalue, readValue, RecordRead.record.injEq] at hread
            obtain ⟨-, -, -, rfl⟩ := hread
            obtain ⟨-, first, hfirst, rfl, -⟩ := rdbReadString_eq_text_iff.1 hkey
            obtain ⟨-, second, hsecond, rfl, -⟩ := rdbReadString_eq_text_iff.1 hvalue
            exact ⟨⟨tag, first, second⟩, ⟨htag, hne, hfirst, hsecond⟩, by simp [Wire.bytes]⟩
  · rw [readRecord_untagged fun tag rest htag hne hbytes =>
      htagged ⟨tag, rest, htag, hne, hbytes⟩] at hread
    cases hread

theorem readRecord_stuck (hstuck : Stuck Wire.bytes Wire.WellFormed bytes)
    (hwhole : ¬Torn (chance.strings (2 * i)) (chance.strings (2 * i + 1)) bytes) :
    readRecord chance i bytes = .stop := by
  cases hread : readRecord chance i bytes with
  | stop => rfl
  | doubleFree => exact absurd (readRecord_eq_doubleFree_iff.1 hread) hwhole
  | record tag key value rest =>
      obtain ⟨record, hrecord, hbytes⟩ := exists_wire_of_readRecord hread
      exact absurd hbytes (hstuck record rest hrecord)

end Records

/-! ## Applying records -/

/-- The `set` operations of the records, in order; unknown tags are passed over. -/
def applyRecords (chance : LoadChance) :
    ℕ → List Wire → Engines → ℤ → Option (Engines × ℤ)
  | _, [], engines, count => some (engines, count)
  | i, record :: records, engines, count =>
      match familyOfTag record.tag with
      | none => applyRecords chance (i + 1) records engines count
      | some family => do
          let (engines, _) ← engineSet (chance.sets i) family engines
            (some (CStr.read record.key)) (some (CStr.read record.value))
          applyRecords chance (i + 1) records engines (count + 1)

section Loop

variable {chance : LoadChance} {records : List Wire} {bytes tail : List Byte}
variable {engines : Engines}

/-- The loop applies the longest sequence of well-formed records and stops at the tail,
where a torn record has no defined result. -/
theorem loadLoop_longest (hstrings : ∀ i, chance.strings i = true)
    (hlongest : Longest Wire.bytes Wire.WellFormed bytes records tail) {fuel : ℕ}
    (hfuel : bytes.length < fuel) (i : ℕ) (engines : Engines) (count : ℤ) :
    (Torn true true tail → loadLoop chance fuel i bytes engines count = none) ∧
      (¬Torn true true tail → loadLoop chance fuel i bytes engines count =
        applyRecords chance i records engines count) := by
  induction records generalizing bytes fuel i engines count with
  | nil =>
      obtain ⟨rfl, hstuck⟩ := longest_nil_iff.1 hlongest
      obtain ⟨fuel, rfl⟩ := Nat.exists_eq_succ_of_ne_zero (Nat.ne_zero_of_lt hfuel)
      constructor
      · intro htorn
        have hread : readRecord chance i tail = .doubleFree := by
          rw [readRecord_eq_doubleFree_iff, hstrings, hstrings]
          exact htorn
        simp [loadLoop, hread]
      · intro hwhole
        have hread : readRecord chance i tail = .stop := by
          apply readRecord_stuck hstuck
          rwa [hstrings, hstrings]
        simp [loadLoop, hread, applyRecords]
  | cons record records ih =>
      obtain ⟨hrecord, rest, rfl, hrest⟩ := longest_cons_iff.1 hlongest
      obtain ⟨fuel, rfl⟩ := Nat.exists_eq_succ_of_ne_zero (Nat.ne_zero_of_lt hfuel)
      have hshorter := Wire.rest_length_lt hfuel
      have hread := readRecord_wire chance i hrecord rest
      rw [hstrings, hstrings, Bool.and_self, if_pos rfl] at hread
      rw [loadLoop, hread, applyRecords]
      simp only
      cases familyOfTag record.tag with
      | none => exact ih hrest hshorter (i + 1) engines count
      | some family =>
          simp only [Option.bind_eq_bind]
          cases engineSet (chance.sets i) family engines (some (CStr.read record.key))
            (some (CStr.read record.value)) with
          | none => exact ⟨fun _ => rfl, fun _ => rfl⟩
          | some result => exact ih hrest hshorter (i + 1) result.1 (count + 1)

/-- The `set` operations are defined exactly when the hash engine can place its keys. -/
theorem applyRecords_isSome_iff (hsets : ∀ i, (chance.sets i).alloc = allocOk)
    (hsound : Sound engines) (i : ℕ) (count : ℤ) :
    (applyRecords chance i records engines count).isSome ↔
      ∀ record ∈ records, familyOfTag record.tag = some .hash →
        Hash.Placeable (CStr.read record.key) := by
  induction records generalizing engines i count with
  | nil => simp [applyRecords]
  | cons record records ih =>
      rw [forall_mem_cons, applyRecords]
      cases hfamily : familyOfTag record.tag with
      | none => simpa using ih hsound (i + 1) count
      | some family =>
          have hplaceable : (some family = some Family.hash →
              Hash.Placeable (CStr.read record.key)) ↔
                Addressable family (CStr.read record.key) := by
            rw [← Hash.bucket_isSome_iff, Option.isSome_iff_exists, Option.some.injEq]
            rfl
          have hsame : chance.sets i = ⟨allocOk, (chance.sets i).coins⟩ := by
            rw [← hsets i]
          rw [hplaceable, ← engineSet_isSome_iff hsound family (chance.sets i).coins
            (CStr.read record.key) (CStr.read record.value), ← hsame]
          simp only [Option.bind_eq_bind]
          cases hset : engineSet (chance.sets i) family engines (some (CStr.read record.key))
            (some (CStr.read record.value)) with
          | none => simp
          | some result =>
              rw [hsame] at hset
              simpa using ih (sound_of_engineSet hsound hset) (i + 1) (count + 1)

end Loop

/-! ## The header -/

theorem rdbLoadHeader_eq_some_iff {file body : List Byte} :
    rdbLoadHeader file = some body ↔ Headed file body := by
  constructor
  · intro hheader
    simp only [rdbLoadHeader, Option.bind_eq_bind, Option.bind_eq_some_iff] at hheader
    obtain ⟨⟨magic, afterMagic⟩, hmagic, hheader⟩ := hheader
    obtain ⟨-, rfl⟩ := readExact_eq_some_iff.1 hmagic
    split at hheader
    next => cases hheader
    next hsame =>
      obtain rfl := not_not.1 hsame
      simp only [Option.bind_eq_some_iff] at hheader
      obtain ⟨⟨version, afterVersion⟩, hversion, hheader⟩ := hheader
      obtain ⟨-, rfl⟩ := reads_int.sound hversion
      split at hheader
      next => cases hheader
      next hsame =>
        obtain rfl := not_not.1 hsame
        simp only [Option.bind_eq_some_iff, Option.pure_def, Option.some.injEq] at hheader
        obtain ⟨⟨high, afterHigh⟩, hhigh, ⟨low, afterLow⟩, hlow, rfl⟩ := hheader
        obtain ⟨hhighLength, rfl⟩ := readExact_eq_some_iff.1 hhigh
        obtain ⟨hlowLength, rfl⟩ := readExact_eq_some_iff.1 hlow
        exact ⟨high ++ low, by simp [hhighLength, hlowLength], by simp⟩
  · rintro ⟨stamp, hstamp, rfl⟩
    have hmagic : rdbMagic.length = 5 := by decide
    have hversion : int32 rdbVersion = rdbVersion := by decide
    have hsplit : stamp ++ body = stamp.take 4 ++ (stamp.drop 4 ++ body) := by
      rw [← append_assoc, take_append_drop]
    have hhigh : (stamp.take 4).length = 4 := by simp [hstamp]
    have hlow : (stamp.drop 4).length = 4 := by simp [hstamp]
    rw [hsplit, rdbLoadHeader]
    simp only [readExact_append hmagic, reads_int.complete hversion, readExact_append hhigh,
      readExact_append hlow, Option.bind_eq_bind, Option.bind_some, ne_eq, not_true_eq_false,
      if_false, Option.pure_def]

/-! ## Saved files -/

/-- A live pair as it stands in the file. -/
def Record.wire (record : Record) : Wire where
  tag := engineTag record.family
  key := record.key.bytes
  value := record.value.bytes

theorem Record.Accepted.wellFormed {record : Record} (haccepted : record.Accepted) :
    record.wire.WellFormed where
  tag_int := int32_engineTag record.family
  tag_ne := engineTag_ne record.family
  key_fits := haccepted.1
  value_fits := haccepted.2

theorem flatMap_recordBytes (records : List Record) :
    records.flatMap recordBytes = (records.map Record.wire).flatMap Wire.bytes := by
  rw [flatMap_map]
  rfl

/-- No part of the terminator starts with a record. -/
theorem stuck_terminator (count : ℕ) :
    Stuck Wire.bytes Wire.WellFormed ((intBytes (-1)).take count) := by
  intro record rest hrecord heq
  have hlength := congrArg length heq
  simp only [length_take, length_append, Wire.bytes, textBytes, length_intBytes] at hlength
  omega

/-- A truncated saved file holds the records that lie wholly inside it. -/
theorem longest_truncated {saved : List Record} (haccepted : ∀ record ∈ saved, record.Accepted)
    (timestamp : ℤ) {count : ℕ} (hcount : 17 ≤ count) :
    ∃ body tail, Headed ((encoding timestamp saved).take count) body ∧
      Longest Wire.bytes Wire.WellFormed body
        (within Wire.bytes (count - 17) (saved.map Record.wire)) tail := by
  have hwellFormed : ∀ record ∈ saved.map Record.wire, record.WellFormed := by
    intro record hrecord
    obtain ⟨pair, hpair, rfl⟩ := mem_map.1 hrecord
    exact (haccepted pair hpair).wellFormed
  obtain ⟨tail, hlongest⟩ :=
    reads_wire.longest_take hwellFormed stuck_terminator (count - 17)
  have hheader : (headerBytes timestamp).length = 17 := rfl
  refine ⟨_, tail, ?_, hlongest⟩
  rw [encoding_eq, flatMap_recordBytes, take_append, hheader,
    take_of_length_le (hheader.trans_le hcount), ← rdbLoadHeader_eq_some_iff]
  exact rdbLoadHeader_append timestamp _

/-! ## Any file -/

/-- A file without a valid header is refused.  The body of any other has a unique longest
sequence of well-formed records, and loading it is applying their `set` operations in
order exactly when the tail behind them is not torn and the hash engine can place its keys.
For a truncated saved file they are the records that lie wholly inside. -/
theorem load_applies_records_iff {chance : LoadChance} (hchance : chance.Succeeds)
    {engines : Engines} (hsound : Sound engines) (file : List Byte) :
    ((∀ body, ¬Headed file body) → rdbLoad chance (some file) engines = some (engines, -1)) ∧
    (∀ body, ∃! parts : List Wire × List Byte,
      Longest Wire.bytes Wire.WellFormed body parts.1 parts.2) ∧
    (∀ body records tail, Headed file body →
      Longest Wire.bytes Wire.WellFormed body records tail →
      ((∃ result, rdbLoad chance (some file) engines = some result ∧
          applyRecords chance 0 records engines 0 = some result) ↔
        ¬Torn true true tail ∧ ∀ record ∈ records, familyOfTag record.tag = some .hash →
          Hash.Placeable (CStr.read record.key))) ∧
    ∀ timestamp saved count, (∀ record ∈ saved, record.Accepted) → 17 ≤ count →
      file = (encoding timestamp saved).take count → ∃ body tail, Headed file body ∧
        Longest Wire.bytes Wire.WellFormed body
          (within Wire.bytes (count - 17) (saved.map Record.wire)) tail := by
  refine ⟨fun hnone => ?_, fun body => ?_, fun body records tail hheaded hlongest => ?_, ?_⟩
  · cases hheader : rdbLoadHeader file with
    | none => simp [rdbLoad, hheader]
    | some body => exact absurd (rdbLoadHeader_eq_some_iff.1 hheader) (hnone body)
  · obtain ⟨records, tail, hlongest⟩ :=
      reads_wire.exists_longest (fun record _ => record.bytes_ne_nil) body
    refine ⟨(records, tail), hlongest, fun other hother => ?_⟩
    obtain ⟨hrecords, htail⟩ := hother.unique reads_wire hlongest
    exact Prod.ext hrecords htail
  · have hload : rdbLoad chance (some file) engines =
        loadLoop chance (body.length + 1) 0 body engines 0 := by
      simp only [rdbLoad, rdbLoadHeader_eq_some_iff.2 hheaded]
    obtain ⟨htorn, hwhole⟩ := loadLoop_longest hchance.strings_eq hlongest
      (Nat.lt_succ_self _) 0 engines 0
    rw [hload, ← applyRecords_isSome_iff hchance.sets_eq hsound 0 0, Option.isSome_iff_exists]
    constructor
    · rintro ⟨result, hresult, happlied⟩
      refine ⟨fun hcut => ?_, result, happlied⟩
      rw [htorn hcut] at hresult
      cases hresult
    · rintro ⟨hcut, result, happlied⟩
      exact ⟨result, (hwhole hcut).trans happlied, happlied⟩
  · rintro timestamp saved count haccepted hcount rfl
    exact longest_truncated haccepted timestamp hcount

/-- One pair of the array engine. -/
def onePair : Record :=
  ⟨.array, lit "k", lit "value"⟩

/-- A file that ends behind its only record. -/
theorem load_applies_records_iff_onePair :
    ∃ result, rdbLoad LoadChance.quiet (some (headerBytes 0 ++ onePair.wire.bytes))
        Engines.create = some result ∧
      applyRecords LoadChance.quiet 0 [onePair.wire] Engines.create 0 = some result := by
  have hheaded : Headed (headerBytes 0 ++ onePair.wire.bytes) onePair.wire.bytes :=
    rdbLoadHeader_eq_some_iff.1 (rdbLoadHeader_append 0 _)
  have haccepted : onePair.Accepted := by decide
  have hends : ∀ value rest, ([] : List Byte) ≠ intBytes value ++ rest := by
    intro value rest hnil
    cases hnil
  have hstuck : Stuck Wire.bytes Wire.WellFormed [] := by
    intro record rest _
    rw [Wire.bytes, append_assoc]
    exact hends _ _
  have hlongest : Longest Wire.bytes Wire.WellFormed onePair.wire.bytes [onePair.wire] [] :=
    longest_cons_iff.2 ⟨haccepted.wellFormed, [], (append_nil _).symm,
      longest_nil_iff.2 ⟨rfl, hstuck⟩⟩
  refine ((load_applies_records_iff LoadChance.quiet_succeeds sound_create
    (headerBytes 0 ++ onePair.wire.bytes)).2.2.1 _ _ _ hheaded hlongest).2 ⟨?_, by decide⟩
  rintro ⟨tag, rest, -, -, hnil, -⟩
  exact hends tag rest hnil

/-- A saved file that is cut inside the value of its only record. -/
def cutFile : List Byte :=
  (encoding 0 [onePair]).take 32

/-- No record lies wholly inside, but the load frees the buffer of the value twice. -/
theorem cut_file_frees_twice :
    within Wire.bytes (32 - 17) [onePair.wire] = [] ∧
      applyRecords LoadChance.quiet 0 [] Engines.create 0 = some (Engines.create, 0) ∧
      (rdbLoad LoadChance.quiet (some cutFile) Engines.create).isNone := by
  refine ⟨by decide, rfl, by decide +kernel⟩

end LiteMultiKV.Persist
