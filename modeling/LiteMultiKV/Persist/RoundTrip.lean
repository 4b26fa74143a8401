import LiteMultiKV.Engine.Calls
import LiteMultiKV.Persist.Save

/-!
# Saving and loading

The decoder reads back what the encoder wrote: integers, strings, records and the
stream of all records.  A string is read back if it is neither empty nor longer
than the limit of `rdb_read_string`; at the first record with a string that is not,
the load stops.  Loading the accepted records into engines that hold none of their
keys gives engines that hold exactly them.
-/

namespace LiteMultiKV.Persist

open List CText Dictionary Families Files Memory Run LiteMultiKV.Skip

/-! ## Integers and strings -/

@[simp]
theorem length_intBytes (value : ℤ) : (intBytes value).length = 4 := rfl

theorem bytesInt_intBytes (value : ℤ) : bytesInt (intBytes value) = int32 value := by
  have hlow : 0 ≤ value % 2 ^ 32 := Int.emod_nonneg _ (by norm_num)
  have hhigh : value % 2 ^ 32 < 2 ^ 32 := Int.emod_lt_of_pos _ (by norm_num)
  have hbits : ((value % 2 ^ 32).toNat : ℤ) = value % 2 ^ 32 := Int.toNat_of_nonneg hlow
  have hvalue : (intBytes value).foldl (fun value byte => value * 256 + (byte.toNat : ℤ)) 0 =
      value % 2 ^ 32 := by
    simp only [intBytes, foldl_cons, foldl_nil, UInt8.toNat_ofNat']
    omega
  have hpower : (2 : ℤ) ^ 32 = ((2 ^ 32 : ℕ) : ℤ) := by norm_num
  rw [bytesInt, hvalue, int32, int32, hpower, Int.emod_bmod]

theorem readExact_append {bytes : List Byte} {count : ℕ} (hcount : bytes.length = count)
    (rest : List Byte) : readExact count (bytes ++ rest) = some (bytes, rest) := by
  subst hcount
  simp [readExact]

theorem rdbReadInt_append (value : ℤ) (rest : List Byte) :
    rdbReadInt (intBytes value ++ rest) = some (int32 value, rest) := by
  rw [rdbReadInt, readExact_append (length_intBytes value), ← bytesInt_intBytes value]
  rfl

/-- The bytes of a string in the file. -/
def stringBytes (text : CStr) : List Byte :=
  intBytes (strlen text) ++ text.bytes

/-- A string that `rdb_read_string` accepts. -/
def Storable (text : CStr) : Prop :=
  0 < strlen text ∧ strlen text ≤ maxStringLength

instance (text : CStr) : Decidable (Storable text) :=
  inferInstanceAs (Decidable (0 < strlen text ∧ strlen text ≤ maxStringLength))

/-- A length that is accepted is an `int`. -/
theorem int32_length {length : ℕ} (hlength : length ≤ maxStringLength) :
    int32 length = length := by
  simp only [maxStringLength] at hlength
  rw [int32, Int.bmod_eq_of_le] <;> omega

theorem rdbReadString_append {text : CStr} (hstorable : Storable text) (rest : List Byte) :
    rdbReadString true (stringBytes text ++ rest) = .text text rest := by
  obtain ⟨hpositive, hlength⟩ := hstorable
  have hread : readExact text.bytes.length (text.bytes ++ rest) = some (text.bytes, rest) :=
    readExact_append rfl rest
  rw [rdbReadString, stringBytes, append_assoc, rdbReadInt_append, int32_length hlength]
  simp only [Bool.not_true, Bool.false_eq_true, or_false]
  rw [if_neg (by omega), Int.toNat_natCast, strlen, hread]
  simp only [CStr.read_bytes]

/-- An empty string is refused. -/
theorem rdbReadString_empty {text : CStr} (hempty : strlen text = 0) (alloc : Bool)
    (rest : List Byte) : rdbReadString alloc (stringBytes text ++ rest) = .untouched := by
  rw [rdbReadString, stringBytes, append_assoc, rdbReadInt_append, hempty]
  simp [int32]

/-! ## Records -/

/-- The bytes of a record in the file. -/
def recordBytes (record : Record) : List Byte :=
  intBytes (engineTag record.family) ++ (stringBytes record.key ++ stringBytes record.value)

/-- A record with strings that are accepted. -/
def Record.Accepted (record : Record) : Prop :=
  Storable record.key ∧ Storable record.value

instance (record : Record) : Decidable record.Accepted :=
  inferInstanceAs (Decidable (Storable record.key ∧ Storable record.value))

/-- A record with an empty string, and no string that is too long. -/
def Record.Refused (record : Record) : Prop :=
  (strlen record.key = 0 ∨ strlen record.value = 0) ∧
    strlen record.key ≤ maxStringLength ∧ strlen record.value ≤ maxStringLength

/-- All strings of a load can be allocated. -/
structure LoadChance.Succeeds (chance : LoadChance) : Prop where
  strings_eq : ∀ i, chance.strings i = true
  sets_eq : ∀ i, (chance.sets i).alloc = allocOk

def LoadChance.quiet : LoadChance where
  strings := fun _ => true
  sets := fun _ => ⟨allocOk, fun _ => false⟩

theorem LoadChance.quiet_succeeds : LoadChance.quiet.Succeeds :=
  ⟨fun _ => rfl, fun _ => rfl⟩

variable {chance : LoadChance}

theorem int32_engineTag (family : Family) :
    int32 (engineTag family) = engineTag family := by
  cases family <;> rfl

theorem familyOfTag_engineTag (family : Family) :
    familyOfTag (engineTag family) = some family := by
  cases family <;> rfl

theorem engineTag_ne (family : Family) : engineTag family ≠ -1 := by
  cases family <;> decide

section Reading

variable {i : ℕ} {bytes rest : List Byte} {key : CStr}

theorem readRecord_text {value : CStr} {last : List Byte} (family : Family)
    (hkey : rdbReadString (chance.strings (2 * i)) bytes = .text key rest)
    (hvalue : rdbReadString (chance.strings (2 * i + 1)) rest = .text value last) :
    readRecord chance i (intBytes (engineTag family) ++ bytes) =
      .record (engineTag family) key value last := by
  rw [readRecord, rdbReadInt_append, int32_engineTag]
  simp only [if_neg (engineTag_ne family), hkey, hvalue]

theorem readRecord_untouched_key (family : Family)
    (hkey : rdbReadString (chance.strings (2 * i)) bytes = .untouched) :
    readRecord chance i (intBytes (engineTag family) ++ bytes) = .stop := by
  rw [readRecord, rdbReadInt_append, int32_engineTag]
  simp only [if_neg (engineTag_ne family), hkey]

theorem readRecord_untouched_value (family : Family)
    (hkey : rdbReadString (chance.strings (2 * i)) bytes = .text key rest)
    (hvalue : rdbReadString (chance.strings (2 * i + 1)) rest = .untouched) :
    readRecord chance i (intBytes (engineTag family) ++ bytes) = .stop := by
  rw [readRecord, rdbReadInt_append, int32_engineTag]
  simp only [if_neg (engineTag_ne family), hkey, hvalue]

end Reading

theorem readRecord_accepted (hchance : chance.Succeeds) (i : ℕ) {record : Record}
    (haccepted : record.Accepted) (rest : List Byte) :
    readRecord chance i (recordBytes record ++ rest) =
      .record (engineTag record.family) record.key record.value rest := by
  rw [recordBytes, append_assoc, append_assoc]
  apply readRecord_text
  · rw [hchance.strings_eq]
    exact rdbReadString_append haccepted.1 _
  · rw [hchance.strings_eq]
    exact rdbReadString_append haccepted.2 _

theorem readRecord_refused (hchance : chance.Succeeds) (i : ℕ) {record : Record}
    (hrefused : record.Refused) (rest : List Byte) :
    readRecord chance i (recordBytes record ++ rest) = .stop := by
  obtain ⟨hempty, hkey, hvalue⟩ := hrefused
  rw [recordBytes, append_assoc, append_assoc]
  by_cases hkeyEmpty : strlen record.key = 0
  · exact readRecord_untouched_key _ (rdbReadString_empty hkeyEmpty _ _)
  · have hstorable : Storable record.key := ⟨Nat.pos_of_ne_zero hkeyEmpty, hkey⟩
    have hread : rdbReadString (chance.strings (2 * i))
        (stringBytes record.key ++ (stringBytes record.value ++ rest)) =
          .text record.key (stringBytes record.value ++ rest) := by
      rw [hchance.strings_eq]
      exact rdbReadString_append hstorable _
    exact readRecord_untouched_value _ hread
      (rdbReadString_empty (hempty.resolve_left hkeyEmpty) _ rest)

theorem readRecord_terminator (chance : LoadChance) (i : ℕ) :
    readRecord chance i (intBytes (-1)) = .stop := by
  have hread := rdbReadInt_append (-1) []
  rw [append_nil] at hread
  rw [readRecord, hread]
  rfl

/-- The bytes of the header. -/
def headerBytes (timestamp : ℤ) : List Byte :=
  (rdbSaveHeader timestamp).flatMap WriteOp.bytes

theorem rdbLoadHeader_append (timestamp : ℤ) (rest : List Byte) :
    rdbLoadHeader (headerBytes timestamp ++ rest) = some rest := by
  have hmagic : rdbMagic.length = 5 := by decide
  have hheader : headerBytes timestamp ++ rest =
      rdbMagic ++ (intBytes rdbVersion ++ (intBytes (timestamp / 2 ^ 32) ++
        (intBytes timestamp ++ rest))) := by
    simp [headerBytes, rdbSaveHeader, rdbWriteInt]
  have hversion : int32 rdbVersion = rdbVersion := by decide
  rw [hheader, rdbLoadHeader]
  simp only [readExact_append hmagic, rdbReadInt_append, readExact_append (length_intBytes _),
    hversion, Option.bind_eq_bind, Option.bind_some, ne_eq, not_true_eq_false, if_false,
    Option.pure_def]

theorem flatMap_recordOps (records : List Record) :
    (records.flatMap recordOps).flatMap WriteOp.bytes = records.flatMap recordBytes := by
  rw [flatMap_assoc]
  apply flatMap_congr
  intro record _
  simp [recordOps, rdbWriteString, rdbWriteInt, recordBytes, stringBytes]

theorem encoding_eq (timestamp : ℤ) (records : List Record) :
    encoding timestamp records =
      headerBytes timestamp ++ (records.flatMap recordBytes ++ intBytes (-1)) := by
  rw [encoding, saveOps, flatMap_append, flatMap_append, flatMap_recordOps, append_assoc]
  simp [headerBytes]

/-! ## Loading records -/

/-- No engine is given a key twice. -/
def Distinct (records : List Record) : Prop :=
  records.Pairwise fun left right => left.family = right.family → left.key ≠ right.key

/-- The engines that have taken in the records. -/
structure Absorbed (records : List Record) (before after : Engines) : Prop where
  sound : Sound after
  added : ∀ record ∈ records, textHeld record.family after record.key = some record.value
  kept : ∀ family key, (∀ record ∈ records, record.family = family → record.key ≠ key) →
    textHeld family after key = textHeld family before key

/-- Records that can be loaded into the engines. -/
structure Loadable (records : List Record) (engines : Engines) : Prop where
  distinct : Distinct records
  absent : ∀ record ∈ records, textHeld record.family engines record.key = none
  addressable : ∀ record ∈ records, Addressable record.family record.key
  room : (entries .array engines).length + records.countP (·.family = .array) ≤ Array.kvsArraySize

/-- Taking in the first record leaves the others loadable. -/
theorem Loadable.step {record : Record} {records : List Record} {engines : Engines}
    (hloadable : Loadable (record :: records) engines) (hsound : Sound engines)
    (coins : Coins) :
    ∃ after, engineSet ⟨allocOk, coins⟩ record.family engines (some record.key)
        (some record.value) = some (after, 0) ∧
      Absorbed [record] engines after ∧ Loadable records after := by
  obtain ⟨hfresh, hdistinct⟩ := pairwise_cons.1 hloadable.distinct
  have hroom : ¬Full record.family engines := by
    rintro ⟨hfamily, hfull⟩
    have hcount := hloadable.room
    rw [hfamily] at hfull
    simp only [countP_cons, hfamily, decide_true, if_true] at hcount
    omega
  obtain ⟨after, hset, hcontained, htexts, hlength⟩ := set_new hsound
    (hloadable.addressable record mem_cons_self) hroom (hloadable.absent record mem_cons_self)
    coins record.value
  have hkept : ∀ family key, (record.family = family → record.key ≠ key) →
      textHeld family after key = textHeld family engines key := by
    intro family key hother
    by_cases hfamily : family = record.family
    · subst hfamily
      rw [htexts, Function.update_of_ne (hother rfl).symm]
    · rw [(hcontained.others family hfamily).textHeld_eq]
  refine ⟨after, hset, ⟨hcontained.sound, ?_, ?_⟩, hdistinct, ?_, ?_, ?_⟩
  · intro other hother
    obtain rfl := mem_singleton.1 hother
    rw [htexts, Function.update_self]
  · intro family key hother
    exact hkept family key (hother record mem_cons_self)
  · intro other hother
    rw [hkept other.family other.key (hfresh other hother)]
    exact hloadable.absent other (mem_cons_of_mem _ hother)
  · exact fun other hother => hloadable.addressable other (mem_cons_of_mem _ hother)
  · have hcount := hloadable.room
    by_cases hfamily : record.family = .array
    · rw [hfamily] at hlength
      simp only [countP_cons, hfamily, decide_true, if_true] at hcount
      omega
    · rw [(hcontained.others .array (Ne.symm hfamily)).entries_eq]
      simpa [countP_cons, hfamily] using hcount

theorem Loadable.front {front back : List Record} {engines : Engines}
    (hloadable : Loadable (front ++ back) engines) : Loadable front engines where
  distinct := (pairwise_append.1 hloadable.distinct).1
  absent := fun record hrecord => hloadable.absent record (mem_append_left _ hrecord)
  addressable := fun record hrecord => hloadable.addressable record (mem_append_left _ hrecord)
  room := by
    have hroom := hloadable.room
    rw [countP_append] at hroom
    omega

theorem Absorbed.cons {record : Record} {records : List Record} {before middle after : Engines}
    (hdistinct : Distinct (record :: records)) (hfirst : Absorbed [record] before middle)
    (hrest : Absorbed records middle after) : Absorbed (record :: records) before after where
  sound := hrest.sound
  added := by
    intro other hother
    rcases mem_cons.1 hother with rfl | hother
    · rw [hrest.kept other.family other.key fun later hlater hfamily =>
        ((pairwise_cons.1 hdistinct).1 later hlater hfamily.symm).symm]
      exact hfirst.added other mem_cons_self
    · exact hrest.added other hother
  kept := by
    intro family key hother
    rw [hrest.kept family key fun later hlater => hother later (mem_cons_of_mem _ hlater),
      hfirst.kept family key fun only honly => by
        obtain rfl := mem_singleton.1 honly
        exact hother only mem_cons_self]

/-- The loop takes in all accepted records at the front of a file. -/
theorem loadLoop_accepted (hchance : chance.Succeeds) (records : List Record) :
    ∀ (engines : Engines) (i : ℕ) (count : ℤ), Sound engines →
    (∀ record ∈ records, record.Accepted) → Loadable records engines →
    ∃ after, Absorbed records engines after ∧ ∀ fuel rest,
      loadLoop chance (fuel + records.length) i (records.flatMap recordBytes ++ rest) engines
          count =
        loadLoop chance fuel (i + records.length) rest after (count + records.length) := by
  induction records with
  | nil =>
      intro engines i count hsound _ _
      exact ⟨engines, ⟨hsound, by simp, fun _ _ _ => rfl⟩, fun fuel rest => by simp⟩
  | cons record records ih =>
      intro engines i count hsound haccepted hloadable
      have hsets : chance.sets i = ⟨allocOk, (chance.sets i).coins⟩ := by
        rw [← hchance.sets_eq i]
      obtain ⟨middle, hset, hfirst, hmiddle⟩ :=
        hloadable.step hsound (chance.sets i).coins
      obtain ⟨after, hrest, hloop⟩ := ih middle (i + 1) (count + 1) hfirst.sound
        (fun other hother => haccepted other (mem_cons_of_mem _ hother)) hmiddle
      refine ⟨after, hfirst.cons hloadable.distinct hrest, fun fuel rest => ?_⟩
      rw [length_cons, ← Nat.add_assoc, flatMap_cons, append_assoc, loadLoop,
        readRecord_accepted hchance i (haccepted record mem_cons_self)]
      simp only [familyOfTag_engineTag]
      rw [hsets, hset]
      simp only [Option.bind_eq_bind, Option.bind_some, hloop]
      congr 1
      · omega
      · push_cast
        omega

/-! ## The live records -/

/-- The record of a pair whose value is a text. -/
def recordAt (family : Family) (item : Σ _ : CStr, StrPtr) : Record :=
  ⟨family, item.1, (textOf item.2).getD (lit "")⟩

def recordsIn (family : Family) (engines : Engines) : List Record :=
  (entries family engines).map (recordAt family)

/-- The number of live keys over the four engines. -/
def liveCount (engines : Engines) : ℕ :=
  (entries .array engines).length + (entries .hash engines).length +
    (entries .rbtree engines).length + (entries .skip engines).length

section Live

variable {engines : Engines} {family : Family}

theorem mapM_recordOf {store : Store} (family : Family) (hreadable : Readable store) :
    store.mapM (recordOf family) = some (store.map (recordAt family)) := by
  induction store with
  | nil => rfl
  | cons item store ih =>
      obtain ⟨value, hvalue⟩ := hreadable item mem_cons_self
      have hrest := ih fun other hother => hreadable other (mem_cons_of_mem _ hother)
      simp [mapM_cons, recordOf, hvalue, hrest, recordAt, textOf]

theorem recordsOf_eq (hsound : Sound engines) (family : Family) :
    recordsOf family engines = some (recordsIn family engines) := by
  have hreadable := hsound.readable family
  rw [recordsIn, ← mapM_recordOf family hreadable, recordsOf]
  cases family with
  | array =>
      -- a readable table has no null value that the loop could skip
      have hall : (entries .array engines).filter (fun item => item.2 ≠ .null) =
          entries .array engines := by
        rw [filter_eq_self]
        intro item hitem
        obtain ⟨value, hvalue⟩ := hreadable item hitem
        simp [hvalue]
      rw [savedEntries, hall]
  | _ => rfl

theorem liveRecords_eq (hsound : Sound engines) :
    liveRecords engines =
      some (recordsIn .array engines ++ recordsIn .hash engines ++ recordsIn .rbtree engines ++
        recordsIn .skip engines) := by
  simp [liveRecords, recordsOf_eq hsound]

theorem mem_recordsIn (hsound : Sound engines) {record : Record} :
    record ∈ recordsIn family engines ↔
      record.family = family ∧ textHeld family engines record.key = some record.value := by
  rw [recordsIn, mem_map, textHeld_eq_some_iff, held,
    denote_eq_some_iff (hsound.nodupKeys family)]
  constructor
  · rintro ⟨⟨key, pointer⟩, hitem, rfl⟩
    obtain ⟨value, hvalue⟩ := hsound.readable family _ hitem
    simp only at hvalue
    subst hvalue
    exact ⟨rfl, hitem⟩
  · rintro ⟨rfl, hitem⟩
    exact ⟨_, hitem, rfl⟩

theorem distinct_recordsIn (hsound : Sound engines) (family : Family) :
    Distinct (recordsIn family engines) := by
  rw [Distinct, recordsIn, pairwise_map]
  apply (nodupKeys_iff_pairwise.1 (hsound.nodupKeys family)).imp
  intro left right hne _
  exact hne

theorem distinct_append {left right : List Record} (hleft : Distinct left)
    (hright : Distinct right)
    (hapart : ∀ first ∈ left, ∀ second ∈ right, first.family ≠ second.family) :
    Distinct (left ++ right) :=
  pairwise_append.2 ⟨hleft, hright, fun first hfirst second hsecond hsame =>
    absurd hsame (hapart first hfirst second hsecond)⟩

theorem family_of_mem {record : Record} (hrecord : record ∈ recordsIn family engines) :
    record.family = family := by
  obtain ⟨item, -, rfl⟩ := mem_map.1 hrecord
  rfl

theorem countP_recordsIn (family : Family) (engines : Engines) :
    (recordsIn family engines).countP (·.family = .array) =
      if family = .array then (entries .array engines).length else 0 := by
  split
  next heq =>
    subst heq
    rw [countP_eq_length.2, recordsIn, length_map]
    exact fun record hrecord => by simp [family_of_mem hrecord]
  next hne =>
    rw [countP_eq_zero]
    exact fun record hrecord => by simp [family_of_mem hrecord, hne]

/-- What a save walks over: every live pair once, and as many as there are live keys. -/
theorem liveRecords_spec (hsound : Sound engines) :
    ∃ records, liveRecords engines = some records ∧ records.length = liveCount engines ∧
      (∀ record, record ∈ records ↔
        textHeld record.family engines record.key = some record.value) ∧
      Loadable records Engines.create := by
  refine ⟨_, liveRecords_eq hsound, ?_, fun record => ?_, ?_, ?_, ?_, ?_⟩
  · simp [liveCount, recordsIn]
    omega
  · simp only [mem_append, mem_recordsIn hsound]
    cases hfamily : record.family <;> simp
  · have hmem : ∀ own other, own ≠ other → ∀ first ∈ recordsIn own engines,
        ∀ second ∈ recordsIn other engines, first.family ≠ second.family := by
      intro own other hne first hfirst second hsecond
      rw [family_of_mem hfirst, family_of_mem hsecond]
      exact hne
    refine distinct_append (distinct_append (distinct_append
      (distinct_recordsIn hsound .array) (distinct_recordsIn hsound .hash)
      (hmem _ _ (by decide))) (distinct_recordsIn hsound .rbtree) ?_)
      (distinct_recordsIn hsound .skip) ?_
    · intro first hfirst second hsecond
      rcases mem_append.1 hfirst with hfirst | hfirst
      · exact hmem _ _ (by decide) first hfirst second hsecond
      · exact hmem _ _ (by decide) first hfirst second hsecond
    · intro first hfirst second hsecond
      simp only [mem_append] at hfirst
      rcases hfirst with (hfirst | hfirst) | hfirst
      · exact hmem _ _ (by decide) first hfirst second hsecond
      · exact hmem _ _ (by decide) first hfirst second hsecond
      · exact hmem _ _ (by decide) first hfirst second hsecond
  · intro record _
    rw [textHeld_eq_none_iff sound_create]
    exact congrFun (congrArg denote (Families.create_entries record.family)) record.key
  · intro record hrecord
    apply hsound.addressable
    simp only [mem_append, mem_recordsIn hsound] at hrecord
    rcases hrecord with ((⟨hfamily, htext⟩ | ⟨hfamily, htext⟩) | ⟨hfamily, htext⟩) |
      ⟨hfamily, htext⟩ <;>
    · rw [hfamily, textHeld_eq_some_iff.1 htext]
      simp
  · rw [Families.create_entries]
    simpa [countP_append, countP_recordsIn] using hsound.length_array_le

end Live

/-! ## The round trip -/

theorem length_le_flatMap_recordBytes (records : List Record) :
    records.length ≤ (records.flatMap recordBytes).length := by
  induction records with
  | nil => rfl
  | cons record records ih =>
      simp only [length_cons, flatMap_cons, length_append, recordBytes, length_intBytes]
      omega

/-- Loading a file whose records start with accepted ones: they are taken in, and the
loop goes on behind them. -/
theorem rdbLoad_accepted (hchance : chance.Succeeds) (timestamp : ℤ) {front : List Record}
    (rest : List Byte) (haccepted : ∀ record ∈ front, record.Accepted)
    (hloadable : Loadable front Engines.create) :
    ∃ after fuel, Absorbed front Engines.create after ∧
      rdbLoad chance (some (headerBytes timestamp ++ (front.flatMap recordBytes ++ rest)))
          Engines.create =
        loadLoop chance (fuel + 1) front.length rest after front.length := by
  obtain ⟨after, habsorbed, hloop⟩ :=
    loadLoop_accepted hchance front Engines.create 0 0 sound_create haccepted hloadable
  have hlength := length_le_flatMap_recordBytes front
  have hfuel : (front.flatMap recordBytes ++ rest).length + 1 =
      ((front.flatMap recordBytes ++ rest).length - front.length + 1) + front.length := by
    simp only [length_append]
    omega
  refine ⟨after, (front.flatMap recordBytes ++ rest).length - front.length, habsorbed, ?_⟩
  simp only [rdbLoad, rdbLoadHeader_append]
  rw [hfuel, hloop]
  simp

/-- A file of accepted records is taken in as a whole. -/
theorem rdbLoad_encoding (hchance : chance.Succeeds) (timestamp : ℤ) {records : List Record}
    (haccepted : ∀ record ∈ records, record.Accepted)
    (hloadable : Loadable records Engines.create) :
    ∃ after, Absorbed records Engines.create after ∧
      rdbLoad chance (some (encoding timestamp records)) Engines.create =
        some (after, (records.length : ℤ)) := by
  obtain ⟨after, fuel, habsorbed, hload⟩ :=
    rdbLoad_accepted hchance timestamp (intBytes (-1)) haccepted hloadable
  refine ⟨after, habsorbed, ?_⟩
  rw [encoding_eq, hload, loadLoop, readRecord_terminator]

/-- At a refused record the load stops, and nothing behind it is taken in. -/
theorem rdbLoad_refused (hchance : chance.Succeeds) (timestamp : ℤ) {front back : List Record}
    {bad : Record} (haccepted : ∀ record ∈ front, record.Accepted) (hrefused : bad.Refused)
    (hloadable : Loadable (front ++ bad :: back) Engines.create) :
    ∃ after, Absorbed front Engines.create after ∧
      rdbLoad chance (some (encoding timestamp (front ++ bad :: back))) Engines.create =
        some (after, (front.length : ℤ)) := by
  obtain ⟨after, fuel, habsorbed, hload⟩ := rdbLoad_accepted hchance timestamp
    (recordBytes bad ++ (back.flatMap recordBytes ++ intBytes (-1))) haccepted hloadable.front
  refine ⟨after, habsorbed, ?_⟩
  rw [encoding_eq, flatMap_append, flatMap_cons, append_assoc, append_assoc, hload, loadLoop,
    readRecord_refused hchance _ hrefused]

/-- Engines that have taken in the records of others hold the same texts. -/
theorem Absorbed.textHeld_eq {records : List Record} {engines after : Engines}
    (habsorbed : Absorbed records Engines.create after)
    (hlive : ∀ record, record ∈ records ↔
      textHeld record.family engines record.key = some record.value) (family : Family) :
    textHeld family after = textHeld family engines := by
  funext key
  cases htext : textHeld family engines key with
  | some value => exact habsorbed.added ⟨family, key, value⟩ ((hlive ⟨family, key, value⟩).2 htext)
  | none =>
      have hfresh : ∀ record ∈ records, record.family = family → record.key ≠ key := by
        rintro record hrecord rfl rfl
        rw [(hlive record).1 hrecord] at htext
        cases htext
      rw [habsorbed.kept family key hfresh, textHeld_eq_none_iff sound_create]
      exact congrFun (congrArg denote (Families.create_entries family)) key

/-- A save of which every call completes writes the whole encoding. -/
theorem rdbSave_complete {engines : Engines} {records : List Record} (save : SaveChance)
    (hrecords : liveRecords engines = some records) (filename : CStr) (disk : Disk)
    (hopen : 0 ≤ save.results 0)
    (hwrites : Whole save.results 1 (saveOps save.timestamp records))
    (hrename : 0 ≤ save.results ((saveOps save.timestamp records).length + 1)) :
    ∃ after, rdbSave save engines filename disk = some (after, (records.length : ℤ)) ∧
      after.read filename = some (encoding save.timestamp records) := by
  obtain ⟨after, hrun, hread⟩ :=
    saveRun_success filename disk ⟨hopen, hwrites.passesAll, hrename⟩
  refine ⟨after, by simp [rdbSave, hrecords, startSave_ops, hrun], ?_⟩
  rw [hread, hwrites.stored_eq, encoding]

/-- Saving engines that calls have reached, with strings the decoder accepts and file
operations that complete, and loading the file into fresh engines gives engines that
hold the same texts; both report the number of live keys. -/
theorem rdb_round_trip {inputs : List EngineInput} {engines : Engines} {answers : List Answer}
    (hreached : run callStep Engines.create inputs = some (engines, answers))
    (hstorable : ∀ family key value, textHeld family engines key = some value →
      Storable key ∧ Storable value)
    (save : SaveChance) {records : List Record} (hrecords : liveRecords engines = some records)
    (hopen : 0 ≤ save.results 0)
    (hwrites : Whole save.results 1 (saveOps save.timestamp records))
    (hrename : 0 ≤ save.results ((saveOps save.timestamp records).length + 1))
    (load : LoadChance) (hload : load.Succeeds) (filename : CStr) (disk : Disk) :
    ∃ saved loaded,
      rdbSave save engines filename disk = some (saved, (liveCount engines : ℤ)) ∧
      rdbLoad load (saved.read filename) Engines.create =
        some (loaded, (liveCount engines : ℤ)) ∧
      ∀ family, textHeld family loaded = textHeld family engines := by
  have hsound := sound_of_run hreached
  obtain ⟨expected, hexpected, hcount, hlive, hloadable⟩ := liveRecords_spec hsound
  obtain rfl : expected = records := by
    rw [hrecords, Option.some.injEq] at hexpected
    exact hexpected.symm
  obtain ⟨saved, hsaved, hread⟩ :=
    rdbSave_complete save hrecords filename disk hopen hwrites hrename
  have haccepted : ∀ record ∈ expected, record.Accepted := fun record hrecord =>
    hstorable record.family record.key record.value ((hlive record).1 hrecord)
  obtain ⟨loaded, habsorbed, hloaded⟩ := rdbLoad_encoding hload save.timestamp haccepted hloadable
  rw [hcount] at hsaved hloaded
  refine ⟨saved, loaded, hsaved, by rw [hread, hloaded], fun family => ?_⟩
  exact habsorbed.textHeld_eq hlive family

/-- One pair in the skip list and one in the hash table. -/
def twoPairs : List EngineInput :=
  [⟨.skip, fun _ => true, .set (lit "k") (lit "v")⟩,
    ⟨.hash, fun _ => true, .set (lit "h") (lit "w")⟩]

/-- The records of the two pairs. -/
def twoRecords : List Record :=
  [⟨.hash, lit "h", lit "w"⟩, ⟨.skip, lit "k", lit "v"⟩]

/-- The results of a save of the two pairs in which every call completes. -/
def twoResults (i : ℕ) : ℤ :=
  [0, 5, 4, 4, 4, 4, 4, 1, 4, 1, 4, 4, 1, 4, 1, 4, 0].getD i 0

theorem rdb_round_trip_twoPairs :
    ∃ engines answers saved loaded,
      run callStep Engines.create twoPairs = some (engines, answers) ∧
      rdbSave ⟨0, twoResults⟩ engines rdbFilename Disk.empty =
        some (saved, (liveCount engines : ℤ)) ∧
      rdbLoad ⟨fun _ => true, fun _ => ⟨allocOk, fun _ => false⟩⟩ (saved.read rdbFilename)
          Engines.create = some (loaded, (liveCount engines : ℤ)) ∧
      ∀ family, textHeld family loaded = textHeld family engines := by
  have hrecords : (run callStep Engines.create twoPairs).bind (fun result =>
      liveRecords result.1) = some twoRecords := by decide +kernel
  obtain ⟨⟨engines, answers⟩, hrun, hlive⟩ := Option.bind_eq_some_iff.1 hrecords
  have hstorable : ∀ family key value, textHeld family engines key = some value →
      Storable key ∧ Storable value := by
    intro family key value htext
    obtain ⟨records, heq, -, hmem, -⟩ := liveRecords_spec (sound_of_run hrun)
    obtain rfl : twoRecords = records := Option.some.inj (hlive.symm.trans heq)
    have hrecord := (hmem ⟨family, key, value⟩).2 htext
    simp only [twoRecords, mem_cons, Record.mk.injEq, not_mem_nil, or_false] at hrecord
    rcases hrecord with ⟨-, rfl, rfl⟩ | ⟨-, rfl, rfl⟩ <;> exact ⟨by decide, by decide⟩
  obtain ⟨saved, loaded, hsave, hload, htexts⟩ := rdb_round_trip hrun hstorable
    ⟨0, twoResults⟩ hlive (by decide) (by decide) (by decide)
    ⟨fun _ => true, fun _ => ⟨allocOk, fun _ => false⟩⟩ ⟨fun _ => rfl, fun _ => rfl⟩
    rdbFilename Disk.empty
  exact ⟨engines, answers, saved, loaded, hrun, hsave, hload, htexts⟩

end LiteMultiKV.Persist
