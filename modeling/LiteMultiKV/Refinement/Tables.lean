import LiteMultiKV.Refinement.Engines

/-!
# Runs of the hash and array engines

The tables of the two engines in every reachable state, the hash engine as a finite map
and the array engine as a finite map with a capacity.
-/

namespace LiteMultiKV.Refinement

open List
open LiteMultiKV.Array (Item KvsArray firstSlot kvsArraySize)
open CText Dictionary Families
open LiteMultiKV.Hash (Ascii KvsHash bucket maxTableSize signedChar)
open Memory Run

/-! ## The hash engine -/

/-- A 7-bit key of at most 1 MiB. -/
def ShortAscii (key : CStr) : Prop :=
  Ascii key ∧ strlen key ≤ 2 ^ 20

instance (key : CStr) : Decidable (ShortAscii key) :=
  inferInstanceAs (Decidable ((∀ byte ∈ key.bytes, byte.toNat < 128) ∧ strlen key ≤ 2 ^ 20))

/-- Every node sits in the bucket that `_hash` gives for its key, no bucket holds a key
twice, and `count` is the number of nodes. -/
structure HashBuckets (hash : KvsHash) : Prop where
  slots : hash.maxSlots = maxTableSize
  placed : ∀ index, ∀ node ∈ hash.nodes index,
    index < hash.maxSlots ∧ Hash.hash node.1 hash.maxSlots = index
  once : ∀ index, (hash.nodes index).NodupKeys
  count : hash.count = ((List.range hash.maxSlots).map fun index =>
    (hash.nodes index).length).sum

theorem bucket_eq_some_iff {key : CStr} {index : ℕ} :
    bucket key = some index ↔ Hash.hash key maxTableSize = index := by
  simp only [bucket]
  split
  next hsign =>
    rw [Option.some.injEq]
    omega
  next hsign =>
    constructor
    · intro hnone
      cases hnone
    · intro heq
      omega

/-- The sum in `_hash` stays an `int`. -/
theorem sum_signedChar_lt {key : CStr} (hkey : ShortAscii key) :
    (key.bytes.map signedChar).sum < 2 ^ 31 := by
  obtain ⟨hascii, hlength⟩ := hkey
  have hbound : ∀ code ∈ key.bytes.map signedChar, code ≤ 127 := by
    intro code hcode
    obtain ⟨byte, hbyte, rfl⟩ := mem_map.1 hcode
    have hlow := hascii byte hbyte
    rw [signedChar, if_pos hlow]
    omega
  have hsum := sum_le_card_nsmul _ (127 : ℤ) hbound
  rw [length_map, nsmul_eq_mul] at hsum
  rw [strlen] at hlength
  have hcast : (key.bytes.length : ℤ) ≤ 2 ^ 20 := by exact_mod_cast hlength
  omega

theorem hashBuckets_of_valid {hash : KvsHash} (hvalid : Hash.Valid hash) :
    HashBuckets hash where
  slots := hvalid.slots_eq
  placed := by
    intro index node hnode
    have hbucket := hvalid.placed index node hnode
    rw [hvalid.slots_eq]
    exact ⟨Hash.bucket_lt hbucket, bucket_eq_some_iff.1 hbucket⟩
  once := by
    intro index
    by_cases hindex : index < hash.maxSlots
    · obtain ⟨front, back, hsplit⟩ := append_of_mem (mem_range.2 hindex)
      have hnodup := hvalid.nodup
      rw [Hash.entries, tableEntries, hsplit, flatMap_append, flatMap_cons] at hnodup
      exact hnodup.sublist ((sublist_append_left _ _).trans (sublist_append_right _ _))
    · cases hchain : hash.nodes index with
      | nil => exact nodupKeys_nil
      | cons node chain =>
          have hplaced := Hash.bucket_lt (hvalid.placed index node (by simp [hchain]))
          rw [hvalid.slots_eq] at hindex
          exact absurd hplaced hindex
  count := by
    rw [hvalid.count_eq, Hash.entries, tableEntries, length_flatMap]

/-- Every run of calls with short 7-bit keys is answered as by a finite map, and each key
of the map sits in its bucket. -/
theorem hash_refines_map (inputs : List CoinCall)
    (hkeys : ∀ input ∈ inputs, ShortAscii input.call.key) :
    (∀ input ∈ inputs, (input.call.key.bytes.map signedChar).sum < 2 ^ 31) ∧
      ∃ texts engines answers, run mapStep emptyMap inputs = some (texts, answers) ∧
        run (familyStep .hash) Engines.create inputs = some (engines, answers) ∧
        HashBuckets engines.hash ∧
        ∀ key value, texts key = some value ↔
          ∃ index : ℕ, Hash.hash key maxTableSize = index ∧
            entry key (.text value) ∈ engines.hash.nodes index := by
  refine ⟨fun input hinput => sum_signedChar_lt (hkeys input hinput), ?_⟩
  obtain ⟨texts, engines, answers, hmap, hrun, hsound, rfl⟩ := run_refines_map .hash inputs
    (fun input hinput _ => Hash.exists_bucket_of_ascii (hkeys input hinput).1)
    (fun harray => by cases harray)
  have hvalid : Hash.Valid engines.hash := hsound.valid .hash
  refine ⟨_, engines, answers, hmap, hrun, hashBuckets_of_valid hvalid, fun key value => ?_⟩
  rw [textHeld_eq_some_iff, held, denote_eq_some_iff (hsound.nodupKeys .hash)]
  constructor
  · intro hitem
    obtain ⟨index, -, hnode⟩ := mem_flatMap.1 hitem
    exact ⟨index, bucket_eq_some_iff.1 (hvalid.placed index _ hnode), hnode⟩
  · rintro ⟨index, hindex, hnode⟩
    have hlt := Hash.bucket_lt (bucket_eq_some_iff.2 hindex)
    rw [← hvalid.slots_eq] at hlt
    exact mem_flatMap.2 ⟨index, mem_range.2 hlt, hnode⟩

/-- Two keys of one bucket, the second of which is deleted from the head of the chain. -/
def collidingKeys : List CoinCall :=
  [⟨fun _ => false, .set (lit "ab") (lit "1")⟩, ⟨fun _ => false, .set (lit "ba") (lit "2")⟩,
    ⟨fun _ => false, .del (lit "ba")⟩, ⟨fun _ => false, .get (lit "ab")⟩]

theorem hash_refines_map_collidingKeys :
    ∃ texts engines answers, run mapStep emptyMap collidingKeys = some (texts, answers) ∧
      run (familyStep .hash) Engines.create collidingKeys = some (engines, answers) ∧
      HashBuckets engines.hash := by
  have hkeys : ∀ input ∈ collidingKeys, ShortAscii input.call.key := by decide +kernel
  obtain ⟨-, texts, engines, answers, hmap, hrun, hbuckets, -⟩ :=
    hash_refines_map collidingKeys hkeys
  exact ⟨texts, engines, answers, hmap, hrun, hbuckets⟩

/-! ## The array engine -/

/-- The table and the two counters of the array engine. -/
structure ArraySlots (inst : KvsArray) : Prop where
  total_eq : inst.total =
    (List.range kvsArraySize).countP fun slot => (inst.table slot).key.isSome
  total_le : inst.total ≤ inst.idx
  idx_le : inst.idx ≤ kvsArraySize
  above : ∀ slot, inst.idx ≤ slot → inst.table slot = Item.empty
  last : inst.idx = 0 ∨ (inst.table (inst.idx - 1)).key ≠ none
  once : ∀ slot other key, (inst.table slot).key = some key →
    (inst.table other).key = some key → slot = other
  value_iff : ∀ slot, (inst.table slot).value ≠ .null ↔ (inst.table slot).key ≠ none

section Slots

variable {inst : KvsArray}

theorem length_tableEntries (table : ℕ → Item) (size : ℕ) :
    (tableEntries size fun slot => (table slot).entries).length =
      (List.range size).countP fun slot => (table slot).key.isSome := by
  rw [tableEntries]
  induction size with
  | zero => rfl
  | succ size ih =>
      rw [range_succ, flatMap_append, length_append, countP_append, ih]
      cases hkey : (table size).key <;> simp [Item.entries, hkey]

/-- A slot in use lies below `idx` and contributes its pair. -/
theorem mem_entries_of_key (hvalid : Array.Valid inst) {slot : ℕ} {key : CStr}
    (hkey : (inst.table slot).key = some key) :
    slot < inst.idx ∧ entry key (inst.table slot).value ∈ Array.entries inst := by
  have hslot : slot < inst.idx := by
    by_contra hhigh
    rw [hvalid.above slot (not_lt.1 hhigh)] at hkey
    cases hkey
  refine ⟨hslot, mem_flatMap.2 ⟨slot, mem_range.2 hslot, ?_⟩⟩
  simp [Item.entries, hkey]

theorem arraySlots_of_valid (hvalid : Array.Valid inst)
    (hreadable : Readable (Array.entries inst)) : ArraySlots inst where
  total_eq := by
    obtain ⟨spare, hspare⟩ := Nat.exists_eq_add_of_le hvalid.idx_le
    have hzero : ((List.range spare).map (inst.idx + ·)).countP
        (fun slot => (inst.table slot).key.isSome) = 0 := by
      rw [countP_eq_zero]
      intro slot hslot
      obtain ⟨offset, -, rfl⟩ := mem_map.1 hslot
      rw [hvalid.above _ (Nat.le_add_right _ _)]
      simp
    rw [hspare, range_add, countP_append, hzero, Nat.add_zero, hvalid.total_eq, Array.entries,
      length_tableEntries]
  total_le := by
    rw [hvalid.total_eq]
    exact Array.length_entries_le inst
  idx_le := hvalid.idx_le
  above := by
    intro slot hslot
    have hkey := hvalid.above slot hslot
    have hvalue := hvalid.hole slot hkey
    cases hitem : inst.table slot with
    | mk key value =>
        rw [hitem] at hkey hvalue
        rw [show key = none from hkey, show value = .null from hvalue]
        rfl
  last := hvalid.last
  once := by
    intro slot other key hslot hother
    have hnodup : ((List.range inst.idx).flatMap fun slot =>
        (inst.table slot).entries.keys).Nodup := by
      have hkeys := hvalid.nodup
      rwa [NodupKeys, Array.entries, tableEntries, keys, map_flatMap] at hkeys
    have hdisjoint := (nodup_flatMap.1 hnodup).2
    by_contra hne
    have : Std.Symm (Function.onFun List.Disjoint fun slot =>
        (inst.table slot).entries.keys) := ⟨fun _ _ happart => List.Disjoint.symm happart⟩
    have hboth := hdisjoint.forall (mem_range.2 (mem_entries_of_key hvalid hslot).1)
      (mem_range.2 (mem_entries_of_key hvalid hother).1) hne
    have hmine : key ∈ (inst.table slot).entries.keys := by simp [Item.entries, hslot]
    exact hboth hmine (by simp [Item.entries, hother])
  value_iff := by
    intro slot
    constructor
    · intro hvalue hkey
      exact hvalue (hvalid.hole slot hkey)
    · intro hkey hvalue
      obtain ⟨key, hsome⟩ := Option.ne_none_iff_exists'.1 hkey
      obtain ⟨text, htext⟩ := hreadable _ (mem_entries_of_key hvalid hsome).2
      rw [show (inst.table slot).value = .text text from htext] at hvalue
      cases hvalue

/-- While a slot is free, `kvs_array_set` finds one. -/
theorem exists_slot (hvalid : Array.Valid inst) (hroom : inst.total < kvsArraySize) :
    (∃ slot, firstSlot inst (fun item => item.key.isNone) = some slot) ∨
      inst.idx < kvsArraySize := by
  cases hfirst : firstSlot inst fun item => item.key.isNone with
  | some slot => exact .inl ⟨slot, rfl⟩
  | none =>
      right
      have hfull : (Array.entries inst).length = inst.idx := by
        apply Array.length_entries_of_full
        intro slot hslot hkey
        rw [firstSlot, find?_eq_none] at hfirst
        exact hfirst slot (mem_range.2 hslot) (by simp [hkey])
      rw [hvalid.total_eq, hfull] at hroom
      exact hroom

end Slots

open scoped Classical in
/-- A finite map with a capacity: when it is full it refuses to store a pair. -/
noncomputable def boundedStep (texts : Texts) (input : CoinCall) : Option (Texts × Answer) :=
  some (if Roomy texts input then mapCall texts input.call else (texts, .code (-1)))

theorem Related.bounded_step {texts : Texts} {engines : Engines} (input : CoinCall)
    (hrelated : Related .array texts engines) :
    ∃ after twinAfter output, boundedStep texts input = some (after, output) ∧
      familyStep .array engines input = some (twinAfter, output) ∧
      Related .array after twinAfter := by
  by_cases hroom : Roomy texts input
  · obtain ⟨after, twinAfter, output, hmap, hfamily, hafter⟩ :=
      hrelated.step input (fun hhash => by cases hhash) fun _ => hroom
    refine ⟨after, twinAfter, output, ?_, hfamily, hafter⟩
    rw [boundedStep, if_pos hroom]
    exact hmap
  · refine ⟨texts, engines, .code (-1), ?_, hrelated.step_full hroom, hrelated⟩
    rw [boundedStep, if_neg hroom]

/-- Every run of calls is answered as by a finite map with a capacity, and ends in a
table that has a slot for a new pair unless it is full. -/
theorem array_refines_bounded_map (inputs : List CoinCall) :
    ∃ texts engines answers, run boundedStep emptyMap inputs = some (texts, answers) ∧
      run (familyStep .array) Engines.create inputs = some (engines, answers) ∧
      engines.array.total = live texts ∧ ArraySlots engines.array ∧
      (engines.array.total < kvsArraySize →
        (∃ slot, firstSlot engines.array (fun item => item.key.isNone) = some slot) ∨
          engines.array.idx < kvsArraySize) := by
  have halong : Along boundedStep (fun _ _ => True) emptyMap inputs :=
    along_of_forall (fun _ _ _ => trivial) _
  obtain ⟨texts, engines, answers, hmap, hrun, hrelated⟩ :=
    run_refines (fun _ _ input hrelated _ => hrelated.bounded_step input)
      (related_create .array) halong
  have hvalid : Array.Valid engines.array := hrelated.sound.valid .array
  refine ⟨texts, engines, answers, hmap, hrun, ?_,
    arraySlots_of_valid hvalid (hrelated.sound.readable .array), exists_slot hvalid⟩
  rw [hvalid.total_eq, hrelated.live_eq]
  rfl

end LiteMultiKV.Refinement
