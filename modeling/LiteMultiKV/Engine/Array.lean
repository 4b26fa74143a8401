import LiteMultiKV.Engine.Memory

/-!
# The array engine

`kvs_array.c` keeps its pairs in a fixed table with two counters: `idx`, one
past the last slot in use, and `total`, the number of live pairs.  Deleted
slots stay behind as holes that later insertions fill first.  This file
translates the five operations and shows that they act on the list of live
slots as on a dictionary with a capacity.
-/

namespace LiteMultiKV.Array

open List CText Dictionary Memory

/-- `kvs_array_item_t`. -/
structure Item where
  key : Option CStr
  value : StrPtr
  deriving DecidableEq

/-- A zeroed slot, as `kvs_calloc` and deletion leave it. -/
def Item.empty : Item where
  key := none
  value := .null

def kvsArraySize : ℕ := 12000

/-- `kvs_array_t`. -/
structure KvsArray where
  table : ℕ → Item
  idx : ℕ
  total : ℕ

def kvsArrayCreate : KvsArray where
  table := fun _ => Item.empty
  idx := 0
  total := 0

/-- The comparison made at one slot: it is in use and `strcmp` finds the key. -/
def Item.holds (item : Item) (key : CStr) : Bool :=
  match item.key with
  | none => false
  | some stored => strcmp stored key = 0

/-- A `for (i = 0; i < idx; i++)` loop that stops at the first slot passing the
test. -/
def firstSlot (inst : KvsArray) (test : Item → Bool) : Option ℕ :=
  (List.range inst.idx).find? fun slot => test (inst.table slot)

def kvsArrayGet (inst : KvsArray) : Option CStr → StrPtr
  | none => .null
  | some key =>
      match firstSlot inst (Item.holds · key) with
      | none => .null
      | some slot => (inst.table slot).value

/-- Store a pair in a slot and count it. -/
def putSlot (inst : KvsArray) (slot : ℕ) (key value : CStr) : KvsArray :=
  { inst with
    table := Function.update inst.table slot ⟨some key, .text value⟩
    total := inst.total + 1 }

/-- Store a pair at `idx` and move `idx` past it. -/
def appendSlot (inst : KvsArray) (key value : CStr) : KvsArray where
  table := Function.update inst.table inst.idx ⟨some key, .text value⟩
  idx := inst.idx + 1
  total := inst.total + 1

def kvsArraySet (alloc : Alloc) (inst : KvsArray) :
    Option CStr → Option CStr → KvsArray × ℤ
  | some key, some value =>
      if kvsArraySize ≤ inst.total then (inst, -1)
      else if kvsArrayGet inst (some key) ≠ .null then (inst, 1)
      else if !alloc 0 then (inst, -2)
      else if !alloc 1 then (inst, -2)
      else
        match firstSlot inst fun item => item.key.isNone with
        | some slot => (putSlot inst slot key value, 0)
        | none =>
            if inst.idx < kvsArraySize then (appendSlot inst key value, 0)
            else (inst, -1)
  | _, _ => (inst, -1)

/-- The loop that lowers `idx` over trailing empty slots. -/
def shrink (table : ℕ → Item) : ℕ → ℕ
  | 0 => 0
  | idx + 1 => if (table idx).key = none then shrink table idx else idx + 1

def kvsArrayDel (inst : KvsArray) : Option CStr → KvsArray × ℤ
  | none => (inst, -1)
  | some key =>
      match firstSlot inst (Item.holds · key) with
      | none => (inst, 1)
      | some slot =>
          let table := Function.update inst.table slot Item.empty
          ({ table := table
             idx := shrink table inst.idx
             total := inst.total - 1 }, 0)

/-- The old value is freed before the new one is allocated, so a failed
allocation leaves the slot with a null value. -/
def kvsArrayMod (alloc : Alloc) (inst : KvsArray) :
    Option CStr → Option CStr → KvsArray × ℤ
  | some key, some value =>
      match firstSlot inst (Item.holds · key) with
      | none => (inst, 1)
      | some slot =>
          let value := if alloc 0 then StrPtr.text value else .null
          ({ inst with
             table := Function.update inst.table slot
               { inst.table slot with value := value } },
            if alloc 0 then 0 else -2)
  | _, _ => (inst, -1)

def kvsArrayExist (inst : KvsArray) : Option CStr → ℤ
  | none => -1
  | some key => if kvsArrayGet inst (some key) = .null then 1 else 0

/-! ## Live slots as an entry list -/

/-- The pair a slot contributes. -/
def Item.entries (item : Item) : Store :=
  match item.key with
  | none => []
  | some key => [entry key item.value]

/-- The live pairs, in slot order. -/
def entries (inst : KvsArray) : Store :=
  tableEntries inst.idx fun slot => (inst.table slot).entries

/-- The table invariant: `total` counts the live slots, nothing lives at or
above `idx`, the slot below `idx` is in use, a slot without a key has no value
either, and no key lives twice. -/
structure Valid (inst : KvsArray) : Prop where
  idx_le : inst.idx ≤ kvsArraySize
  total_eq : inst.total = (entries inst).length
  above : ∀ slot, inst.idx ≤ slot → (inst.table slot).key = none
  hole : ∀ slot, (inst.table slot).key = none → (inst.table slot).value = .null
  last : inst.idx = 0 ∨ (inst.table (inst.idx - 1)).key ≠ none
  nodup : (entries inst).NodupKeys

theorem create_valid : Valid kvsArrayCreate where
  idx_le := Nat.zero_le _
  total_eq := rfl
  above := fun _ _ => rfl
  hole := fun _ _ => rfl
  last := Or.inl rfl
  nodup := nodupKeys_nil

theorem holds_iff {item : Item} {key : CStr} :
    item.holds key = true ↔ item.key = some key := by
  cases hkey : item.key with
  | none => simp [Item.holds, hkey]
  | some stored => simp [Item.holds, hkey, strcmp_eq_zero_iff]

theorem Item.entries_of_holds {item : Item} {key : CStr}
    (hholds : item.holds key = true) : item.entries = [entry key item.value] := by
  simp [Item.entries, holds_iff.1 hholds]

theorem Item.entries_of_none {item : Item} (hkey : item.key = none) :
    item.entries = [] := by
  simp [Item.entries, hkey]

/-- Scanning slots for a key is looking the key up in the entry list. -/
theorem dlookup_flatMap (table : ℕ → Item) (key : CStr) (slots : List ℕ) :
    dlookup key (slots.flatMap fun slot => (table slot).entries) =
      (slots.find? fun slot => (table slot).holds key).map
        fun slot => (table slot).value := by
  induction slots with
  | nil => rfl
  | cons slot slots ih =>
      rw [flatMap_cons, dlookup_append, ih]
      cases hholds : (table slot).holds key with
      | true =>
          rw [Item.entries_of_holds hholds]
          simp [hholds]
      | false =>
          have habsent : dlookup key (table slot).entries = none := by
            rw [dlookup_eq_none]
            cases hkey : (table slot).key with
            | none => simp [Item.entries, hkey]
            | some stored =>
                have hne : key ≠ stored := by
                  rintro rfl
                  simp [holds_iff.2 hkey] at hholds
                simpa [Item.entries, hkey] using hne
          rw [habsent]
          simp [hholds]

theorem denote_entries (inst : KvsArray) (key : CStr) :
    denote (entries inst) key =
      (firstSlot inst (Item.holds · key)).map fun slot => (inst.table slot).value :=
  dlookup_flatMap inst.table key (List.range inst.idx)

theorem firstSlot_lt {inst : KvsArray} {test : Item → Bool} {slot : ℕ}
    (hslot : firstSlot inst test = some slot) :
    slot < inst.idx ∧ test (inst.table slot) = true := by
  constructor
  · exact mem_range.1 (mem_of_find?_eq_some hslot)
  · exact find?_some (p := fun slot => test (inst.table slot)) hslot

/-- Overwriting one slot splices its pair and leaves the others alone. -/
theorem entries_update {inst : KvsArray} {slot : ℕ} (hslot : slot < inst.idx)
    (item : Item) :
    Splice (inst.table slot).entries item.entries (entries inst)
      (tableEntries inst.idx fun other =>
        (Function.update inst.table slot item other).entries) := by
  have hcells : (fun other => (Function.update inst.table slot item other).entries) =
      Function.update (fun other => (inst.table other).entries) slot item.entries :=
    Function.comp_update Item.entries inst.table slot item
  rw [hcells]
  exact splice_update hslot (fun other => (inst.table other).entries) item.entries

theorem shrink_le (table : ℕ → Item) (idx : ℕ) : shrink table idx ≤ idx := by
  induction idx with
  | zero => exact Nat.le_refl 0
  | succ idx ih =>
      simp only [shrink]
      split
      · omega
      · exact Nat.le_refl _

theorem shrink_last (table : ℕ → Item) (idx : ℕ) :
    shrink table idx = 0 ∨ (table (shrink table idx - 1)).key ≠ none := by
  induction idx with
  | zero => exact Or.inl rfl
  | succ idx ih =>
      by_cases hkey : (table idx).key = none
      · simpa [shrink, hkey] using ih
      · right
        simp [shrink, hkey]

/-- Only empty slots are given up. -/
theorem shrink_empty (table : ℕ → Item) (idx : ℕ) :
    ∀ slot, shrink table idx ≤ slot → slot < idx → (table slot).key = none := by
  induction idx with
  | zero => intro slot _ hslot; omega
  | succ idx ih =>
      intro slot hshrink hslot
      by_cases hkey : (table idx).key = none
      · simp only [shrink, hkey, if_true] at hshrink
        rcases Nat.lt_succ_iff_lt_or_eq.1 hslot with hlt | rfl
        · exact ih slot hshrink hlt
        · exact hkey
      · simp only [shrink, hkey, if_false] at hshrink
        omega

theorem tableEntries_shrink (table : ℕ → Item) (idx : ℕ) :
    (tableEntries (shrink table idx) fun slot => (table slot).entries) =
      tableEntries idx fun slot => (table slot).entries := by
  induction idx with
  | zero => rfl
  | succ idx ih =>
      by_cases hkey : (table idx).key = none
      · have hsucc : (tableEntries (idx + 1) fun slot => (table slot).entries) =
            tableEntries idx fun slot => (table slot).entries := by
          simp [tableEntries, range_succ, Item.entries_of_none hkey]
        rw [hsucc]
        simpa [shrink, hkey] using ih
      · simp [shrink, hkey]

/-! ## The operations on a valid table -/

theorem get_eq (inst : KvsArray) (key : CStr) :
    kvsArrayGet inst (some key) = toPtr (denote (entries inst) key) := by
  rw [denote_entries, kvsArrayGet]
  cases firstSlot inst (Item.holds · key) <;> rfl

theorem putSlot_entries {inst : KvsArray} {slot : ℕ} (hslot : slot < inst.idx)
    (hfree : (inst.table slot).key = none) (key value : CStr) :
    Splice [] [entry key (.text value)] (entries inst)
      (entries (putSlot inst slot key value)) := by
  have hsplice := entries_update hslot ⟨some key, .text value⟩
  rw [Item.entries_of_none hfree] at hsplice
  exact hsplice

theorem appendSlot_entries (inst : KvsArray) (key value : CStr) :
    entries (appendSlot inst key value) =
      entries inst ++ [entry key (.text value)] := by
  simp only [entries, tableEntries, appendSlot, range_succ, flatMap_append, flatMap_cons,
    flatMap_nil, Function.update_self, append_nil]
  congr 1
  apply flatMap_congr
  intro slot hslot
  rw [Function.update_of_ne (by simpa using (mem_range.1 hslot).ne)]

/-- Overwriting a slot keeps keyless slots valueless. -/
theorem hole_update {table : ℕ → Item} {slot : ℕ} {item : Item}
    (htable : ∀ other, (table other).key = none → (table other).value = .null)
    (hitem : item.key = none → item.value = .null) (other : ℕ) :
    (Function.update table slot item other).key = none →
      (Function.update table slot item other).value = .null := by
  by_cases hother : other = slot
  · subst hother
    simpa using hitem
  · simpa [Function.update_of_ne hother] using htable other

/-- A slot contributes one pair at most. -/
theorem length_entries_le (inst : KvsArray) : (entries inst).length ≤ inst.idx := by
  have hone : ∀ length ∈ (List.range inst.idx).map fun slot => (inst.table slot).entries.length,
      length ≤ 1 := by
    intro length hlength
    obtain ⟨slot, -, rfl⟩ := mem_map.1 hlength
    cases hkey : (inst.table slot).key <;> simp [Item.entries, hkey]
  rw [entries, tableEntries, length_flatMap]
  simpa using sum_le_card_nsmul _ 1 hone

/-- A table without holes below `idx` has `idx` live slots. -/
theorem length_entries_of_full {inst : KvsArray}
    (hfull : ∀ slot < inst.idx, (inst.table slot).key ≠ none) :
    (entries inst).length = inst.idx := by
  have hone : ∀ slot ∈ List.range inst.idx,
      (inst.table slot).entries.length = 1 := by
    intro slot hslot
    cases hkey : (inst.table slot).key with
    | none => exact absurd hkey (hfull slot (mem_range.1 hslot))
    | some key => simp [Item.entries, hkey]
  rw [entries, tableEntries, length_flatMap, map_congr_left hone]
  simp

/-- Filling a free slot below the end keeps the table valid. -/
theorem putSlot_valid {inst : KvsArray} (hvalid : Valid inst) {slot : ℕ}
    (hslot : slot < inst.idx) (hfree : (inst.table slot).key = none) {key : CStr}
    (habsent : denote (entries inst) key = none) (value : CStr) :
    Valid (putSlot inst slot key value) := by
  have hsplice := putSlot_entries hslot hfree key value
  have hslotlast : slot ≠ inst.idx - 1 := by
    rintro rfl
    rcases hvalid.last with hzero | hused
    · omega
    · exact hused hfree
  exact
    { idx_le := hvalid.idx_le
      total_eq := by
        change inst.total + 1 = _
        rw [hvalid.total_eq]
        exact hsplice.length_eq.symm
      above := by
        intro other hother
        have hne : other ≠ slot := by
          simp only [putSlot] at hother
          omega
        simpa [putSlot, Function.update_of_ne hne] using hvalid.above other hother
      hole := hole_update hvalid.hole (fun hkey => by simp at hkey)
      last := by
        simp only [putSlot]
        rw [Function.update_of_ne hslotlast.symm]
        exact hvalid.last
      nodup := hsplice.nodupKeys_insert hvalid.nodup habsent }

theorem appendSlot_splice (inst : KvsArray) (key value : CStr) :
    Splice [] [entry key (.text value)] (entries inst)
      (entries (appendSlot inst key value)) :=
  ⟨entries inst, [], by simp, by simp [appendSlot_entries]⟩

/-- Filling the slot at the end keeps the table valid. -/
theorem appendSlot_valid {inst : KvsArray} (hvalid : Valid inst)
    (hidx : inst.idx < kvsArraySize) {key : CStr}
    (habsent : denote (entries inst) key = none) (value : CStr) :
    Valid (appendSlot inst key value) where
  idx_le := hidx
  total_eq := by
    change inst.total + 1 = _
    rw [hvalid.total_eq]
    exact (appendSlot_splice inst key value).length_eq.symm
  above := by
    intro other hother
    have hafter : inst.idx + 1 ≤ other := hother
    have hne : other ≠ inst.idx := by omega
    simpa [appendSlot, Function.update_of_ne hne] using hvalid.above other (by omega)
  hole := hole_update hvalid.hole (fun hkey => by simp at hkey)
  last := by simp [appendSlot]
  nodup := (appendSlot_splice inst key value).nodupKeys_insert hvalid.nodup habsent

/-- Inserting an absent key while the table is not full: a slot is always
found, the pair joins the entry list and the table stays valid. -/
theorem set_absent {inst : KvsArray} (hvalid : Valid inst)
    (hroom : inst.total < kvsArraySize) {key : CStr}
    (hget : kvsArrayGet inst (some key) = .null)
    (habsent : denote (entries inst) key = none) (value : CStr) :
    ∃ after, kvsArraySet allocOk inst (some key) (some value) = (after, 0) ∧
      Valid after ∧
      Splice [] [entry key (.text value)] (entries inst) (entries after) := by
  cases hslot : firstSlot inst fun item => item.key.isNone with
  | some slot =>
      obtain ⟨hlt, htest⟩ := firstSlot_lt hslot
      have hfree : (inst.table slot).key = none := by simpa using htest
      have hset : kvsArraySet allocOk inst (some key) (some value) =
          (putSlot inst slot key value, 0) := by
        simp [kvsArraySet, hget, Nat.not_le.2 hroom, hslot]
      exact ⟨putSlot inst slot key value, hset, putSlot_valid hvalid hlt hfree habsent value,
        putSlot_entries hlt hfree key value⟩
  | none =>
      have hused : ∀ slot < inst.idx, (inst.table slot).key ≠ none := by
        intro slot hlt hkey
        have htest := find?_eq_none.1 hslot slot (mem_range.2 hlt)
        simp [hkey] at htest
      have hidx : inst.idx < kvsArraySize := by
        have hcount := length_entries_of_full hused
        rw [← hcount, ← hvalid.total_eq]
        exact hroom
      have hset : kvsArraySet allocOk inst (some key) (some value) =
          (appendSlot inst key value, 0) := by
        simp [kvsArraySet, hget, Nat.not_le.2 hroom, hslot, hidx]
      exact ⟨appendSlot inst key value, hset, appendSlot_valid hvalid hidx habsent value,
        appendSlot_splice inst key value⟩

/-- Removing a present key gives up exactly its slot. -/
theorem del_present {inst : KvsArray} (hvalid : Valid inst) {key : CStr}
    {value : StrPtr} (hpresent : denote (entries inst) key = some value) :
    ∃ after, kvsArrayDel inst (some key) = (after, 0) ∧ Valid after ∧
      Splice [entry key value] [] (entries inst) (entries after) := by
  rw [denote_entries] at hpresent
  cases hslot : firstSlot inst (Item.holds · key) with
  | none => simp [hslot] at hpresent
  | some slot =>
      obtain ⟨hlt, hholds⟩ := firstSlot_lt hslot
      have hvalue : (inst.table slot).value = value := by
        simpa [hslot] using hpresent
      let table := Function.update inst.table slot Item.empty
      let after : KvsArray :=
        { table := table, idx := shrink table inst.idx, total := inst.total - 1 }
      have hsplice : Splice [entry key value] [] (entries inst) (entries after) := by
        have hupdate := entries_update hlt Item.empty
        rw [Item.entries_of_holds hholds, hvalue] at hupdate
        have hentries : entries after =
            tableEntries inst.idx fun other => (table other).entries :=
          tableEntries_shrink table inst.idx
        rw [hentries]
        exact hupdate
      have hlength := hsplice.length_eq
      refine ⟨after, by simp [kvsArrayDel, hslot, after, table], ?_, hsplice⟩
      exact
        { idx_le := (shrink_le table inst.idx).trans hvalid.idx_le
          total_eq := by
            change inst.total - 1 = _
            rw [hvalid.total_eq]
            simp only [length_singleton, length_nil] at hlength
            omega
          above := by
            intro other hother
            by_cases hidx : other < inst.idx
            · exact shrink_empty table inst.idx other hother hidx
            · have hne : other ≠ slot := by omega
              simpa [after, table, Function.update_of_ne hne] using
                hvalid.above other (Nat.not_lt.1 hidx)
          hole := hole_update hvalid.hole (fun _ => rfl)
          last := shrink_last table inst.idx
          nodup := hsplice.nodupKeys_remove hvalid.nodup }

/-- Replacing the value of a present key rewrites exactly its slot. -/
theorem mod_held {inst : KvsArray} (hvalid : Valid inst) {key : CStr} {old : StrPtr}
    (hpresent : denote (entries inst) key = some old) (alloc : Alloc) (value : CStr) :
    ∃ after, kvsArrayMod alloc inst (some key) (some value) =
        (after, if alloc 0 then 0 else -2) ∧ Valid after ∧
      Splice [entry key old] [entry key (if alloc 0 then .text value else .null)]
        (entries inst) (entries after) := by
  rw [denote_entries] at hpresent
  cases hslot : firstSlot inst (Item.holds · key) with
  | none => simp [hslot] at hpresent
  | some slot =>
      obtain ⟨hlt, hholds⟩ := firstSlot_lt hslot
      have hkey := holds_iff.1 hholds
      have hold : (inst.table slot).value = old := by
        simpa [hslot] using hpresent
      let pointer : StrPtr := if alloc 0 then .text value else .null
      let item : Item := { inst.table slot with value := pointer }
      let after : KvsArray :=
        { inst with table := Function.update inst.table slot item }
      have hitem : item.entries = [entry key pointer] := by
        simp [item, Item.entries, hkey]
      have hsplice : Splice [entry key old] [entry key pointer]
          (entries inst) (entries after) := by
        have hupdate := entries_update hlt item
        rw [Item.entries_of_holds hholds, hold, hitem] at hupdate
        exact hupdate
      have hsame : ∀ other, (after.table other).key = (inst.table other).key := by
        intro other
        by_cases hother : other = slot
        · subst hother
          simp [after, item]
        · simp [after, Function.update_of_ne hother]
      refine ⟨after, by simp [kvsArrayMod, hslot, after, item, pointer], ?_, hsplice⟩
      exact
        { idx_le := hvalid.idx_le
          total_eq := by
            change inst.total = _
            rw [hvalid.total_eq]
            simpa using hsplice.length_eq.symm
          above := fun other hother => by
            rw [hsame]
            exact hvalid.above other hother
          hole := hole_update hvalid.hole (fun hnone => by simp [item, hkey] at hnone)
          last := by
            rw [hsame]
            exact hvalid.last
          nodup := hsplice.nodupKeys_replace hvalid.nodup }

theorem del_absent {inst : KvsArray} {key : CStr}
    (habsent : denote (entries inst) key = none) :
    kvsArrayDel inst (some key) = (inst, 1) := by
  rw [denote_entries, Option.map_eq_none_iff] at habsent
  simp [kvsArrayDel, habsent]

theorem mod_absent {inst : KvsArray} {key : CStr}
    (habsent : denote (entries inst) key = none) (alloc : Alloc) (value : CStr) :
    kvsArrayMod alloc inst (some key) (some value) = (inst, 1) := by
  rw [denote_entries, Option.map_eq_none_iff] at habsent
  simp [kvsArrayMod, habsent]

/-- A full array refuses every insertion. -/
theorem set_full {inst : KvsArray} (hfull : kvsArraySize ≤ inst.total) (alloc : Alloc)
    (key value : CStr) :
    kvsArraySet alloc inst (some key) (some value) = (inst, -1) := by
  simp [kvsArraySet, hfull]

/-- A denied allocation leaves the array as it is. -/
theorem set_denied {inst : KvsArray} (hroom : inst.total < kvsArraySize) {key : CStr}
    (hget : kvsArrayGet inst (some key) = .null) {alloc : Alloc}
    (hdenied : (alloc 0 && alloc 1) = false) (value : CStr) :
    kvsArraySet alloc inst (some key) (some value) = (inst, -2) := by
  rw [Bool.and_eq_false_iff] at hdenied
  rcases hdenied with hfirst | hsecond
  · simp [kvsArraySet, Nat.not_le.2 hroom, hget, hfirst]
  · simp [kvsArraySet, Nat.not_le.2 hroom, hget, hsecond]

theorem set_present {inst : KvsArray} (hroom : inst.total < kvsArraySize) {key : CStr}
    (hget : kvsArrayGet inst (some key) ≠ .null) (alloc : Alloc) (value : CStr) :
    kvsArraySet alloc inst (some key) (some value) = (inst, 1) := by
  simp [kvsArraySet, Nat.not_le.2 hroom, hget]

end LiteMultiKV.Array
