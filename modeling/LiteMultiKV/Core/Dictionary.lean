import Mathlib

/-!
# Dictionaries and their entry lists

A dictionary is a partial function from keys to values.  Concrete containers
are enumerated by an entry list whose keys are distinct; every update of such
a container replaces a short segment of that list in place.  The lemmas below
turn a splice of the entry list into a point update of the dictionary it
denotes, whatever container the list came from.
-/

namespace LiteMultiKV.Dictionary

open List

variable {K V : Type*} [DecidableEq K]

/-- Key-value pairs in the order in which a container enumerates them. -/
abbrev Entries (K V : Type*) := List (Σ _ : K, V)

abbrev entry (key : K) (value : V) : Σ _ : K, V := ⟨key, value⟩

/-- The dictionary an entry list denotes. -/
def denote (entries : Entries K V) : K → Option V :=
  fun key => dlookup key entries

/-- `after` is `before` with one occurrence of the segment `old` replaced by
`new`. -/
def Splice (old new before after : Entries K V) : Prop :=
  ∃ front back, before = front ++ old ++ back ∧ after = front ++ new ++ back

theorem denote_eq_none_iff {entries : Entries K V} {key : K} :
    denote entries key = none ↔ key ∉ entries.keys :=
  dlookup_eq_none

theorem denote_eq_some_iff {entries : Entries K V} (hnodup : entries.NodupKeys)
    {key : K} {value : V} :
    denote entries key = some value ↔ entry key value ∈ entries := by
  rw [← mem_dlookup_iff hnodup]
  rfl

theorem denote_eq_none_of_subset {fewer more : Entries K V} {key : K}
    (hsubset : fewer ⊆ more) (hnone : denote more key = none) : denote fewer key = none := by
  rw [denote_eq_none_iff] at hnone ⊢
  intro hkey
  obtain ⟨value, hitem⟩ := exists_of_mem_keys hkey
  exact hnone (mem_keys_of_mem (hsubset hitem))

/-- The domain of a dictionary is as large as the list that denotes it. -/
theorem ncard_denote {entries : Entries K V} (hnodup : entries.NodupKeys) :
    {key | denote entries key ≠ none}.ncard = entries.length := by
  have hdomain : {key | denote entries key ≠ none} = ↑entries.keys.toFinset := by
    ext key
    rw [Finset.mem_coe, mem_toFinset]
    exact denote_eq_none_iff.not_left
  rw [hdomain, Set.ncard_coe_finset, toFinset_card_of_nodup hnodup, keys, length_map]

/-- Two lists of distinct keys with the same members denote the same
dictionary. -/
theorem denote_perm {left right : Entries K V} (hnodup : left.NodupKeys)
    (hperm : left.Perm right) : denote left = denote right := by
  funext key
  exact perm_dlookup key hnodup hperm

theorem denote_cons (key : K) (value : V) (entries : Entries K V) :
    denote (entry key value :: entries) =
      Function.update (denote entries) key (some value) := by
  funext other
  by_cases hother : other = key
  · subst hother
    simp [denote]
  · rw [Function.update_of_ne hother]
    exact dlookup_cons_ne entries ⟨key, value⟩ hother

omit [DecidableEq K] in
theorem nodupKeys_middle_iff {front back : Entries K V} {item : Σ _ : K, V} :
    (front ++ [item] ++ back).NodupKeys ↔ (item :: (front ++ back)).NodupKeys := by
  rw [append_assoc, singleton_append]
  exact perm_nodupKeys perm_middle

private theorem denote_middle {front back : Entries K V} {key : K} {value : V}
    (hnodup : (front ++ [entry key value] ++ back).NodupKeys) :
    denote (front ++ [entry key value] ++ back) =
      Function.update (denote (front ++ back)) key (some value) := by
  rw [← denote_cons]
  apply denote_perm hnodup
  rw [append_assoc, singleton_append]
  exact perm_middle

/-- Inserting an entry under an absent key. -/
theorem Splice.nodupKeys_insert {before after : Entries K V} {key : K} {value : V}
    (hsplice : Splice [] [entry key value] before after) (hnodup : before.NodupKeys)
    (habsent : denote before key = none) : after.NodupKeys := by
  obtain ⟨front, back, rfl, rfl⟩ := hsplice
  rw [append_nil] at hnodup habsent
  rw [nodupKeys_middle_iff, nodupKeys_cons]
  exact ⟨denote_eq_none_iff.1 habsent, hnodup⟩

theorem Splice.denote_insert {before after : Entries K V} {key : K} {value : V}
    (hsplice : Splice [] [entry key value] before after) (hnodup : before.NodupKeys)
    (habsent : denote before key = none) :
    denote after = Function.update (denote before) key (some value) := by
  have hafter := hsplice.nodupKeys_insert hnodup habsent
  obtain ⟨front, back, rfl, rfl⟩ := hsplice
  rw [append_nil]
  exact denote_middle hafter

omit [DecidableEq K] in
/-- Replacing the value of a present key. -/
theorem Splice.nodupKeys_replace {before after : Entries K V} {key : K}
    {old new : V} (hsplice : Splice [entry key old] [entry key new] before after)
    (hnodup : before.NodupKeys) : after.NodupKeys := by
  obtain ⟨front, back, rfl, rfl⟩ := hsplice
  rw [nodupKeys_middle_iff, nodupKeys_cons] at hnodup ⊢
  exact hnodup

theorem Splice.denote_replace {before after : Entries K V} {key : K}
    {old new : V} (hsplice : Splice [entry key old] [entry key new] before after)
    (hnodup : before.NodupKeys) :
    denote after = Function.update (denote before) key (some new) := by
  have hafter := hsplice.nodupKeys_replace hnodup
  obtain ⟨front, back, rfl, rfl⟩ := hsplice
  rw [denote_middle hafter, denote_middle hnodup, Function.update_idem]

omit [DecidableEq K] in
/-- Removing the entry of a present key. -/
theorem Splice.nodupKeys_remove {before after : Entries K V} {key : K} {old : V}
    (hsplice : Splice [entry key old] [] before after)
    (hnodup : before.NodupKeys) : after.NodupKeys := by
  obtain ⟨front, back, rfl, rfl⟩ := hsplice
  rw [nodupKeys_middle_iff, nodupKeys_cons] at hnodup
  rw [append_nil]
  exact hnodup.2

theorem Splice.denote_remove {before after : Entries K V} {key : K} {old : V}
    (hsplice : Splice [entry key old] [] before after)
    (hnodup : before.NodupKeys) :
    denote after = Function.update (denote before) key none := by
  obtain ⟨front, back, rfl, rfl⟩ := hsplice
  have hcons := nodupKeys_middle_iff.1 hnodup
  rw [nodupKeys_cons] at hcons
  rw [append_nil, denote_middle hnodup, Function.update_idem]
  exact (Function.update_eq_self_iff.2 (denote_eq_none_iff.2 hcons.1).symm).symm

omit [DecidableEq K] in
theorem Splice.length_eq {old new before after : Entries K V}
    (hsplice : Splice old new before after) :
    after.length + old.length = before.length + new.length := by
  obtain ⟨front, back, rfl, rfl⟩ := hsplice
  simp only [length_append]
  omega

omit [DecidableEq K] in
/-- Every entry of the result is old or was spliced in. -/
theorem Splice.mem_after {old new before after : Entries K V}
    (hsplice : Splice old new before after) {item : Σ _ : K, V}
    (hitem : item ∈ after) : item ∈ before ∨ item ∈ new := by
  obtain ⟨front, back, rfl, rfl⟩ := hsplice
  simp only [mem_append] at hitem ⊢
  tauto

omit [DecidableEq K] in
/-- A splice inside a part of a larger enumeration is a splice of the whole. -/
theorem Splice.frame {old new before after : Entries K V}
    (hsplice : Splice old new before after) (left right : Entries K V) :
    Splice old new (left ++ before ++ right) (left ++ after ++ right) := by
  obtain ⟨front, back, rfl, rfl⟩ := hsplice
  exact ⟨left ++ front, back ++ right, by simp, by simp⟩

/-! ## Enumerations in no order -/

/-- Up to the order, `after` is `before` with what is under the key exchanged. -/
def Rekeyed (key : K) (old new : Option V) (before after : Entries K V) : Prop :=
  ∃ rest, before.Perm ((old.map (entry key)).toList ++ rest) ∧
    after.Perm ((new.map (entry key)).toList ++ rest)

private theorem denote_toList_append {key : K} {rest : Entries K V}
    (habsent : denote rest key = none) (value : Option V) :
    denote ((value.map (entry key)).toList ++ rest) =
      Function.update (denote rest) key value := by
  cases value with
  | none => exact (Function.update_eq_self_iff.2 habsent.symm).symm
  | some value => exact denote_cons key value rest

private theorem nodupKeys_toList_append {key : K} {rest : Entries K V} (hrest : rest.NodupKeys)
    (habsent : denote rest key = none) (value : Option V) :
    ((value.map (entry key)).toList ++ rest).NodupKeys := by
  cases value with
  | none => exact hrest
  | some value => exact nodupKeys_cons.2 ⟨denote_eq_none_iff.1 habsent, hrest⟩

theorem Rekeyed.spec {key : K} {old new : Option V} {before after : Entries K V}
    (hrekeyed : Rekeyed key old new before after) (hnodup : before.NodupKeys)
    (habsent : old = none → denote before key = none) :
    after.NodupKeys ∧ denote before key = old ∧
      denote after = Function.update (denote before) key new := by
  obtain ⟨rest, hbefore, hafter⟩ := hrekeyed
  have hparts : rest.NodupKeys ∧ denote rest key = none := by
    cases old with
    | none => exact ⟨(perm_nodupKeys hbefore).1 hnodup, denote_perm hnodup hbefore ▸ habsent rfl⟩
    | some value =>
        have hcons := nodupKeys_cons.1 ((perm_nodupKeys hbefore).1 hnodup)
        exact ⟨hcons.2, denote_eq_none_iff.2 hcons.1⟩
  obtain ⟨hrest, hfree⟩ := hparts
  have hnew := (perm_nodupKeys hafter).2 (nodupKeys_toList_append hrest hfree new)
  have hold : denote before = Function.update (denote rest) key old := by
    rw [denote_perm hnodup hbefore, denote_toList_append hfree]
  refine ⟨hnew, by rw [hold, Function.update_self], ?_⟩
  rw [denote_perm hnew hafter, denote_toList_append hfree, hold, Function.update_idem]

/-! ## Enumerations in key order -/

/-- Strictly ascending keys. -/
def SortedKeys [LinearOrder K] (entries : Entries K V) : Prop :=
  entries.Pairwise fun left right => left.1 < right.1

section Sorted

variable {K V : Type*} [LinearOrder K] {entries front back : Entries K V} {key : K}

theorem SortedKeys.nodupKeys (hsorted : SortedKeys entries) : entries.NodupKeys := by
  rw [nodupKeys_iff_pairwise]
  exact Pairwise.imp (fun hlt => ne_of_lt hlt) hsorted

theorem sortedKeys_append : SortedKeys (front ++ back) ↔
    SortedKeys front ∧ SortedKeys back ∧
      ∀ left ∈ front, ∀ right ∈ back, left.1 < right.1 :=
  pairwise_append

theorem sortedKeys_cons {item : Σ _ : K, V} : SortedKeys (item :: entries) ↔
    (∀ other ∈ entries, item.1 < other.1) ∧ SortedKeys entries :=
  pairwise_cons

/-- A key between two halves of an ascending list does not occur in it. -/
theorem denote_eq_none_of_between (hfront : ∀ item ∈ front, item.1 < key)
    (hback : ∀ item ∈ back, key < item.1) : denote (front ++ back) key = none := by
  rw [denote_eq_none_iff]
  intro hkey
  obtain ⟨value, hitem⟩ := exists_of_mem_keys hkey
  rcases mem_append.1 hitem with hitem | hitem
  · exact lt_irrefl _ (hfront _ hitem)
  · exact lt_irrefl _ (hback _ hitem)

theorem sortedKeys_insert (hsorted : SortedKeys (front ++ back)) (value : V)
    (hfront : ∀ item ∈ front, item.1 < key) (hback : ∀ item ∈ back, key < item.1) :
    SortedKeys (front ++ [entry key value] ++ back) := by
  rw [append_assoc, singleton_append, sortedKeys_append, sortedKeys_cons]
  obtain ⟨hleft, hright, hcross⟩ := sortedKeys_append.1 hsorted
  refine ⟨hleft, ⟨hback, hright⟩, fun item hitem other hother => ?_⟩
  rcases mem_cons.1 hother with rfl | hother
  · exact hfront item hitem
  · exact hcross item hitem other hother

/-- An entry of an ascending list separates the keys around it. -/
theorem SortedKeys.between {value : V}
    (hsorted : SortedKeys (front ++ [entry key value] ++ back)) :
    (∀ item ∈ front, item.1 < key) ∧ (∀ item ∈ back, key < item.1) ∧
      SortedKeys (front ++ back) := by
  rw [append_assoc, singleton_append, sortedKeys_append, sortedKeys_cons] at hsorted
  obtain ⟨hfront, ⟨hback, hright⟩, hcross⟩ := hsorted
  exact ⟨fun item hitem => hcross item hitem _ mem_cons_self, hback,
    sortedKeys_append.2 ⟨hfront, hright, fun item hitem other hother =>
      hcross item hitem other (mem_cons_of_mem _ hother)⟩⟩

end Sorted

/-! ## Enumerating a table of cells -/

/-- The entries of the cells `0 .. size - 1` of a table, in index order. -/
def tableEntries (size : ℕ) (cells : ℕ → Entries K V) : Entries K V :=
  (List.range size).flatMap cells

omit [DecidableEq K] in
private theorem flatMap_update_of_ne (cells : ℕ → Entries K V) {slot : ℕ}
    (new : Entries K V) {slots : List ℕ} (hslots : slot ∉ slots) :
    slots.flatMap (Function.update cells slot new) = slots.flatMap cells := by
  apply flatMap_congr
  intro other hother
  have hne : other ≠ slot := fun heq => hslots (heq ▸ hother)
  rw [Function.update_of_ne hne]

omit [DecidableEq K] in
private theorem range_split {size slot : ℕ} (hslot : slot < size) :
    ∃ front back, List.range size = front ++ slot :: back ∧
      slot ∉ front ∧ slot ∉ back := by
  obtain ⟨front, back, hrange⟩ := append_of_mem (mem_range.2 hslot)
  have hnodup : (slot :: (front ++ back)).Nodup :=
    nodup_middle.1 (hrange ▸ nodup_range)
  have hfresh := (nodup_cons.1 hnodup).1
  rw [mem_append, not_or] at hfresh
  exact ⟨front, back, hrange, hfresh.1, hfresh.2⟩

omit [DecidableEq K] in
/-- Overwriting one cell splices its entries and leaves the others alone. -/
theorem splice_update {size slot : ℕ} (hslot : slot < size)
    (cells : ℕ → Entries K V) (new : Entries K V) :
    Splice (cells slot) new (tableEntries size cells)
      (tableEntries size (Function.update cells slot new)) := by
  obtain ⟨front, back, hrange, hfront, hback⟩ := range_split hslot
  refine ⟨front.flatMap cells, back.flatMap cells, ?_, ?_⟩
  · simp [tableEntries, hrange]
  · rw [tableEntries, hrange, flatMap_append, flatMap_cons,
      flatMap_update_of_ne cells new hfront, flatMap_update_of_ne cells new hback,
      Function.update_self, append_assoc]

/-- A key that can only live in one cell is looked up in that cell. -/
theorem denote_tableEntries {size slot : ℕ} (hslot : slot < size)
    (cells : ℕ → Entries K V) {key : K}
    (hplaced : ∀ other, other ≠ slot → key ∉ (cells other).keys) :
    denote (tableEntries size cells) key = denote (cells slot) key := by
  obtain ⟨front, back, hrange, hfront, hback⟩ := range_split hslot
  have habsent : ∀ slots : List ℕ, slot ∉ slots →
      dlookup key (slots.flatMap cells) = none := by
    intro slots hslots
    induction slots with
    | nil => rfl
    | cons other slots ih =>
        rw [mem_cons, not_or] at hslots
        rw [flatMap_cons, dlookup_append, ih hslots.2,
          dlookup_eq_none.2 (hplaced other (Ne.symm hslots.1))]
        rfl
  unfold denote tableEntries
  rw [hrange, flatMap_append, flatMap_cons, dlookup_append, dlookup_append,
    habsent front hfront, habsent back hback]
  simp

end LiteMultiKV.Dictionary
