import Mathlib

/-!
# The textbook recency list

A cache of bounded capacity that evicts the least recently used entry is a list
of entries, the most recently used first: a hit moves an entry to the front, an
insertion puts one there and drops the last entry of a full list.  The lemmas
below justify the name: if every use of a key is stamped with the time, the
entries stand in the order of their stamps, so the one dropped is the one whose
last use lies furthest back.
-/

namespace LiteMultiKV.Recency

open List

variable {K V : Type*} [DecidableEq K]

def lookup (entries : List (K × V)) (key : K) : Option V :=
  (entries.find? fun entry => entry.1 = key).map Prod.snd

def erase (entries : List (K × V)) (key : K) : List (K × V) :=
  entries.filter fun entry => entry.1 ≠ key

/-- A hit moves the entry to the front. -/
def touch (entries : List (K × V)) (key : K) : List (K × V) :=
  match entries.find? fun entry => entry.1 = key with
  | some entry => entry :: erase entries key
  | none => entries

/-- An insertion drops the last entry of a full list. -/
def insert (capacity : ℕ) (entries : List (K × V)) (key : K) (value : V) : List (K × V) :=
  (key, value) :: if entries.length < capacity then entries else entries.dropLast

/-- The entries stand in the order of the last uses of their keys, all of them before
`now`. -/
structure Ordered (stamp : K → ℕ) (now : ℕ) (entries : List (K × V)) : Prop where
  decreasing : entries.Pairwise fun earlier later => stamp later.1 < stamp earlier.1
  past : ∀ entry ∈ entries, stamp entry.1 < now

variable {stamp : K → ℕ} {now : ℕ} {entries fewer : List (K × V)} {key : K} {value : V}

omit [DecidableEq K] in
theorem ordered_nil (stamp : K → ℕ) (now : ℕ) : Ordered stamp now ([] : List (K × V)) :=
  ⟨Pairwise.nil, fun _ hentry => absurd hentry not_mem_nil⟩

omit [DecidableEq K] in
theorem Ordered.sublist (hordered : Ordered stamp now entries) (hsublist : fewer.Sublist entries) :
    Ordered stamp now fewer :=
  ⟨hordered.decreasing.sublist hsublist,
    fun entry hentry => hordered.past entry (hsublist.subset hentry)⟩

omit [DecidableEq K] in
theorem Ordered.later (hordered : Ordered stamp now entries) {later : ℕ} (hle : now ≤ later) :
    Ordered stamp later entries :=
  ⟨hordered.decreasing, fun entry hentry => (hordered.past entry hentry).trans_le hle⟩

omit [DecidableEq K] in
theorem Ordered.nodup (hordered : Ordered stamp now entries) : (entries.map Prod.fst).Nodup := by
  rw [Nodup, pairwise_map]
  refine hordered.decreasing.imp fun hlt heq => ?_
  rw [heq] at hlt
  exact lt_irrefl _ hlt

/-- A use at the present time puts an entry in front of all others. -/
theorem Ordered.cons (hordered : Ordered stamp now entries)
    (hfresh : ∀ entry ∈ entries, entry.1 ≠ key) (value : V) :
    Ordered (Function.update stamp key now) (now + 1) ((key, value) :: entries) := by
  have hsame : ∀ entry ∈ entries, Function.update stamp key now entry.1 = stamp entry.1 :=
    fun entry hentry => Function.update_of_ne (hfresh entry hentry) _ _
  refine ⟨pairwise_cons.2 ⟨fun entry hentry => ?_, ?_⟩, fun entry hentry => ?_⟩
  · rw [hsame entry hentry, Function.update_self]
    exact hordered.past entry hentry
  · refine hordered.decreasing.imp_of_mem fun hearlier hlater hlt => ?_
    rw [hsame _ hearlier, hsame _ hlater]
    exact hlt
  · rcases mem_cons.1 hentry with rfl | hentry
    · rw [Function.update_self]
      exact Nat.lt_succ_self now
    · rw [hsame entry hentry]
      exact (hordered.past entry hentry).trans (Nat.lt_succ_self now)

theorem erase_ne {entry : K × V} (hentry : entry ∈ erase entries key) : entry.1 ≠ key := by
  simpa using (mem_filter.1 hentry).2

theorem erase_sublist : (erase entries key).Sublist entries :=
  filter_sublist

theorem lookup_eq_none : lookup entries key = none ↔ ∀ entry ∈ entries, entry.1 ≠ key := by
  simp [lookup]

theorem touch_miss (hmiss : lookup entries key = none) : touch entries key = entries := by
  have hfind : (entries.find? fun entry => entry.1 = key) = none := by
    simpa [lookup] using hmiss
  rw [touch, hfind]

theorem touch_hit (hhit : lookup entries key = some value) :
    touch entries key = (key, value) :: erase entries key := by
  obtain ⟨entry, hfind, rfl⟩ := Option.map_eq_some_iff.1 hhit
  have hkey : entry.1 = key := by simpa using find?_some hfind
  rw [touch, hfind, ← hkey]

theorem Ordered.touch (hordered : Ordered stamp now entries)
    (hhit : lookup entries key = some value) :
    Ordered (Function.update stamp key now) (now + 1) (touch entries key) := by
  rw [touch_hit hhit]
  exact (hordered.sublist erase_sublist).cons (fun _ => erase_ne) value

theorem Ordered.insert (hordered : Ordered stamp now entries)
    (hmiss : lookup entries key = none) (capacity : ℕ) (value : V) :
    Ordered (Function.update stamp key now) (now + 1) (insert capacity entries key value) := by
  have hfresh := lookup_eq_none.1 hmiss
  rw [Recency.insert]
  split
  · exact hordered.cons hfresh value
  · have hsublist := dropLast_sublist entries
    exact (hordered.sublist hsublist).cons (fun entry hentry =>
      hfresh entry (hsublist.subset hentry)) value

omit [DecidableEq K] in
/-- The last entry is the one whose key was used least recently. -/
theorem Ordered.last_least {last : K × V} (hordered : Ordered stamp now (entries ++ [last])) :
    ∀ entry ∈ entries, stamp last.1 < stamp entry.1 :=
  fun entry hentry => (pairwise_append.1 hordered.decreasing).2.2 entry hentry last mem_cons_self

omit [DecidableEq K] in
theorem length_insert_le {capacity : ℕ} (hcapacity : 0 < capacity)
    (hlength : entries.length ≤ capacity) (key : K) (value : V) :
    (insert capacity entries key value).length ≤ capacity := by
  rw [Recency.insert]
  split
  · rw [length_cons]
    omega
  · rw [length_cons, length_dropLast]
    omega

omit [DecidableEq K] in
/-- What an insertion keeps, as a number of entries from the front. -/
theorem insert_eq_take {capacity : ℕ} (hlength : entries.length ≤ capacity) (key : K)
    (value : V) :
    insert capacity entries key value = (key, value) :: entries.take (capacity - 1) := by
  rw [Recency.insert]
  split
  · rw [take_of_length_le (by omega)]
  · rw [dropLast_eq_take, show entries.length = capacity by omega]

/-- Where the key occurs once, erasing it takes out that entry. -/
theorem erase_middle {front back : List (K × V)}
    (hnodup : ((front ++ (key, value) :: back).map Prod.fst).Nodup) :
    erase (front ++ (key, value) :: back) key = front ++ back := by
  have hrest : ∀ entry ∈ front ++ back, entry.1 ≠ key := by
    intro entry hentry heq
    rw [map_append, map_cons] at hnodup
    refine (nodup_middle.1 hnodup).notMem ?_
    rw [← map_append]
    exact mem_map.2 ⟨entry, hentry, heq⟩
  have hkept : (front ++ back).filter (fun entry => entry.1 ≠ key) = front ++ back :=
    filter_eq_self.2 fun entry hentry => by simpa using hrest entry hentry
  rw [filter_append] at hkept
  rw [erase, filter_append, filter_cons_of_neg (by simp), hkept]

theorem exists_middle (hhit : lookup entries key = some value) :
    ∃ front back, entries = front ++ (key, value) :: back ∧ ∀ entry ∈ front, entry.1 ≠ key := by
  obtain ⟨entry, hfind, rfl⟩ := Option.map_eq_some_iff.1 hhit
  have hkey : entry.1 = key := by simpa using find?_some hfind
  obtain ⟨-, front, back, hsplit, hfront⟩ := find?_eq_some_iff_append.1 hfind
  exact ⟨front, back, by rw [hsplit, ← hkey], fun other hother => by
    simpa using hfront other hother⟩

theorem mem_of_lookup (hhit : lookup entries key = some value) : (key, value) ∈ entries := by
  obtain ⟨front, back, rfl, -⟩ := exists_middle hhit
  exact mem_append_right _ mem_cons_self

theorem erase_miss (hmiss : lookup entries key = none) : erase entries key = entries :=
  filter_eq_self.2 fun entry hentry => by simpa using lookup_eq_none.1 hmiss entry hentry

theorem length_touch (hordered : Ordered stamp now entries) (key : K) :
    (touch entries key).length = entries.length := by
  cases hlookup : lookup entries key with
  | none => rw [touch_miss hlookup]
  | some value =>
      obtain ⟨front, back, rfl, -⟩ := exists_middle hlookup
      rw [touch_hit hlookup, erase_middle hordered.nodup]
      simp only [length_cons, length_append]
      omega

end LiteMultiKV.Recency
