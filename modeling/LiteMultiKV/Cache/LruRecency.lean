import LiteMultiKV.Cache.LruPointers

/-!
# The cache and the textbook recency list

Under the LRU policy the list of `kvs_cache.c`, from head to tail, is the list of
the textbook cache.  A client that watches the calls and their answers can stamp
every key with its last hit or insertion and keep the value it added last; the
list is ordered by these stamps and holds these values, so the entry that a full
cache gives up is the one used least recently.
-/

namespace LiteMultiKV.Cache.Linked

open List CText DoublyLinked Memory Numeric Recency Run

/-- The textbook cache under the same calls. -/
def recencyStep (capacity : ℕ) (entries : List (CStr × CStr)) :
    LinkedCall → Option (List (CStr × CStr) × CacheAnswer)
  | (_, .get none) => some (entries, .value none)
  | (_, .get (some key)) => some (touch entries key, .value (lookup entries key))
  | (_, .add _ key value) => some (insert capacity entries key value, .added)
  | (_, .del none) => some (entries, .code (-1))
  | (_, .del (some key)) =>
      some (erase entries key, .code (if (lookup entries key).isSome then 0 else -2))

/-- What a client notes: the time of each key's last hit or insertion and the value
added last for it. -/
structure Uses where
  clock : ℕ
  lastUse : CStr → ℕ
  lastAdded : CStr → Option CStr

def noUses : Uses where
  clock := 0
  lastUse := fun _ => 0
  lastAdded := fun _ => none

def Uses.use (uses : Uses) (key : CStr) : Uses :=
  { uses with
    clock := uses.clock + 1
    lastUse := Function.update uses.lastUse key uses.clock }

def noteUse (uses : Uses) : LinkedCall → CacheAnswer → Uses
  | (_, .get (some key)), .value (some _) => uses.use key
  | (_, .add _ key value), _ =>
      { uses.use key with lastAdded := Function.update uses.lastAdded key (some value) }
  | _, _ => uses

/-- An insertion is of a key that is not on the list, into a cell of its own. -/
def AddsFresh (linked : LinkedManager) : LinkedCall → Prop
  | (address, .add _ key _) =>
      linked.lru.heap address = none ∧ lruSearch linked.lru key = some none
  | _ => True

instance (linked : LinkedManager) (call : LinkedCall) : Decidable (AddsFresh linked call) :=
  match call with
  | (_, .get _) => isTrue trivial
  | (address, .add _ key _) => inferInstanceAs
      (Decidable (linked.lru.heap address = none ∧ lruSearch linked.lru key = some none))
  | (_, .del _) => isTrue trivial

/-- The node of an entry. -/
def nodeOf (entry : CStr × CStr) : EvictNode where
  key := some entry.1
  value := some entry.2
  accessCount := 1

/-- The cells from head to tail hold the entries. -/
def Holds (linked : LinkedManager) (entries : List (CStr × CStr)) : Prop :=
  ∃ addresses, Lined linked.lru addresses ∧
    payloads linked.lru.heap addresses = entries.map nodeOf

/-- The entries stand in the order of their last use, with the values added last. -/
structure Recalled (capacity : ℕ) (uses : Uses) (entries : List (CStr × CStr)) : Prop where
  ordered : Ordered uses.lastUse uses.clock entries
  added : ∀ entry ∈ entries, uses.lastAdded entry.1 = some entry.2
  length_le : entries.length ≤ capacity

/-- A lookup hits the keys on the list and answers with the value added last. -/
def HitsListed (linked : LinkedManager) (uses : Uses) (entries : List (CStr × CStr)) : Prop :=
  ∀ key, ∃ after, kvsCacheGet linked (some key) =
    some (after, if key ∈ entries.map Prod.fst then uses.lastAdded key else none)

/-- An insertion ends; into a full cache it evicts the entry used least recently and no
other, otherwise it evicts nothing. -/
def EvictsOldest (linked : LinkedManager) (capacity : ℕ) (uses : Uses)
    (entries : List (CStr × CStr)) : Prop :=
  ∀ address key value, AddsFresh linked (address, .add allocOk key value) →
    ∃ after, kvsCacheLruAdd allocOk address linked key value = some after ∧
      if entries.length < capacity then
        Holds after ((key, value) :: entries) ∧ after.evictionCount = linked.evictionCount
      else ∃ kept oldest, entries = kept ++ [oldest] ∧ Holds after ((key, value) :: kept) ∧
        (∀ entry ∈ kept, uses.lastUse oldest.1 < uses.lastUse entry.1) ∧
        after.evictionCount = linked.evictionCount + 1

/-! ## The textbook cache -/

section Textbook

variable {capacity : ℕ} {uses : Uses} {entries after : List (CStr × CStr)}

theorem recalled_nil (capacity : ℕ) : Recalled capacity noUses [] :=
  ⟨ordered_nil _ _, fun _ hentry => absurd hentry not_mem_nil, Nat.zero_le _⟩

theorem Recalled.touch (hrecalled : Recalled capacity uses entries) {key value : CStr}
    (hhit : lookup entries key = some value) :
    Recalled capacity (uses.use key) (Recency.touch entries key) := by
  refine ⟨hrecalled.ordered.touch hhit, fun entry hentry => ?_,
    (length_touch hrecalled.ordered key).trans_le hrecalled.length_le⟩
  rw [touch_hit hhit] at hentry
  rcases mem_cons.1 hentry with rfl | hentry
  · exact hrecalled.added _ (mem_of_lookup hhit)
  · exact hrecalled.added entry (erase_sublist.subset hentry)

theorem Recalled.insert (hrecalled : Recalled capacity uses entries) (hcapacity : 0 < capacity)
    {key : CStr} (hmiss : lookup entries key = none) (value : CStr) :
    Recalled capacity
      { uses.use key with lastAdded := Function.update uses.lastAdded key (some value) }
      (Recency.insert capacity entries key value) := by
  refine ⟨hrecalled.ordered.insert hmiss capacity value, fun entry hentry => ?_,
    length_insert_le hcapacity hrecalled.length_le key value⟩
  rw [insert_eq_take hrecalled.length_le] at hentry
  rcases mem_cons.1 hentry with rfl | hentry
  · exact Function.update_self _ _ _
  · have hkept := mem_of_mem_take hentry
    change Function.update uses.lastAdded key (some value) entry.1 = some entry.2
    rw [Function.update_of_ne (lookup_eq_none.1 hmiss entry hkept)]
    exact hrecalled.added entry hkept

theorem Recalled.erase (hrecalled : Recalled capacity uses entries) (key : CStr) :
    Recalled capacity uses (Recency.erase entries key) :=
  ⟨hrecalled.ordered.sublist erase_sublist,
    fun entry hentry => hrecalled.added entry (erase_sublist.subset hentry),
    erase_sublist.length_le.trans hrecalled.length_le⟩

theorem Recalled.lookup_eq (hrecalled : Recalled capacity uses entries) (key : CStr) :
    lookup entries key =
      if key ∈ entries.map Prod.fst then uses.lastAdded key else none := by
  cases hlookup : lookup entries key with
  | none =>
      have hmissing : key ∉ entries.map Prod.fst := by
        intro hmem
        obtain ⟨entry, hentry, hkey⟩ := mem_map.1 hmem
        exact lookup_eq_none.1 hlookup entry hentry hkey
      rw [if_neg hmissing]
  | some value =>
      have hmem := mem_of_lookup hlookup
      rw [if_pos (mem_map_of_mem hmem)]
      exact (hrecalled.added _ hmem).symm

end Textbook

/-! ## The list model against the textbook cache -/

section ListModel

variable {F : Type} {capacity : ℕ} {manager : CacheManager F} {entries : List (CStr × CStr)}

/-- The list model holds the entries. -/
structure Lists (capacity : ℕ) (manager : CacheManager F) (entries : List (CStr × CStr)) :
    Prop where
  policy_eq : manager.policy = .lru
  maxItems_eq : manager.maxItems = capacity
  maxItems_pos : 0 < manager.maxItems
  sized : manager.lru.Sized
  nodes_eq : manager.lru.nodes = entries.map nodeOf

theorem Lists.find_miss (hlists : Lists capacity manager entries) {key : CStr}
    (hmiss : lookup entries key = none) : lruFind manager.lru key = none := by
  rw [lruFind, hlists.nodes_eq, findPlace_eq_none]
  intro node hnode hkey
  obtain ⟨entry, hentry, rfl⟩ := mem_map.1 hnode
  exact lookup_eq_none.1 hmiss entry hentry (Option.some.inj hkey)

/-- The place of an entry between others. -/
def placeOf (front : List (CStr × CStr)) (entry : CStr × CStr) (back : List (CStr × CStr)) :
    Place where
  front := front.map nodeOf
  node := nodeOf entry
  back := back.map nodeOf

theorem Lists.find_hit (hlists : Lists capacity manager entries) {key value : CStr}
    (hhit : lookup entries key = some value) :
    ∃ front back, entries = front ++ (key, value) :: back ∧
      lruFind manager.lru key = some (placeOf front (key, value) back) := by
  obtain ⟨front, back, rfl, hfront⟩ := exists_middle hhit
  refine ⟨front, back, rfl, findPlace_of_first ⟨?_, rfl, fun node hnode hkey => ?_⟩⟩
  · rw [hlists.nodes_eq, map_append, map_cons]
    rfl
  · obtain ⟨entry, hentry, rfl⟩ := mem_map.1 hnode
    exact hfront entry hentry (Option.some.inj hkey)

theorem Lists.get (hlists : Lists capacity manager entries)
    (hnodup : (entries.map Prod.fst).Nodup) (key : CStr) :
    ∃ final, Cache.kvsCacheGet manager (some key) = some (final, lookup entries key) ∧
      Lists capacity final (touch entries key) := by
  have hpos := hlists.maxItems_pos.ne'
  have hpolicy := hlists.policy_eq
  cases hlookup : lookup entries key with
  | none =>
      refine ⟨countMiss manager, ?_, ?_⟩
      · simp [Cache.kvsCacheGet, hpos, hpolicy, hlists.find_miss hlookup]
      · rw [touch_miss hlookup]
        exact { hlists with }
  | some value =>
      obtain ⟨front, back, rfl, hfind⟩ := hlists.find_hit hlookup
      refine ⟨countHit { manager with
        lru := Cache.lruTouch manager.lru (placeOf front (key, value) back) }, ?_, ?_⟩
      · simp only [Cache.kvsCacheGet, hpos, hpolicy, hfind, if_false]
        rfl
      · rw [touch_hit hlookup, erase_middle hnodup]
        exact { hlists with
          sized := (hlists.sized.remove (findPlace_eq_some hfind).split).addFront _
          nodes_eq := by
            rw [map_cons, map_append]
            rfl }

theorem Lists.add (hlists : Lists capacity manager entries) (hlength : entries.length ≤ capacity)
    (key value : CStr) :
    ∃ final, Cache.kvsCacheLruAdd allocOk manager key value = some final ∧
      Lists capacity final (insert capacity entries key value) ∧
      final.evictionCount = manager.evictionCount + (entries.length - (capacity - 1)) := by
  have hmax := hlists.maxItems_eq
  refine ⟨_, kvsCacheLruAdd_take hlists.policy_eq hlists.maxItems_pos hlists.sized key value,
    ?_, ?_⟩
  · exact { hlists with
      sized := (LRUCache.Sized.of_nodes _).addFront _
      nodes_eq := by
        rw [insert_eq_take hlength, map_cons, map_take, ← hlists.nodes_eq, ← hmax]
        rfl }
  · simp only [hlists.nodes_eq, length_map, hmax]

theorem Lists.del (hlists : Lists capacity manager entries)
    (hnodup : (entries.map Prod.fst).Nodup) (key : CStr) :
    ∃ final, Cache.kvsCacheDel manager (some key) =
        some (final, if (lookup entries key).isSome then 0 else -2) ∧
      Lists capacity final (erase entries key) := by
  have hpos := hlists.maxItems_pos.ne'
  have hpolicy := hlists.policy_eq
  cases hlookup : lookup entries key with
  | none =>
      refine ⟨manager, ?_, ?_⟩
      · simp [Cache.kvsCacheDel, hpos, hpolicy, hlists.find_miss hlookup]
      · rw [erase_miss hlookup]
        exact hlists
  | some value =>
      obtain ⟨front, back, rfl, hfind⟩ := hlists.find_hit hlookup
      refine ⟨{ manager with
        lru := Cache.lruRemove manager.lru (placeOf front (key, value) back) }, ?_, ?_⟩
      · simp only [Cache.kvsCacheDel, hpos, hpolicy, hfind, if_false]
        rfl
      · rw [erase_middle hnodup]
        exact { hlists with
          sized := hlists.sized.remove (findPlace_eq_some hfind).split
          nodes_eq := by
            rw [map_append]
            rfl }

end ListModel

/-! ## The cells against the textbook cache -/

section Cells

variable {capacity : ℕ} {linked : LinkedManager} {uses : Uses} {entries : List (CStr × CStr)}

/-- The cells implement a list model that holds the entries. -/
def Realises (capacity : ℕ) (linked : LinkedManager) (entries : List (CStr × CStr)) : Prop :=
  ∃ manager : CacheManager Float32, Implements linked manager ∧ Lists capacity manager entries

theorem realises_init (hcapacity : 0 < capacity) :
    Realises capacity (kvsCacheInit capacity) [] := by
  have hmax : (Cache.kvsCacheInit Float32 capacity).maxItems = capacity := by
    simp [Cache.kvsCacheInit, hcapacity]
  have hpos : 0 < (Cache.kvsCacheInit Float32 capacity).maxItems := hcapacity.trans_eq hmax.symm
  exact ⟨Cache.kvsCacheInit Float32 capacity,
    ⟨[], rfl, rfl, hpos, rfl, rfl, rfl, rfl, lined_init, rfl, rfl⟩, ⟨rfl, hmax, hpos, rfl, rfl⟩⟩

theorem Realises.holds (hrealises : Realises capacity linked entries) : Holds linked entries := by
  obtain ⟨manager, ⟨addresses, hmodels⟩, hlists⟩ := hrealises
  exact ⟨addresses, hmodels.lined, hmodels.nodes_eq.trans hlists.nodes_eq⟩

/-- The walk over the cells misses the keys that are not among the entries. -/
theorem Realises.lookup_eq_none (hrealises : Realises capacity linked entries) {key : CStr}
    (hsearch : lruSearch linked.lru key = some none) : lookup entries key = none := by
  obtain ⟨addresses, hlined, hpayloads⟩ := hrealises.holds
  rcases lruSearch_lined hlined key with ⟨-, hfind⟩ | ⟨front, node, back, place, -, hhit, -⟩
  · rw [hpayloads, findPlace_eq_none] at hfind
    exact Recency.lookup_eq_none.2 fun entry hentry hkey =>
      hfind (nodeOf entry) (mem_map_of_mem hentry) (congrArg some hkey)
  · rw [hsearch] at hhit
    cases hhit

theorem Realises.get (hrealises : Realises capacity linked entries)
    (hrecalled : Recalled capacity uses entries) (key : CStr) :
    ∃ after, kvsCacheGet linked (some key) = some (after, lookup entries key) ∧
      Realises capacity after (touch entries key) := by
  obtain ⟨manager, himplements, hlists⟩ := hrealises
  obtain ⟨after, final, value, hget, hgetList, hafter⟩ := get_simulates himplements key
  obtain ⟨listed, hlisted, hlistsAfter⟩ := hlists.get hrecalled.ordered.nodup key
  obtain ⟨rfl, rfl⟩ : final = listed ∧ value = lookup entries key := by
    simpa [hgetList] using hlisted
  exact ⟨after, hget, final, hafter, hlistsAfter⟩

theorem Realises.add (hrealises : Realises capacity linked entries)
    (hlength : entries.length ≤ capacity) {address : ℕ} (haddress : linked.lru.heap address = none)
    (key value : CStr) :
    ∃ after, kvsCacheLruAdd allocOk address linked key value = some after ∧
      Realises capacity after (insert capacity entries key value) ∧
      after.evictionCount = linked.evictionCount + (entries.length - (capacity - 1)) := by
  obtain ⟨manager, himplements, hlists⟩ := hrealises
  obtain ⟨after, final, hadd, haddList, hafter⟩ := add_simulates himplements haddress key value
  obtain ⟨listed, hlisted, hlistsAfter, hcount⟩ := hlists.add hlength key value
  obtain rfl : final = listed := by simpa [haddList] using hlisted
  refine ⟨after, hadd, ⟨final, hafter, hlistsAfter⟩, ?_⟩
  obtain ⟨addresses, hmodels⟩ := himplements
  obtain ⟨addressesAfter, hmodelsAfter⟩ := hafter
  rw [hmodelsAfter.evictionCount_eq, hmodels.evictionCount_eq, hcount]

theorem Realises.del (hrealises : Realises capacity linked entries)
    (hrecalled : Recalled capacity uses entries) (key : CStr) :
    ∃ after, kvsCacheDel linked (some key) =
        some (after, if (lookup entries key).isSome then 0 else -2) ∧
      Realises capacity after (erase entries key) := by
  obtain ⟨manager, himplements, hlists⟩ := hrealises
  obtain ⟨after, final, code, hdel, hdelList, hafter⟩ := del_simulates himplements key
  obtain ⟨listed, hlisted, hlistsAfter⟩ := hlists.del hrecalled.ordered.nodup key
  rw [hdelList, Option.some.injEq, Prod.mk.injEq] at hlisted
  obtain ⟨rfl, rfl⟩ := hlisted
  exact ⟨after, hdel, final, hafter, hlistsAfter⟩

/-- One call, on the cells, in the textbook cache and in the notes of the client. -/
theorem Realises.step (hcapacity : 0 < capacity) (hrealises : Realises capacity linked entries)
    (hrecalled : Recalled capacity uses entries) {call : LinkedCall}
    (hfresh : AddsFresh linked call) (hmemory : call.2.HasMemory) :
    ∃ after entriesAfter answer, linkedStep linked call = some (after, answer) ∧
      recencyStep capacity entries call = some (entriesAfter, answer) ∧
      Realises capacity after entriesAfter ∧
      Recalled capacity (noteUse uses call answer) entriesAfter := by
  obtain ⟨address, call⟩ := call
  cases call with
  | get key =>
      cases key with
      | none => exact ⟨linked, entries, .value none, rfl, rfl, hrealises, hrecalled⟩
      | some key =>
          obtain ⟨after, hget, hafter⟩ := hrealises.get hrecalled key
          refine ⟨after, touch entries key, .value (lookup entries key), by simp [linkedStep, hget],
            rfl, hafter, ?_⟩
          cases hlookup : lookup entries key with
          | none => rwa [touch_miss hlookup]
          | some value => exact hrecalled.touch hlookup
  | add alloc key value =>
      obtain rfl : alloc = allocOk := hmemory
      obtain ⟨haddress, hsearch⟩ := hfresh
      obtain ⟨after, hadd, hafter, -⟩ := hrealises.add hrecalled.length_le haddress key value
      exact ⟨after, insert capacity entries key value, .added, by simp [linkedStep, hadd], rfl,
        hafter, hrecalled.insert hcapacity (hrealises.lookup_eq_none hsearch) value⟩
  | del key =>
      cases key with
      | none => exact ⟨linked, entries, .code (-1), rfl, rfl, hrealises, hrecalled⟩
      | some key =>
          obtain ⟨after, hdel, hafter⟩ := hrealises.del hrecalled key
          exact ⟨after, erase entries key, _, by rw [linkedStep, hdel]; rfl, rfl, hafter,
            hrecalled.erase key⟩

theorem Realises.hitsListed (hrealises : Realises capacity linked entries)
    (hrecalled : Recalled capacity uses entries) : HitsListed linked uses entries := by
  intro key
  obtain ⟨after, hget, -⟩ := hrealises.get hrecalled key
  exact ⟨after, hrecalled.lookup_eq key ▸ hget⟩

theorem Realises.evictsOldest (hcapacity : 0 < capacity)
    (hrealises : Realises capacity linked entries) (hrecalled : Recalled capacity uses entries) :
    EvictsOldest linked capacity uses entries := by
  rintro address key value ⟨haddress, -⟩
  have hlength := hrecalled.length_le
  obtain ⟨after, hadd, hafter, hcount⟩ := hrealises.add hlength haddress key value
  refine ⟨after, hadd, ?_⟩
  have hholds := hafter.holds
  split
  case isTrue hroom =>
      rw [Recency.insert, if_pos hroom] at hholds
      exact ⟨hholds, by omega⟩
  case isFalse hfull =>
      rw [Recency.insert, if_neg hfull] at hholds
      rcases eq_nil_or_concat' entries with rfl | ⟨kept, oldest, rfl⟩
      · exact absurd hcapacity hfull
      · rw [dropLast_concat] at hholds
        rw [length_append, length_singleton] at hcount hlength hfull
        exact ⟨kept, oldest, rfl, hholds, hrecalled.ordered.last_least, by omega⟩

end Cells

/-- The recency cache refines the textbook one: in every run it answers like it, its list
from head to tail is ordered by last use, lookups hit what is listed, and insertions evict
the entry used least recently and only from a full cache. -/
theorem lru_refines_textbook (maxItems : ℕ) (hmax : 0 < maxItems) (calls : List LinkedCall)
    (hfresh : Along linkedStep AddsFresh (kvsCacheInit maxItems) calls)
    (hmemory : ∀ call ∈ calls, call.2.HasMemory) :
    ∃ final entries answers, run linkedStep (kvsCacheInit maxItems) calls = some (final, answers) ∧
      run (recencyStep maxItems) [] calls = some (entries, answers) ∧
      Holds final entries ∧ Recalled maxItems (observed noteUse noUses calls answers) entries ∧
      HitsListed final (observed noteUse noUses calls answers) entries ∧
      EvictsOldest final maxItems (observed noteUse noUses calls answers) entries := by
  obtain ⟨final, entries, answers, hrun, htextbook, hrealises, hrecalled⟩ :=
    run_refines_observed noteUse
      (fun linked entries uses => Realises maxItems linked entries ∧ Recalled maxItems uses entries)
      (fun linked entries uses call hrelated hcondition =>
        hrelated.1.step hmax hrelated.2 hcondition.1 hcondition.2)
      noUses ⟨realises_init hmax, recalled_nil maxItems⟩ (hfresh.and_forall hmemory)
  exact ⟨final, entries, answers, hrun, htextbook, hrealises.holds, hrecalled,
    hrealises.hitsListed hrecalled, hrealises.evictsOldest hmax hrecalled⟩

/-- Hits at both ends, an eviction and a deletion between them, with a cell used again. -/
def twoPlaceRun : List LinkedCall :=
  [(0, .get (some (lit "a"))), (7, .add allocOk (lit "a") (lit "1")),
    (3, .add allocOk (lit "b") (lit "2")), (0, .get (some (lit "a"))),
    (5, .add allocOk (lit "c") (lit "3")), (0, .get (some (lit "b"))),
    (0, .del (some (lit "a"))), (7, .add allocOk (lit "b") (lit "4"))]

theorem lru_refines_textbook_twoPlaceRun :
    ∃ final answers, run linkedStep (kvsCacheInit (2 : ℕ)) twoPlaceRun = some (final, answers) ∧
      Holds final [(lit "b", lit "4"), (lit "c", lit "3")] := by
  obtain ⟨final, entries, answers, hrun, htextbook, hholds, -⟩ := lru_refines_textbook 2
    (by decide) twoPlaceRun (by decide +kernel) (by simp [twoPlaceRun, CacheCall.HasMemory])
  have hlisted : (run (recencyStep 2) [] twoPlaceRun).map Prod.fst =
      some [(lit "b", lit "4"), (lit "c", lit "3")] := by decide +kernel
  rw [htextbook] at hlisted
  obtain rfl := Option.some.inj hlisted
  exact ⟨final, answers, hrun, hholds⟩

end LiteMultiKV.Cache.Linked
