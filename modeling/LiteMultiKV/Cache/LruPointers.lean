import LiteMultiKV.Cache.Manager
import LiteMultiKV.Core.DoublyLinked
import LiteMultiKV.Core.Recency
import LiteMultiKV.Core.Run

/-!
# The recency list as linked cells

`kvs_cache.c` keeps the order of use by rewriting the `prev` and `next` fields of
its nodes and the two ends of the list, next to a size field that drives the
eviction loop.  This file follows these writes on a heap of cells.  It shows that
they do to the addresses what the list model says, so that a run on the heap
answers like a run of the list model, and that both answer like the textbook
recency list.
-/

namespace LiteMultiKV.Cache.Linked

open List CText DoublyLinked Memory Numeric Run

/-- `LRUCache` with the cells its nodes are in. -/
structure LinkedLRU where
  heap : Heap ℕ EvictNode
  head : Option ℕ
  tail : Option ℕ
  size : ℤ

def lruInit : LinkedLRU where
  heap := fun _ => none
  head := none
  tail := none
  size := 0

/-- The first `if` of `lru_remove`: the node before, or the head, points past it. -/
def redirectNext (cache : LinkedLRU) (prev next : Option ℕ) : Option LinkedLRU :=
  match prev with
  | some prev => (setNext cache.heap prev next).map fun heap => { cache with heap := heap }
  | none => some { cache with head := next }

/-- The second `if` of `lru_remove`: the node behind, or the tail, points past it. -/
def redirectPrev (cache : LinkedLRU) (prev next : Option ℕ) : Option LinkedLRU :=
  match next with
  | some next => (setPrev cache.heap next prev).map fun heap => { cache with heap := heap }
  | none => some { cache with tail := prev }

def lruRemove (cache : LinkedLRU) (node : ℕ) : Option LinkedLRU := do
  let cell ← cache.heap node
  let cache ← redirectNext cache cell.prev cell.next
  let cell ← cache.heap node
  let cache ← redirectPrev cache cell.prev cell.next
  return { cache with size := cache.size - 1 }

def lruAddFront (cache : LinkedLRU) (node : ℕ) : Option LinkedLRU := do
  let heap ← setNext cache.heap node cache.head
  let heap ← setPrev heap node none
  let heap ← match cache.head with
    | some head => setPrev heap head (some node)
    | none => some heap
  return { heap := heap
           head := some node
           tail := match cache.tail with
             | some tail => some tail
             | none => some node
           size := cache.size + 1 }

def lruTouch (cache : LinkedLRU) (node : ℕ) : Option LinkedLRU := do
  let cache ← lruRemove cache node
  lruAddFront cache node

def lruEvict (cache : LinkedLRU) : Option (LinkedLRU × Option ℕ) :=
  match cache.tail with
  | none => some (cache, none)
  | some victim => (lruRemove cache victim).map fun cache => (cache, some victim)

/-- The copy of `lru_remove` that the lists of the ARC policy use. -/
def lruRemoveNode (cache : LinkedLRU) (node : ℕ) : Option LinkedLRU :=
  lruRemove cache node

/-- The copy of `lru_add_front` that the lists of the ARC policy use. -/
def lruAddNodeFront (cache : LinkedLRU) (node : ℕ) : Option LinkedLRU :=
  lruAddFront cache node

/-- The loops over the list look for a node with the key; the size bounds their
rounds. -/
def lruSearch (cache : LinkedLRU) (key : CStr) : Option (Option ℕ) :=
  search cache.heap (EvictNode.hasKey key) (cache.size.toNat + 1) cache.head

/-- `CacheManager` under the LRU policy. -/
structure LinkedManager where
  lru : LinkedLRU
  maxItems : ℕ
  totalAccess : ℕ
  cacheHit : ℕ
  cacheMiss : ℕ
  evictionCount : ℕ

def kvsCacheInit (maxItems : ℤ) : LinkedManager where
  lru := lruInit
  maxItems := if 0 < maxItems then maxItems.toNat else defaultMaxItems
  totalAccess := 0
  cacheHit := 0
  cacheMiss := 0
  evictionCount := 0

def kvsCacheLruEvictKey (cache : LinkedManager) : Option (LinkedManager × Option CStr) := do
  let (lru, victim) ← lruEvict cache.lru
  match victim with
  | none => return (cache, none)
  | some node =>
      let cell ← lru.heap node
      return ({ cache with
        lru := { lru with heap := release lru.heap node }
        evictionCount := cache.evictionCount + 1 }, cell.payload.key)

/-- The eviction loop of `kvs_cache_lru_add`. -/
def makeRoom : ℕ → LinkedManager → Option LinkedManager
  | 0, _ => none
  | fuel + 1, cache =>
      if (cache.maxItems : ℤ) ≤ cache.lru.size then do
        let (cache, _) ← kvsCacheLruEvictKey cache
        makeRoom fuel cache
      else some cache

/-- The cell that `kvs_malloc` returns for the new node. -/
def newNode (heap : Heap ℕ EvictNode) (address : ℕ) (key value : CStr) : Heap ℕ EvictNode :=
  Function.update heap address
    (some
      { payload := { key := some key, value := some value, accessCount := 1 }
        prev := none
        next := none })

def kvsCacheLruAdd (alloc : Alloc) (address : ℕ) (cache : LinkedManager) (key value : CStr) :
    Option LinkedManager :=
  if alloc 0 && alloc 1 && alloc 2 then do
    let lru := { cache.lru with heap := newNode cache.lru.heap address key value }
    let cache ← makeRoom (cache.lru.size.toNat + 1) { cache with lru := lru }
    let lru ← lruAddFront cache.lru address
    return { cache with lru := lru }
  else none

def kvsCacheGet (cache : LinkedManager) : Option CStr → Option (LinkedManager × Option CStr)
  | none => some (cache, none)
  | some key =>
      if cache.maxItems = 0 then some (cache, none)
      else do
        match ← lruSearch cache.lru key with
        | some node =>
            let lru ← lruTouch cache.lru node
            let cell ← lru.heap node
            return ({ cache with
              lru := lru
              cacheHit := cache.cacheHit + 1
              totalAccess := cache.totalAccess + 1 }, cell.payload.value)
        | none =>
            return ({ cache with
              cacheMiss := cache.cacheMiss + 1
              totalAccess := cache.totalAccess + 1 }, none)

def kvsCacheDel (cache : LinkedManager) : Option CStr → Option (LinkedManager × ℤ)
  | none => some (cache, -1)
  | some key =>
      if cache.maxItems = 0 then some (cache, -1)
      else do
        match ← lruSearch cache.lru key with
        | some node =>
            let lru ← lruRemove cache.lru node
            return ({ cache with lru := { lru with heap := release lru.heap node } }, 0)
        | none => return (cache, -2)

/-- A call, with the address that `kvs_malloc` returns if it asks for a node. -/
abbrev LinkedCall := ℕ × CacheCall

def linkedStep (cache : LinkedManager) : LinkedCall → Option (LinkedManager × CacheAnswer)
  | (_, .get key) => (kvsCacheGet cache key).map fun result => (result.1, .value result.2)
  | (address, .add alloc key value) =>
      (kvsCacheLruAdd alloc address cache key value).map fun after => (after, .added)
  | (_, .del key) => (kvsCacheDel cache key).map fun result => (result.1, .code result.2)

/-! ## The writes -/

/-- The nodes of the list are at the addresses, from head to tail. -/
structure Lined (cache : LinkedLRU) (addresses : List ℕ) : Prop where
  threaded : Threaded cache.heap none addresses none
  nodup : addresses.Nodup
  head_eq : cache.head = addresses.head?
  tail_eq : cache.tail = addresses.getLast?
  size_eq : cache.size = addresses.length

theorem lined_init : Lined lruInit [] :=
  ⟨trivial, nodup_nil, rfl, rfl, rfl⟩

/-- The list has become the one at the addresses by writes to the links of its own
cells. -/
structure Relinked (cache after : LinkedLRU) (addresses : List ℕ) : Prop where
  lined : Lined after addresses
  payloads : SamePayloads cache.heap after.heap
  outside : ∀ other, other ∉ addresses → after.heap other = cache.heap other

variable {cache : LinkedLRU} {addresses front back : List ℕ} {node : ℕ}

theorem redirectNext_spec {after : Option ℕ} (hfront : Threaded cache.heap none front after)
    (hnodup : front.Nodup) (target : Option ℕ) (hhead : front ≠ [] → cache.head = front.head?) :
    ∃ changed, redirectNext cache front.getLast? target = some changed ∧
      Threaded changed.heap none front target ∧ SamePayloads cache.heap changed.heap ∧
      (∀ other, other ∉ front → changed.heap other = cache.heap other) ∧
      changed.head = front.head?.or target ∧ changed.tail = cache.tail ∧
      changed.size = cache.size := by
  rcases eq_nil_or_concat' front with rfl | ⟨front, last, rfl⟩
  · exact ⟨{ cache with head := target }, rfl, trivial, fun _ => rfl, fun _ _ => rfl, rfl, rfl, rfl⟩
  · obtain ⟨heap, hset, hthreaded, hsame, helse⟩ := hfront.setNext_last hnodup target
    have hsome : (front ++ [last]).head?.or target = (front ++ [last]).head? := by
      cases front <;> rfl
    refine ⟨{ cache with heap := heap }, ?_, hthreaded, hsame, fun other hother => ?_, ?_, rfl, rfl⟩
    · rw [getLast?_concat]
      simp [redirectNext, hset]
    · refine helse other ?_
      rintro rfl
      exact hother mem_concat_self
    · rw [hsome]
      exact hhead (by simp)

theorem redirectPrev_spec {before : Option ℕ} (hback : Threaded cache.heap before back none)
    (hnodup : back.Nodup) (target : Option ℕ) (htail : back ≠ [] → cache.tail = back.getLast?) :
    ∃ changed, redirectPrev cache target back.head? = some changed ∧
      Threaded changed.heap target back none ∧ SamePayloads cache.heap changed.heap ∧
      (∀ other, other ∉ back → changed.heap other = cache.heap other) ∧
      changed.head = cache.head ∧ changed.tail = back.getLast?.or target ∧
      changed.size = cache.size := by
  cases back with
  | nil =>
      exact ⟨{ cache with tail := target }, rfl, trivial, fun _ => rfl, fun _ _ => rfl, rfl, rfl,
        rfl⟩
  | cons first back =>
      obtain ⟨heap, hset, hthreaded, hsame, helse⟩ := hback.setPrev_first hnodup target
      refine ⟨{ cache with heap := heap }, by simp [redirectPrev, hset], hthreaded, hsame,
        fun other hother => ?_, rfl, ?_, rfl⟩
      · refine helse other ?_
        rintro rfl
        exact hother mem_cons_self
      · have hsome : (first :: back).getLast?.or target = (first :: back).getLast? := by
          rw [getLast?_cons]
          rfl
        rw [hsome]
        exact htail (by simp)

/-- Taking a node out, wherever it is. -/
theorem lruRemove_lined (hlined : Lined cache (front ++ node :: back)) :
    ∃ after, lruRemove cache node = some after ∧ Relinked cache after (front ++ back) := by
  obtain ⟨hthreaded, hnodup, hhead, htail, hsize⟩ := hlined
  obtain ⟨hfront, ⟨payload, hcell⟩, hback⟩ := threaded_append.1 hthreaded
  obtain ⟨hnotmem, hrest⟩ := nodup_cons.1 (nodup_middle.1 hnodup)
  obtain ⟨hfrontNodup, hbackNodup, hdisjoint⟩ := nodup_append.1 hrest
  simp only [Option.or_none] at hcell
  obtain ⟨middle, hmiddle, hfrontMiddle, hsameMiddle, helseMiddle, hheadMiddle, htailMiddle,
    hsizeMiddle⟩ := redirectNext_spec hfront hfrontNodup back.head? fun hsome => by
      rw [hhead]
      cases front with
      | nil => exact absurd rfl hsome
      | cons first front => rfl
  have hcellMiddle := (helseMiddle node fun hmem => hnotmem (mem_append_left _ hmem)).trans hcell
  have hbackMiddle : Threaded middle.heap (some node) back none :=
    hback.congr fun other hother => helseMiddle other fun hmem =>
      hdisjoint other hmem other hother rfl
  obtain ⟨last, hlast, hbackLast, hsameLast, helseLast, hheadLast, htailLast, hsizeLast⟩ :=
    redirectPrev_spec hbackMiddle hbackNodup front.getLast? fun hsome => by
      rw [htailMiddle, htail]
      cases back with
      | nil => exact absurd rfl hsome
      | cons first back =>
          rw [getLast?_append, getLast?_cons_cons, getLast?_cons]
          rfl
  refine ⟨{ last with size := last.size - 1 }, by simp [lruRemove, hcell, hmiddle, hcellMiddle,
    hlast], ⟨threaded_append.2 ⟨?_, ?_⟩, hrest, ?_, ?_, ?_⟩, hsameMiddle.trans hsameLast,
    fun other hother => ?_⟩
  · simp only [Option.or_none]
    exact hfrontMiddle.congr fun other hother => helseLast other fun hmem =>
      hdisjoint other hother other hmem rfl
  · simpa only [Option.or_none] using hbackLast
  · rw [head?_append]
    exact hheadLast.trans hheadMiddle
  · rw [getLast?_append]
    exact htailLast
  · simp only [hsizeLast, hsizeMiddle, hsize, length_append, length_cons]
    omega
  · rw [mem_append, not_or] at hother
    exact (helseLast other hother.2).trans (helseMiddle other hother.1)

/-- Putting a node in front of the list it is not in. -/
theorem lruAddFront_lined (hlined : Lined cache addresses) (hfresh : node ∉ addresses)
    {cell : Cell ℕ EvictNode} (hcell : cache.heap node = some cell) :
    ∃ after, lruAddFront cache node = some after ∧ Relinked cache after (node :: addresses) := by
  obtain ⟨hthreaded, hnodup, hhead, htail, hsize⟩ := hlined
  let fresh : Heap ℕ EvictNode := Function.update cache.heap node
    (some { payload := cell.payload, prev := none, next := cache.head })
  have helse : ∀ other, other ≠ node → fresh other = cache.heap other :=
    fun other hother => Function.update_of_ne hother _ _
  have hown : fresh node = some { payload := cell.payload, prev := none, next := cache.head } :=
    Function.update_self node _ _
  have hset : (setNext cache.heap node cache.head).bind (fun heap => setPrev heap node none) =
      some fresh := by
    simp [setNext, setPrev, hcell, fresh]
  have hsameFresh : SamePayloads cache.heap fresh := samePayloads_update hcell none cache.head
  have hlist : Threaded fresh none addresses none := hthreaded.update hfresh _
  have hnodupAfter : (node :: addresses).Nodup := nodup_cons.2 ⟨hfresh, hnodup⟩
  have hsizeAfter : cache.size + 1 = ((node :: addresses).length : ℤ) := by
    rw [hsize, length_cons, Nat.cast_succ]
  rw [← Option.bind_eq_bind] at hset
  cases addresses with
  | nil =>
      refine ⟨{ heap := fresh, head := some node, tail := some node, size := cache.size + 1 }, ?_,
        ⟨⟨⟨cell.payload, ?_⟩, trivial⟩, hnodupAfter, rfl, rfl, hsizeAfter⟩, hsameFresh,
        fun other hother => helse other (ne_of_not_mem_cons hother)⟩
      · rw [lruAddFront, ← bind_assoc, hset]
        simp [hhead, htail]
      · exact hown.trans (by rw [hhead]; rfl)
  | cons first rest =>
      obtain ⟨changed, hsetFirst, hchanged, hsameChanged, helseChanged⟩ :=
        hlist.setPrev_first hnodup (some node)
      have hlast : cache.tail = some (rest.getLast?.getD first) := htail.trans getLast?_cons
      refine ⟨{ heap := changed, head := some node, tail := cache.tail, size := cache.size + 1 },
        ?_, ⟨⟨⟨cell.payload, ?_⟩, hchanged⟩, hnodupAfter, rfl, ?_, hsizeAfter⟩,
        hsameFresh.trans hsameChanged, fun other hother => ?_⟩
      · rw [lruAddFront, ← bind_assoc, hset]
        simp [hhead, hlast, hsetFirst]
      · have hsameNode := helseChanged node fun heq => hfresh (heq ▸ mem_cons_self)
        exact hsameNode.trans (hown.trans (by rw [hhead]; rfl))
      · rw [getLast?_cons_cons]
        exact htail
      · obtain ⟨hother, hlater⟩ := not_or.1 fun heq => hother (mem_cons.2 heq)
        exact (helseChanged other (ne_of_not_mem_cons hlater)).trans (helse other hother)

/-- Taking a node out and putting it in front. -/
theorem lruTouch_lined (hlined : Lined cache (front ++ node :: back)) :
    ∃ after, lruTouch cache node = some after ∧
      Relinked cache after (node :: (front ++ back)) := by
  obtain ⟨-, ⟨payload, hcell⟩, -⟩ := threaded_append.1 hlined.threaded
  have hfresh : node ∉ front ++ back := (nodup_cons.1 (nodup_middle.1 hlined.nodup)).1
  obtain ⟨removed, hremove, hremoved⟩ := lruRemove_lined hlined
  obtain ⟨after, hadd, hafter⟩ := lruAddFront_lined hremoved.lined hfresh
    ((hremoved.outside node hfresh).trans hcell)
  refine ⟨after, by simp [lruTouch, hremove, hadd], hafter.lined,
    hremoved.payloads.trans hafter.payloads, fun other hother => ?_⟩
  exact (hafter.outside other hother).trans
    (hremoved.outside other fun hmem => hother (mem_cons_of_mem _ hmem))

/-- Taking the last node out; an empty list stays as it is. -/
theorem lruEvict_lined (hlined : Lined cache addresses) :
    ∃ after, lruEvict cache = some (after, addresses.getLast?) ∧
      Relinked cache after addresses.dropLast := by
  have htail := hlined.tail_eq
  rcases eq_nil_or_concat' addresses with rfl | ⟨front, last, rfl⟩
  · exact ⟨cache, by simp [lruEvict, htail], hlined, fun _ => rfl, fun _ _ => rfl⟩
  · rw [getLast?_concat] at htail ⊢
    obtain ⟨after, hremove, hafter⟩ := lruRemove_lined hlined
    refine ⟨after, by simp [lruEvict, htail, hremove], ?_⟩
    rwa [dropLast_concat, ← append_nil front]

/-- From every well-formed list the four operations on the cells are the four
operations on the sequence, and no cell outside the resulting list is written. -/
theorem list_operations (hlined : Lined cache addresses) :
    (∀ node, node ∉ addresses → ∀ cell, cache.heap node = some cell →
      ∃ after, lruAddFront cache node = some after ∧ lruAddNodeFront cache node = some after ∧
        Relinked cache after (node :: addresses)) ∧
    (∀ node ∈ addresses,
      ∃ after, lruRemove cache node = some after ∧ lruRemoveNode cache node = some after ∧
        Relinked cache after (addresses.erase node)) ∧
    (∀ node ∈ addresses,
      ∃ after, lruTouch cache node = some after ∧
        Relinked cache after (node :: addresses.erase node)) ∧
    ∃ after, lruEvict cache = some (after, addresses.getLast?) ∧
      Relinked cache after addresses.dropLast := by
  refine ⟨fun node hfresh cell hcell => ?_, fun node hmem => ?_, fun node hmem => ?_,
    lruEvict_lined hlined⟩
  · obtain ⟨after, hadd, hafter⟩ := lruAddFront_lined hlined hfresh hcell
    exact ⟨after, hadd, hadd, hafter⟩
  · obtain ⟨front, back, hfront, rfl, herase⟩ := exists_erase_eq hmem
    obtain ⟨after, hremove, hafter⟩ := lruRemove_lined hlined
    exact ⟨after, hremove, hremove, herase ▸ hafter⟩
  · obtain ⟨front, back, hfront, rfl, herase⟩ := exists_erase_eq hmem
    rw [herase]
    exact lruTouch_lined hlined

/-- A list of two nodes; the cell at address 3 is allocated and not in it. -/
def pairList : LinkedLRU where
  heap := fun address =>
    let node : EvictNode := { key := some (lit "k"), value := none, accessCount := 1 }
    match address with
    | 1 => some { payload := node, prev := none, next := some 2 }
    | 2 => some { payload := node, prev := some 1, next := none }
    | 3 => some { payload := node, prev := some 2, next := some 1 }
    | _ => none
  head := some 1
  tail := some 2
  size := 2

theorem pairList_lined : Lined pairList [1, 2] :=
  ⟨⟨⟨_, rfl⟩, ⟨_, rfl⟩, trivial⟩, by decide, rfl, rfl, rfl⟩

theorem list_operations_pairList :
    (∃ after, lruAddFront pairList 3 = some after ∧ lruAddNodeFront pairList 3 = some after ∧
      Relinked pairList after [3, 1, 2]) ∧
    (∃ after, lruRemove pairList 1 = some after ∧ lruRemoveNode pairList 1 = some after ∧
      Relinked pairList after [2]) ∧
    (∃ after, lruTouch pairList 2 = some after ∧ Relinked pairList after [2, 1]) ∧
    ∃ after, lruEvict pairList = some (after, some 2) ∧ Relinked pairList after [1] := by
  obtain ⟨hadd, hremove, htouch, hevict⟩ := list_operations pairList_lined
  exact ⟨hadd 3 (by decide) _ rfl, hremove 1 (by decide), htouch 2 (by decide), hevict⟩

/-- The walk finds the node that the list model finds. -/
theorem lruSearch_lined (hlined : Lined cache addresses) (key : CStr) :
    (lruSearch cache key = some none ∧ findPlace key (payloads cache.heap addresses) = none) ∨
      ∃ front node back place, addresses = front ++ node :: back ∧
        lruSearch cache key = some (some node) ∧
        findPlace key (payloads cache.heap addresses) = some place ∧
        place.front = payloads cache.heap front ∧
        some place.node = (cache.heap node).map Cell.payload ∧
        place.back = payloads cache.heap back := by
  have hsearch : lruSearch cache key = some (addresses.find? fun node =>
      (cache.heap node).any fun cell => EvictNode.hasKey key cell.payload) := by
    rw [lruSearch, hlined.head_eq]
    exact hlined.threaded.search_eq _ (by rw [hlined.size_eq]; omega)
  -- a payload with the key makes its address pass the test
  have hpass : ∀ segment, (∀ node ∈ segment, ¬(cache.heap node).any
      (fun cell => EvictNode.hasKey key cell.payload) = true) →
      ∀ payload ∈ payloads cache.heap segment, payload.key ≠ some key := by
    intro segment hfail payload hpayload hkey
    obtain ⟨node, hnode, hread⟩ := mem_filterMap.1 hpayload
    obtain ⟨cell, hcell, rfl⟩ := Option.map_eq_some_iff.1 hread
    exact hfail node hnode (by simp [hcell, hkey])
  cases hfind : addresses.find? fun node =>
      (cache.heap node).any fun cell => EvictNode.hasKey key cell.payload with
  | none =>
      exact .inl ⟨hfind ▸ hsearch, findPlace_eq_none.2 (hpass addresses (find?_eq_none.1 hfind))⟩
  | some node =>
      obtain ⟨htest, front, back, hsplit, hfront⟩ := find?_eq_some_iff_append.1 hfind
      obtain ⟨cell, hcell, hkey⟩ := (Option.any_eq_true _ _).1 htest
      refine .inr ⟨front, node, back, ⟨payloads cache.heap front, cell.payload,
        payloads cache.heap back⟩, hsplit, hfind ▸ hsearch, ?_, rfl, by rw [hcell]; rfl, rfl⟩
      refine findPlace_of_first ⟨?_, EvictNode.hasKey_iff.1 hkey,
        hpass front fun other hother => ?_⟩
      · rw [hsplit]
        simp [payloads, hcell]
      · simpa using hfront other hother

/-- The cell of the last node is given back. -/
theorem evict_lined {linked : LinkedManager} (hlined : Lined linked.lru (front ++ [node])) :
    ∃ after key, kvsCacheLruEvictKey linked = some (after, key) ∧ Lined after.lru front ∧
      after = { linked with lru := after.lru, evictionCount := linked.evictionCount + 1 } ∧
      ∀ other, other ≠ node → (after.lru.heap other).map Cell.payload =
        (linked.lru.heap other).map Cell.payload := by
  have htail : linked.lru.tail = some node := by rw [hlined.tail_eq, getLast?_concat]
  obtain ⟨-, ⟨payload, hcell⟩, -⟩ := threaded_append.1 hlined.threaded
  obtain ⟨removed, hremove, hlinedRemoved, hsame, -⟩ := lruRemove_lined hlined
  rw [append_nil] at hlinedRemoved
  obtain ⟨cell, hread, -⟩ := Option.map_eq_some_iff.1
    ((hsame node).trans (congrArg (Option.map Cell.payload) hcell))
  have hfresh : node ∉ front := fun hmem =>
    (nodup_append.1 hlined.nodup).2.2 node hmem node mem_cons_self rfl
  have helse : ∀ other, other ≠ node → release removed.heap node other = removed.heap other :=
    fun other hother => Function.update_of_ne hother _ _
  refine ⟨{ linked with
      lru := { removed with heap := release removed.heap node }
      evictionCount := linked.evictionCount + 1 }, cell.payload.key,
    by simp [kvsCacheLruEvictKey, lruEvict, htail, hremove, hread], ?_, rfl, fun other hother => ?_⟩
  · refine ⟨hlinedRemoved.threaded.congr fun other hother => helse other ?_, hlinedRemoved.nodup,
      hlinedRemoved.head_eq, hlinedRemoved.tail_eq, hlinedRemoved.size_eq⟩
    rintro rfl
    exact hfresh hother
  · exact (congrArg (Option.map Cell.payload) (helse other hother)).trans (hsame other)

/-- The eviction loop ends and keeps the first nodes that leave room for one more. -/
theorem makeRoom_lined : ∀ (fuel : ℕ) (linked : LinkedManager) (addresses : List ℕ),
    0 < linked.maxItems → Lined linked.lru addresses → addresses.length < fuel →
    ∃ after, makeRoom fuel linked = some after ∧
      Lined after.lru (addresses.take (linked.maxItems - 1)) ∧
      after = { linked with
        lru := after.lru
        evictionCount :=
          linked.evictionCount + (addresses.length - (linked.maxItems - 1)) } ∧
      ∀ other, other ∉ addresses.drop (linked.maxItems - 1) →
        (after.lru.heap other).map Cell.payload = (linked.lru.heap other).map Cell.payload
  | 0, _, _, _, _, hfuel => absurd hfuel (Nat.not_lt_zero _)
  | fuel + 1, linked, addresses, hpos, hlined, hfuel => by
      have hsize := hlined.size_eq
      by_cases hfull : (linked.maxItems : ℤ) ≤ linked.lru.size
      · rcases eq_nil_or_concat' addresses with rfl | ⟨front, node, rfl⟩
        · rw [hsize, length_nil] at hfull
          omega
        · rw [hsize, length_append, length_singleton] at hfull
          rw [length_append, length_singleton] at hfuel
          obtain ⟨evicted, key, hevict, hlinedEvicted, hevicted, helse⟩ := evict_lined hlined
          have hmax : evicted.maxItems = linked.maxItems := by rw [hevicted]
          obtain ⟨after, hroom, hlinedAfter, hafter, helseAfter⟩ := makeRoom_lined fuel evicted
            front (hmax ▸ hpos) hlinedEvicted (by omega)
          rw [hmax] at hlinedAfter hafter helseAfter
          have hle : linked.maxItems - 1 ≤ front.length := by omega
          refine ⟨after, ?_, ?_, ?_, fun other hother => ?_⟩
          · rw [makeRoom, if_pos (by rw [hsize, length_append, length_singleton]; exact hfull),
              hevict]
            exact hroom
          · rwa [take_append_of_le_length hle]
          · rw [hafter, hevicted]
            simp only [length_append, length_singleton, LinkedManager.mk.injEq, true_and]
            omega
          · rw [drop_append_of_le_length hle, mem_append, mem_singleton, not_or] at hother
            exact (helseAfter other hother.1).trans (helse other hother.2)
      · rw [hsize] at hfull
        refine ⟨linked, by rw [makeRoom, if_neg (by rw [hsize]; exact hfull)], ?_, ?_,
          fun other _ => rfl⟩
        · rwa [take_of_length_le (by omega)]
        · rw [show addresses.length - (linked.maxItems - 1) = 0 by omega]
          rfl

/-! ## The list model -/

section Simulation

variable {F : Type}

/-- The linked cells at the addresses hold what the list model says. -/
structure Models (linked : LinkedManager) (manager : CacheManager F) (addresses : List ℕ) :
    Prop where
  policy_eq : manager.policy = .lru
  maxItems_eq : linked.maxItems = manager.maxItems
  maxItems_pos : 0 < manager.maxItems
  totalAccess_eq : linked.totalAccess = manager.totalAccess
  cacheHit_eq : linked.cacheHit = manager.cacheHit
  cacheMiss_eq : linked.cacheMiss = manager.cacheMiss
  evictionCount_eq : linked.evictionCount = manager.evictionCount
  lined : Lined linked.lru addresses
  sized : manager.lru.Sized
  nodes_eq : payloads linked.lru.heap addresses = manager.lru.nodes

/-- Some addresses do. -/
def Implements (linked : LinkedManager) (manager : CacheManager F) : Prop :=
  ∃ addresses, Models linked manager addresses

variable {linked : LinkedManager} {manager : CacheManager F}

theorem payloads_append {heap : Heap ℕ EvictNode} (front back : List ℕ) :
    payloads heap (front ++ back) = payloads heap front ++ payloads heap back :=
  filterMap_append

theorem SamePayloads.payloads_eq {heap changed : Heap ℕ EvictNode}
    (hsame : SamePayloads heap changed) (list : List ℕ) :
    payloads changed list = payloads heap list :=
  payloads_congr fun node _ => hsame node

theorem get_simulates (himplements : Implements linked manager) (key : CStr) :
    ∃ after final value, kvsCacheGet linked (some key) = some (after, value) ∧
      Cache.kvsCacheGet manager (some key) = some (final, value) ∧ Implements after final := by
  obtain ⟨addresses, hmodels⟩ := himplements
  have hpos := hmodels.maxItems_pos.ne'
  have hposLinked : linked.maxItems ≠ 0 := hmodels.maxItems_eq ▸ hpos
  have hpolicy := hmodels.policy_eq
  have hnodes := hmodels.nodes_eq
  rcases lruSearch_lined hmodels.lined key with
    ⟨hsearch, hfind⟩ |
    ⟨front, node, back, place, rfl, hsearch, hfind, hfrontNodes, hpayload, hbackNodes⟩
  · have hlist : lruFind manager.lru key = none := by rw [lruFind, ← hnodes, hfind]
    refine ⟨{ linked with
        cacheMiss := linked.cacheMiss + 1
        totalAccess := linked.totalAccess + 1 }, countMiss manager, none,
      by simp [kvsCacheGet, hposLinked, hsearch], by simp [Cache.kvsCacheGet, hpos, hpolicy, hlist],
      addresses, ?_⟩
    exact { hmodels with
      totalAccess_eq := congrArg (· + 1) hmodels.totalAccess_eq
      cacheMiss_eq := congrArg (· + 1) hmodels.cacheMiss_eq }
  · have hlist : lruFind manager.lru key = some place := by rw [lruFind, ← hnodes, hfind]
    obtain ⟨touched, htouch, hlinedTouched, hsame, -⟩ := lruTouch_lined hmodels.lined
    obtain ⟨own, hown, hvalue⟩ := Option.map_eq_some_iff.1 ((hsame node).trans hpayload.symm)
    refine ⟨{ linked with
        lru := touched
        cacheHit := linked.cacheHit + 1
        totalAccess := linked.totalAccess + 1 }, countHit { manager with
          lru := Cache.lruTouch manager.lru place }, place.node.value, ?_,
      by simp [Cache.kvsCacheGet, hpos, hpolicy, hlist], node :: (front ++ back), ?_⟩
    · simp [kvsCacheGet, hposLinked, hsearch, htouch, hown, hvalue]
    · have hplace := findPlace_eq_some hlist
      exact { hmodels with
        totalAccess_eq := congrArg (· + 1) hmodels.totalAccess_eq
        cacheHit_eq := congrArg (· + 1) hmodels.cacheHit_eq
        lined := hlinedTouched
        sized := (hmodels.sized.remove hplace.split).addFront _
        nodes_eq := by
          rw [SamePayloads.payloads_eq hsame]
          have hmoved : payloads linked.lru.heap (node :: (front ++ back)) =
              place.node :: (place.front ++ place.back) := by
            rw [hfrontNodes, hbackNodes, ← payloads_append]
            simp [payloads, ← hpayload]
          exact hmoved }

theorem del_simulates (himplements : Implements linked manager) (key : CStr) :
    ∃ after final code, kvsCacheDel linked (some key) = some (after, code) ∧
      Cache.kvsCacheDel manager (some key) = some (final, code) ∧ Implements after final := by
  obtain ⟨addresses, hmodels⟩ := himplements
  have hpos := hmodels.maxItems_pos.ne'
  have hposLinked : linked.maxItems ≠ 0 := hmodels.maxItems_eq ▸ hpos
  have hpolicy := hmodels.policy_eq
  have hnodes := hmodels.nodes_eq
  rcases lruSearch_lined hmodels.lined key with
    ⟨hsearch, hfind⟩ |
    ⟨front, node, back, place, rfl, hsearch, hfind, hfrontNodes, hpayload, hbackNodes⟩
  · have hlist : lruFind manager.lru key = none := by rw [lruFind, ← hnodes, hfind]
    exact ⟨linked, manager, -2, by simp [kvsCacheDel, hposLinked, hsearch],
      by simp [Cache.kvsCacheDel, hpos, hpolicy, hlist], addresses, hmodels⟩
  · have hlist : lruFind manager.lru key = some place := by rw [lruFind, ← hnodes, hfind]
    obtain ⟨removed, hremove, hlined, hsame, -⟩ := lruRemove_lined hmodels.lined
    have hfresh : node ∉ front ++ back := (nodup_cons.1 (nodup_middle.1 hmodels.lined.nodup)).1
    refine ⟨{ linked with lru := { removed with heap := release removed.heap node } },
      { manager with lru := Cache.lruRemove manager.lru place }, 0,
      by simp [kvsCacheDel, hposLinked, hsearch, hremove],
      by simp [Cache.kvsCacheDel, hpos, hpolicy, hlist], front ++ back, ?_⟩
    have hkept : ∀ other ∈ front ++ back, release removed.heap node other = removed.heap other :=
      fun other hother => Function.update_of_ne (by rintro rfl; exact hfresh hother) _ _
    exact { hmodels with
      lined := ⟨hlined.threaded.congr hkept, hlined.nodup, hlined.head_eq, hlined.tail_eq,
        hlined.size_eq⟩
      sized := hmodels.sized.remove (findPlace_eq_some hlist).split
      nodes_eq := by
        have hread : payloads (release removed.heap node) (front ++ back) =
            payloads removed.heap (front ++ back) :=
          payloads_congr fun other hother => by rw [hkept other hother]
        rw [hread, SamePayloads.payloads_eq hsame, payloads_append, ← hfrontNodes, ← hbackNodes]
        rfl }

theorem add_simulates (himplements : Implements linked manager) {address : ℕ}
    (haddress : linked.lru.heap address = none) (key value : CStr) :
    ∃ after final, kvsCacheLruAdd allocOk address linked key value = some after ∧
      Cache.kvsCacheLruAdd allocOk manager key value = some final ∧ Implements after final := by
  obtain ⟨addresses, hmodels⟩ := himplements
  have hfresh : address ∉ addresses := by
    intro hmem
    obtain ⟨cell, hcell⟩ := hmodels.lined.threaded.exists_cell hmem
    rw [haddress] at hcell
    cases hcell
  have hlength : addresses.length = manager.lru.nodes.length := by
    rw [← hmodels.nodes_eq, hmodels.lined.threaded.length_payloads]
  have hmax := hmodels.maxItems_eq
  -- the new cell is outside the list
  let started : LinkedManager := { linked with
    lru := { linked.lru with heap := newNode linked.lru.heap address key value } }
  have helse : ∀ other ∈ addresses, started.lru.heap other = linked.lru.heap other :=
    fun other hother => Function.update_of_ne (ne_of_mem_of_not_mem hother hfresh) _ _
  have hlinedStarted : Lined started.lru addresses := by
    obtain ⟨hthreaded, hnodup, hhead, htail, hsize⟩ := hmodels.lined
    exact ⟨hthreaded.update hfresh _, hnodup, hhead, htail, hsize⟩
  obtain ⟨room, hroom, hlinedRoom, hroomEq, hkept⟩ := makeRoom_lined
    (linked.lru.size.toNat + 1) started addresses
    (show 0 < linked.maxItems from hmax ▸ hmodels.maxItems_pos) hlinedStarted
    (by rw [hmodels.lined.size_eq]; omega)
  change Lined room.lru (addresses.take (linked.maxItems - 1)) at hlinedRoom
  have hfreshDrop : address ∉ addresses.drop (linked.maxItems - 1) :=
    fun hmem => hfresh (mem_of_mem_drop hmem)
  let node : EvictNode := { key := some key, value := some value, accessCount := 1 }
  have hown : started.lru.heap address = some { payload := node, prev := none, next := none } :=
    Function.update_self address _ _
  have hread : (room.lru.heap address).map Cell.payload = some node :=
    (hkept address hfreshDrop).trans (congrArg (Option.map Cell.payload) hown)
  obtain ⟨cell, hcell, -⟩ := Option.map_eq_some_iff.1 hread
  obtain ⟨after, hadd, hlinedAfter, hsame, -⟩ := lruAddFront_lined hlinedRoom
    (fun hmem => hfresh (mem_of_mem_take hmem)) hcell
  refine ⟨{ room with lru := after }, _, ?_, kvsCacheLruAdd_take hmodels.policy_eq
    hmodels.maxItems_pos hmodels.sized key value, address :: addresses.take (linked.maxItems - 1),
    ?_⟩
  · simp only [kvsCacheLruAdd, allocOk, Bool.and_self, if_true]
    rw [hroom]
    simp [hadd]
  · have hpayloads : payloads room.lru.heap (addresses.take (linked.maxItems - 1)) =
        manager.lru.nodes.take (manager.maxItems - 1) := by
      have hcells : ∀ other ∈ addresses.take (linked.maxItems - 1),
          (room.lru.heap other).map Cell.payload = (linked.lru.heap other).map Cell.payload := by
        intro other hother
        rw [hkept other (disjoint_take_drop hmodels.lined.nodup le_rfl hother),
          helse other (mem_of_mem_take hother)]
      rw [payloads_congr hcells, hmodels.lined.threaded.payloads_take, hmodels.nodes_eq, hmax]
    have hnew : payloads room.lru.heap (address :: addresses.take (linked.maxItems - 1)) =
        node :: manager.lru.nodes.take (manager.maxItems - 1) := by
      rw [← hpayloads, payloads, filterMap_cons, hread]
      rfl
    rw [hroomEq]
    exact { hmodels with
      evictionCount_eq := by
        change linked.evictionCount + (addresses.length - (linked.maxItems - 1)) =
          manager.evictionCount + (manager.lru.nodes.length - (manager.maxItems - 1))
        rw [hmodels.evictionCount_eq, hlength, hmax]
      lined := hlinedAfter
      sized := (LRUCache.Sized.of_nodes _).addFront node
      nodes_eq := (SamePayloads.payloads_eq hsame _).trans hnew }

end Simulation

end LiteMultiKV.Cache.Linked
