import LiteMultiKV.Engine.Memory

/-!
# Cache nodes and the recency list

`kvs_cache.c` keeps its nodes in doubly linked lists with an explicit size
field.  A list is modelled by its nodes from head to tail, and a pointer to a
member by the member together with the nodes before and after it, which is
what following its `prev` and `next` fields reaches.

What a structure caches is the list of the key-value pairs of its nodes that
carry a value.  The adaptive policy also keeps nodes without a value, so the
file ends with the ordering that makes the first node found for a key decide
what is cached for it.
-/

namespace LiteMultiKV.Cache

open List CText Dictionary

/-- `EvictNode`.  A ghost has no value, and a failed `kvs_strdup` leaves a node
without a key. -/
structure EvictNode where
  key : Option CStr
  value : Option CStr
  accessCount : ℕ
  deriving DecidableEq

/-- `node->key && strcmp(node->key, key) == 0`. -/
def EvictNode.hasKey (key : CStr) (node : EvictNode) : Bool :=
  match node.key with
  | none => false
  | some own => strcmp own key = 0

@[simp]
theorem EvictNode.hasKey_iff {key : CStr} {node : EvictNode} :
    node.hasKey key = true ↔ node.key = some key := by
  unfold EvictNode.hasKey
  cases node.key with
  | none => simp
  | some own => simp [strcmp_eq_zero_iff]

/-- `LRUCache`, from `head` to `tail`. -/
structure LRUCache where
  nodes : List EvictNode
  size : ℤ
  deriving DecidableEq

/-- A pointer to a member of a list. -/
structure Place where
  front : List EvictNode
  node : EvictNode
  back : List EvictNode

def lruInit : LRUCache where
  nodes := []
  size := 0

/-- The walk from the head that stops at the first node with the key. -/
def findPlace (key : CStr) : List EvictNode → Option Place
  | [] => none
  | node :: nodes =>
      if node.hasKey key then some ⟨[], node, nodes⟩
      else (findPlace key nodes).map fun place =>
        { place with front := node :: place.front }

def lruFind (cache : LRUCache) (key : CStr) : Option Place :=
  findPlace key cache.nodes

/-- `lru_remove` and its copy `lru_remove_node`. -/
def lruRemove (cache : LRUCache) (place : Place) : LRUCache where
  nodes := place.front ++ place.back
  size := cache.size - 1

/-- `lru_add_front` and its copy `lru_add_node_front`. -/
def lruAddFront (cache : LRUCache) (node : EvictNode) : LRUCache where
  nodes := node :: cache.nodes
  size := cache.size + 1

def lruTouch (cache : LRUCache) (place : Place) : LRUCache :=
  lruAddFront (lruRemove cache place) place.node

/-- `cache->tail`. -/
def lruTail (cache : LRUCache) : Option Place :=
  cache.nodes.getLast?.map fun node => ⟨cache.nodes.dropLast, node, []⟩

def lruEvict (cache : LRUCache) : LRUCache × Option EvictNode :=
  match lruTail cache with
  | none => (cache, none)
  | some victim => (lruRemove cache victim, some victim.node)

theorem findPlace_eq_none {key : CStr} {nodes : List EvictNode} :
    findPlace key nodes = none ↔ ∀ node ∈ nodes, node.key ≠ some key := by
  induction nodes with
  | nil => simp [findPlace]
  | cons node nodes ih =>
      by_cases hkey : node.key = some key
      · simp [findPlace, hkey]
      · simp [findPlace, hkey, ih]

/-- A place that was found is the first node with its key. -/
structure FirstOf (key : CStr) (nodes : List EvictNode) (place : Place) : Prop where
  split : nodes = place.front ++ place.node :: place.back
  key_eq : place.node.key = some key
  first : ∀ node ∈ place.front, node.key ≠ some key

theorem findPlace_eq_some {key : CStr} {nodes : List EvictNode} {place : Place}
    (hfind : findPlace key nodes = some place) : FirstOf key nodes place := by
  induction nodes generalizing place with
  | nil => simp [findPlace] at hfind
  | cons node nodes ih =>
      by_cases hkey : node.key = some key
      · simp only [findPlace, EvictNode.hasKey_iff, hkey, if_true, Option.some.injEq] at hfind
        subst hfind
        exact ⟨rfl, hkey, by simp⟩
      · simp only [findPlace, EvictNode.hasKey_iff, hkey, if_false, Option.map_eq_some_iff]
          at hfind
        obtain ⟨inner, hinner, rfl⟩ := hfind
        obtain ⟨hsplit, hown, hfirst⟩ := ih hinner
        refine ⟨by simp [hsplit], hown, ?_⟩
        simpa [hkey] using hfirst

theorem findPlace_of_first {key : CStr} {nodes : List EvictNode} {place : Place}
    (hplace : FirstOf key nodes place) : findPlace key nodes = some place := by
  obtain ⟨front, node, back⟩ := place
  obtain ⟨hsplit, hkey, hfirst⟩ := hplace
  dsimp only at hsplit hkey hfirst
  induction front generalizing nodes with
  | nil => simp [hsplit, findPlace, hkey]
  | cons first front ih =>
      have hne := hfirst first mem_cons_self
      have hrest := ih rfl fun other hother => hfirst other (mem_cons_of_mem _ hother)
      simp [hsplit, findPlace, hne, hrest]

theorem lruTail_eq_none {cache : LRUCache} : lruTail cache = none ↔ cache.nodes = [] := by
  simp [lruTail]

theorem lruTail_eq_some {cache : LRUCache} {place : Place}
    (htail : lruTail cache = some place) :
    cache.nodes = place.front ++ [place.node] ∧ place.back = [] := by
  obtain ⟨node, hnode, rfl⟩ := Option.map_eq_some_iff.1 htail
  exact ⟨(dropLast_append_getLast? node hnode).symm, rfl⟩

theorem lruTail_split {list : LRUCache} {place : Place} (htail : lruTail list = some place) :
    list.nodes = place.front ++ place.node :: place.back := by
  obtain ⟨hnodes, hback⟩ := lruTail_eq_some htail
  rw [hnodes, hback]

/-! ## What a list of nodes caches -/

def EvictNode.contents (node : EvictNode) : Option (Σ _ : CStr, CStr) :=
  node.key.bind fun key => node.value.map fun value => entry key value

/-- The pairs of the nodes that carry a value. -/
def cachedOf (nodes : List EvictNode) : Entries CStr CStr :=
  nodes.filterMap EvictNode.contents

@[simp]
theorem EvictNode.contents_eq_some {node : EvictNode} {key value : CStr} :
    node.contents = some (entry key value) ↔
      node.key = some key ∧ node.value = some value := by
  obtain ⟨own, contents, count⟩ := node
  cases own <;> cases contents <;> simp [EvictNode.contents]

theorem mem_cachedOf {nodes : List EvictNode} {key value : CStr} :
    entry key value ∈ cachedOf nodes ↔
      ∃ node ∈ nodes, node.key = some key ∧ node.value = some value := by
  simp [cachedOf]

theorem cachedOf_append (left right : List EvictNode) :
    cachedOf (left ++ right) = cachedOf left ++ cachedOf right :=
  filterMap_append

theorem cachedOf_cons_filled {node : EvictNode} {key value : CStr}
    (hkey : node.key = some key) (hvalue : node.value = some value)
    (nodes : List EvictNode) :
    cachedOf (node :: nodes) = entry key value :: cachedOf nodes := by
  rw [cachedOf, filterMap_cons, EvictNode.contents_eq_some.2 ⟨hkey, hvalue⟩]
  rfl

theorem cachedOf_cons_valueless {node : EvictNode} (hvalue : node.value = none)
    (nodes : List EvictNode) : cachedOf (node :: nodes) = cachedOf nodes := by
  have hcontents : node.contents = none := by
    cases hkey : node.key <;> simp [EvictNode.contents, hkey, hvalue]
  rw [cachedOf, filterMap_cons, hcontents]
  rfl

theorem cachedOf_eq_nil {nodes : List EvictNode}
    (hvalueless : ∀ node ∈ nodes, node.value = none) : cachedOf nodes = [] := by
  induction nodes with
  | nil => rfl
  | cons node nodes ih =>
      rw [cachedOf_cons_valueless (hvalueless node mem_cons_self)]
      exact ih fun other hother => hvalueless other (mem_cons_of_mem _ hother)

theorem cachedOf_perm {left right : List EvictNode} (hperm : left.Perm right) :
    (cachedOf left).Perm (cachedOf right) :=
  hperm.filterMap _

theorem denote_cachedOf_eq_none {key : CStr} {nodes : List EvictNode}
    (habsent : ∀ node ∈ nodes, node.key = some key → node.value = none) :
    denote (cachedOf nodes) key = none := by
  rw [denote_eq_none_iff]
  intro hkey
  obtain ⟨value, hmem⟩ := exists_of_mem_keys hkey
  obtain ⟨node, hnode, hown, hvalue⟩ := mem_cachedOf.1 hmem
  rw [habsent node hnode hown] at hvalue
  cases hvalue

/-- No node that carries a value for a key comes after another node with that key. -/
def FirstValued (nodes : List EvictNode) : Prop :=
  nodes.Pairwise fun earlier later =>
    later.value ≠ none → later.key ≠ none → earlier.key ≠ later.key

theorem FirstValued.sublist {fewer nodes : List EvictNode} (hfirst : FirstValued nodes)
    (hsublist : fewer.Sublist nodes) : FirstValued fewer :=
  Pairwise.sublist hsublist hfirst

theorem FirstValued.cons {node : EvictNode} {nodes : List EvictNode}
    (hfirst : FirstValued nodes)
    (hfresh : ∀ other ∈ nodes, other.value ≠ none → other.key ≠ none → node.key ≠ other.key) :
    FirstValued (node :: nodes) :=
  pairwise_cons.2 ⟨hfresh, hfirst⟩

theorem FirstValued.nodupKeys {nodes : List EvictNode} (hfirst : FirstValued nodes) :
    (cachedOf nodes).NodupKeys := by
  rw [nodupKeys_iff_pairwise, cachedOf, pairwise_filterMap]
  apply Pairwise.imp _ hfirst
  intro earlier later hdistinct left hleft right hright heq
  obtain ⟨key, value⟩ := left
  obtain ⟨key', value'⟩ := right
  obtain ⟨hkey, -⟩ := EvictNode.contents_eq_some.1 hleft
  obtain ⟨hkey', hvalue'⟩ := EvictNode.contents_eq_some.1 hright
  exact hdistinct (by simp [hvalue']) (by simp [hkey'])
    (by rw [hkey, hkey']; exact congrArg some heq)

/-- The first node found for a key decides what is cached for it. -/
theorem FirstValued.denote_found {nodes : List EvictNode} (hfirst : FirstValued nodes)
    {key : CStr} {place : Place} (hplace : FirstOf key nodes place) :
    denote (cachedOf nodes) key = place.node.value := by
  obtain ⟨hsplit, hkey, hfront⟩ := hplace
  subst hsplit
  cases hvalue : place.node.value with
  | none =>
      apply denote_cachedOf_eq_none
      intro node hnode hown
      rcases mem_append.1 hnode with hnode | hnode
      · exact absurd hown (hfront node hnode)
      · rcases mem_cons.1 hnode with rfl | hnode
        · exact hvalue
        · by_contra hvalued
          have hback := (pairwise_cons.1 (pairwise_append.1 hfirst).2.1).1
          exact hback node hnode hvalued (by simp [hown]) (hkey.trans hown.symm)
  | some value =>
      rw [denote_eq_some_iff hfirst.nodupKeys, mem_cachedOf]
      exact ⟨place.node, by simp, hkey, hvalue⟩

/-- Moving the first node with a key to the front keeps the ordering. -/
theorem FirstValued.move_front {nodes : List EvictNode} (hfirst : FirstValued nodes)
    {key : CStr} {place : Place} (hplace : FirstOf key nodes place) :
    FirstValued (place.node :: (place.front ++ place.back)) := by
  obtain ⟨hsplit, hkey, hfront⟩ := hplace
  subst hsplit
  have hback := (pairwise_cons.1 (pairwise_append.1 hfirst).2.1).1
  refine (hfirst.sublist (by simp)).cons fun other hother hvalued hnamed => ?_
  rcases mem_append.1 hother with hother | hother
  · rw [hkey]
    exact (hfront other hother).symm
  · exact hback other hother hvalued hnamed

theorem FirstOf.perm {key : CStr} {nodes : List EvictNode} {place : Place}
    (hplace : FirstOf key nodes place) :
    nodes.Perm (place.node :: (place.front ++ place.back)) := by
  rw [hplace.split]
  exact perm_middle

/-- Nodes of a structure without ghosts: all keyed, all with a value, no key
twice. -/
structure Resident (nodes : List EvictNode) : Prop where
  filled : ∀ node ∈ nodes, ∃ key value, node.key = some key ∧ node.value = some value
  distinct : nodes.Pairwise fun left right => left.key ≠ right.key

theorem resident_nil : Resident [] :=
  ⟨by simp, Pairwise.nil⟩

theorem Resident.firstValued {nodes : List EvictNode} (hresident : Resident nodes) :
    FirstValued nodes := by
  apply hresident.distinct.imp
  intro left right hne _ _
  exact hne

theorem Resident.perm {left right : List EvictNode} (hresident : Resident left)
    (hperm : left.Perm right) : Resident right :=
  ⟨fun node hnode => hresident.filled node (hperm.mem_iff.2 hnode),
    (hperm.pairwise_iff fun hne => hne.symm).1 hresident.distinct⟩

theorem Resident.subperm {fewer nodes : List EvictNode} (hresident : Resident nodes)
    (hsubperm : fewer.Subperm nodes) : Resident fewer := by
  obtain ⟨middle, hperm, hsublist⟩ := hsubperm
  have hmiddle : Resident middle :=
    ⟨fun node hnode => hresident.filled node (hsublist.subset hnode),
      hresident.distinct.sublist hsublist⟩
  exact hmiddle.perm hperm

theorem Resident.cons {nodes : List EvictNode} (hresident : Resident nodes)
    {node : EvictNode} {key value : CStr} (hkey : node.key = some key)
    (hvalue : node.value = some value) (hfresh : denote (cachedOf nodes) key = none) :
    Resident (node :: nodes) := by
  refine ⟨?_, pairwise_cons.2 ⟨fun other hother hsame => ?_, hresident.distinct⟩⟩
  · intro other hother
    rcases mem_cons.1 hother with rfl | hother
    · exact ⟨key, value, hkey, hvalue⟩
    · exact hresident.filled other hother
  · obtain ⟨own, contents, hown, hcontents⟩ := hresident.filled other hother
    have hmem : entry key contents ∈ cachedOf nodes :=
      mem_cachedOf.2 ⟨other, hother, by rw [← hsame, hkey], hcontents⟩
    exact denote_eq_none_iff.1 hfresh (mem_keys_of_mem hmem)

/-! ## The recency list -/

/-- The invariant of a list used by the LRU policy. -/
structure LRUCache.Valid (cache : LRUCache) : Prop where
  size_eq : cache.size = cache.nodes.length
  resident : Resident cache.nodes

theorem lruInit_valid : lruInit.Valid :=
  ⟨rfl, resident_nil⟩

theorem lruTouch_valid {cache : LRUCache} (hvalid : cache.Valid) {key : CStr}
    {place : Place} (hplace : FirstOf key cache.nodes place) :
    (lruTouch cache place).Valid ∧ (lruTouch cache place).nodes.Perm cache.nodes := by
  have hperm := hplace.perm
  have hlength := hperm.length_eq
  refine ⟨⟨?_, hvalid.resident.perm hperm⟩, hperm.symm⟩
  simp only [lruTouch, lruAddFront, lruRemove, hvalid.size_eq]
  omega

theorem lruRemove_sublist {list : LRUCache} {place : Place}
    (hsplit : list.nodes = place.front ++ place.node :: place.back) :
    (lruRemove list place).nodes.Sublist list.nodes := by
  rw [hsplit]
  simp [lruRemove]

theorem lruRemove_valid {cache : LRUCache} (hvalid : cache.Valid) {place : Place}
    (hsplit : cache.nodes = place.front ++ place.node :: place.back) :
    (lruRemove cache place).Valid := by
  refine ⟨?_, hvalid.resident.subperm (lruRemove_sublist hsplit).subperm⟩
  simp only [lruRemove, hvalid.size_eq, hsplit, length_append, length_cons]
  omega

end LiteMultiKV.Cache
