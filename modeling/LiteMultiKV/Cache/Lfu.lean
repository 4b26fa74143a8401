import LiteMultiKV.Cache.Lru

/-!
# The frequency heap

The LFU policy keeps its nodes in `nodes[1..size]` of an array, as a binary
heap on the access counts.  Every operation is a write at the end or over one
index followed by a sift, and a sift only permutes the occupied indices, so
what the heap caches is followed through the list of its occupied cells.
-/

namespace LiteMultiKV.Cache

open List CText Dictionary

/-- `LFUCache`; index 0 is unused. -/
structure LFUCache where
  nodes : ℕ → Option EvictNode
  size : ℕ
  capacity : ℕ

def lfuInit (capacity : ℕ) : LFUCache where
  nodes := fun _ => none
  size := 0
  capacity := capacity

def lfuSwap (cache : LFUCache) (i j : ℕ) : LFUCache :=
  { cache with
    nodes := Function.update (Function.update cache.nodes i (cache.nodes j)) j
      (cache.nodes i) }

/-- The loop of `lfu_heapify_up`. -/
def heapifyUpLoop : ℕ → LFUCache → ℕ → Option LFUCache
  | 0, _, _ => none
  | fuel + 1, cache, idx =>
      if idx ≤ 1 then some cache
      else do
        let parent := idx / 2
        let above ← cache.nodes parent
        let own ← cache.nodes idx
        if above.accessCount ≤ own.accessCount then return cache
        else heapifyUpLoop fuel (lfuSwap cache parent idx) parent

def lfuHeapifyUp (cache : LFUCache) (idx : ℕ) : Option LFUCache :=
  heapifyUpLoop (idx + 1) cache idx

/-- One of the two comparisons that pick the smallest of a node and its
children. -/
def smaller (cache : LFUCache) (child smallest : ℕ) : Option ℕ :=
  if child ≤ cache.size then do
    let below ← cache.nodes child
    let least ← cache.nodes smallest
    return if below.accessCount < least.accessCount then child else smallest
  else some smallest

/-- The loop of `lfu_heapify_down`. -/
def heapifyDownLoop : ℕ → LFUCache → ℕ → Option LFUCache
  | 0, _, _ => none
  | fuel + 1, cache, idx => do
      let left ← smaller cache (idx * 2) idx
      let smallest ← smaller cache (idx * 2 + 1) left
      if smallest = idx then return cache
      else heapifyDownLoop fuel (lfuSwap cache smallest idx) smallest

def lfuHeapifyDown (cache : LFUCache) (idx : ℕ) : Option LFUCache :=
  heapifyDownLoop (cache.size + 1) cache idx

/-- A node added to a full heap is silently dropped. -/
def lfuAdd (cache : LFUCache) (node : EvictNode) : Option LFUCache :=
  if cache.capacity ≤ cache.size then some cache
  else
    let size := cache.size + 1
    lfuHeapifyUp
      { cache with size := size, nodes := Function.update cache.nodes size (some node) } size

/-- The last node takes the place of the one at `idx`. -/
def fillFromEnd (cache : LFUCache) (idx : ℕ) : LFUCache :=
  { cache with
    nodes := Function.update cache.nodes idx (cache.nodes cache.size)
    size := cache.size - 1 }

/-- The victim of a non-empty heap is its root. -/
def lfuEvict (cache : LFUCache) : Option (LFUCache × Option EvictNode) :=
  if cache.size = 0 then some (cache, none)
  else do
    let after ← lfuHeapifyDown (fillFromEnd cache 1) 1
    return (after, cache.nodes 1)

/-- `kvs_cache_lru_add` evicts from a full heap before it adds. -/
def lfuMakeRoom (cache : LFUCache) : Option LFUCache :=
  if cache.capacity ≤ cache.size then (lfuEvict cache).map Prod.fst else some cache

/-- The search for a key over `nodes[1..size]`. -/
def lfuFind (cache : LFUCache) (key : CStr) : Option ℕ :=
  (range' 1 cache.size).find? fun idx => (cache.nodes idx).any (EvictNode.hasKey key)

/-- The LFU branch of `kvs_cache_get` at the index that was found. -/
def lfuHit (cache : LFUCache) (idx : ℕ) : Option (LFUCache × Option CStr) := do
  let node ← cache.nodes idx
  let after ← lfuHeapifyDown
    { cache with
      nodes := Function.update cache.nodes idx
        (some { node with accessCount := node.accessCount + 1 }) } idx
  return (after, node.value)

/-! ## Occupied cells -/

/-- The nodes of the occupied cells in index order. -/
def LFUCache.residents (cache : LFUCache) : List EvictNode :=
  (range' 1 cache.size).filterMap cache.nodes

def LFUCache.Occupied (cache : LFUCache) (idx : ℕ) : Prop :=
  1 ≤ idx ∧ idx ≤ cache.size

/-- No occupied cell is a null pointer. -/
def LFUCache.Filled (cache : LFUCache) : Prop :=
  ∀ idx, cache.Occupied idx → ∃ node, cache.nodes idx = some node

theorem LFUCache.mem_residents {cache : LFUCache} {node : EvictNode} :
    node ∈ cache.residents ↔ ∃ idx, cache.Occupied idx ∧ cache.nodes idx = some node := by
  simp only [LFUCache.residents, mem_filterMap, mem_range'_1, LFUCache.Occupied]
  constructor <;> rintro ⟨idx, hidx, hnode⟩ <;> exact ⟨idx, by omega, hnode⟩

theorem residents_congr {left right : LFUCache} (hsize : left.size = right.size)
    (hnodes : ∀ idx, left.Occupied idx → left.nodes idx = right.nodes idx) :
    left.residents = right.residents := by
  unfold LFUCache.residents
  rw [← hsize]
  apply filterMap_congr
  intro idx hidx
  rw [mem_range'_1] at hidx
  exact hnodes idx ⟨hidx.1, by omega⟩

/-- The last occupied cell comes last. -/
theorem residents_succ {cache : LFUCache} {size : ℕ} (hsize : cache.size = size + 1)
    {node : EvictNode} (hlast : cache.nodes (size + 1) = some node) :
    cache.residents = { cache with size := size }.residents ++ [node] := by
  have hrange : range' 1 (size + 1) = range' 1 size ++ [1 + size] := range'_1_concat
  simp only [LFUCache.residents, hsize, hrange, filterMap_append]
  rw [Nat.add_comm 1 size]
  simp [hlast]

/-- The occupied cells of `after` are those of `before` in another order. -/
structure Rearranged (before after : LFUCache) : Prop where
  size_eq : after.size = before.size
  capacity_eq : after.capacity = before.capacity
  order : ∃ order : Equiv.Perm ℕ, (∀ idx, ¬before.Occupied idx → order idx = idx) ∧
    ∀ idx, after.nodes idx = before.nodes (order idx)

theorem Rearranged.refl (cache : LFUCache) : Rearranged cache cache :=
  ⟨rfl, rfl, Equiv.refl ℕ, fun _ _ => rfl, fun _ => rfl⟩

theorem Rearranged.trans {first second third : LFUCache} (hleft : Rearranged first second)
    (hright : Rearranged second third) : Rearranged first third := by
  obtain ⟨hsize, hcapacity, inner, hinner, hnodes⟩ := hleft
  obtain ⟨hsize', hcapacity', outer, houter, hnodes'⟩ := hright
  refine ⟨hsize'.trans hsize, hcapacity'.trans hcapacity, outer.trans inner, ?_, ?_⟩
  · intro idx hidx
    have hfixed : outer idx = idx := houter idx (by
      rwa [LFUCache.Occupied, hsize, ← LFUCache.Occupied])
    rw [Equiv.trans_apply, hfixed, hinner idx hidx]
  · intro idx
    rw [hnodes', hnodes, Equiv.trans_apply]

theorem nodes_lfuSwap (cache : LFUCache) (i j idx : ℕ) :
    (lfuSwap cache i j).nodes idx = cache.nodes (Equiv.swap i j idx) := by
  by_cases hright : idx = j
  · subst hright
    simp [lfuSwap]
  · by_cases hleft : idx = i
    · subst hleft
      simp [lfuSwap, Function.update_of_ne hright]
    · simp [lfuSwap, Function.update_of_ne hright, Function.update_of_ne hleft,
        Equiv.swap_apply_of_ne_of_ne hleft hright]

theorem rearranged_swap {cache : LFUCache} {i j : ℕ} (hi : cache.Occupied i)
    (hj : cache.Occupied j) : Rearranged cache (lfuSwap cache i j) := by
  refine ⟨rfl, rfl, Equiv.swap i j, fun idx hidx => ?_, nodes_lfuSwap cache i j⟩
  apply Equiv.swap_apply_of_ne_of_ne
  · rintro rfl
    exact hidx hi
  · rintro rfl
    exact hidx hj

theorem Rearranged.order_occupied {before : LFUCache} {order : Equiv.Perm ℕ}
    (hfixed : ∀ idx, ¬before.Occupied idx → order idx = idx) {idx : ℕ}
    (hidx : before.Occupied idx) : before.Occupied (order idx) := by
  by_contra houtside
  have hstay := order.injective (hfixed _ houtside)
  rw [hstay] at houtside
  exact houtside hidx

theorem Rearranged.filled {before after : LFUCache} (hrearranged : Rearranged before after)
    (hfilled : before.Filled) : after.Filled := by
  obtain ⟨hsize, -, order, hfixed, hnodes⟩ := hrearranged
  intro idx hidx
  rw [LFUCache.Occupied, hsize, ← LFUCache.Occupied] at hidx
  rw [hnodes]
  exact hfilled _ (Rearranged.order_occupied hfixed hidx)

theorem Rearranged.residents_perm {before after : LFUCache}
    (hrearranged : Rearranged before after) :
    after.residents.Perm before.residents := by
  obtain ⟨hsize, -, order, hfixed, hnodes⟩ := hrearranged
  have hcomp : after.nodes = before.nodes ∘ order := funext hnodes
  have hrange : ((range' 1 before.size).map order).Perm (range' 1 before.size) := by
    rw [perm_ext_iff_of_nodup (List.Nodup.map order.injective nodup_range') nodup_range']
    intro idx
    have hoccupied : ∀ other, other ∈ range' 1 before.size ↔ before.Occupied other := by
      intro other
      rw [mem_range'_1, LFUCache.Occupied]
      omega
    simp only [mem_map, hoccupied]
    constructor
    · rintro ⟨other, hother, rfl⟩
      exact Rearranged.order_occupied hfixed hother
    · intro hidx
      refine ⟨order.symm idx, ?_, order.apply_symm_apply idx⟩
      by_contra houtside
      have hstay := hfixed _ houtside
      rw [order.apply_symm_apply] at hstay
      exact houtside (hstay ▸ hidx)
  rw [LFUCache.residents, hsize, hcomp, ← filterMap_map]
  exact hrange.filterMap _

/-! ## Sifting -/

theorem heapifyUpLoop_spec : ∀ (fuel : ℕ) (cache : LFUCache) (idx : ℕ), cache.Filled →
    idx ≤ cache.size → idx < fuel →
    ∃ after, heapifyUpLoop fuel cache idx = some after ∧ Rearranged cache after
  | 0, _, _, _, _, hfuel => absurd hfuel (Nat.not_lt_zero _)
  | fuel + 1, cache, idx, hfilled, hsize, hfuel => by
      by_cases hroot : idx ≤ 1
      · exact ⟨cache, by simp [heapifyUpLoop, hroot], Rearranged.refl cache⟩
      · have hidx : cache.Occupied idx := ⟨by omega, hsize⟩
        have hparent : cache.Occupied (idx / 2) := ⟨by omega, by omega⟩
        obtain ⟨above, habove⟩ := hfilled _ hparent
        obtain ⟨own, hown⟩ := hfilled _ hidx
        by_cases hordered : above.accessCount ≤ own.accessCount
        · exact ⟨cache, by simp [heapifyUpLoop, hroot, habove, hown, hordered],
            Rearranged.refl cache⟩
        · have hswap := rearranged_swap hparent hidx
          obtain ⟨after, hafter, hrest⟩ := heapifyUpLoop_spec fuel _ (idx / 2)
            (hswap.filled hfilled) hparent.2 (by omega)
          exact ⟨after, by simp [heapifyUpLoop, hroot, habove, hown, hordered, hafter],
            hswap.trans hrest⟩

theorem smaller_spec {cache : LFUCache} (hfilled : cache.Filled) (child smallest : ℕ)
    (hchild : 1 ≤ child) (hsmallest : child ≤ cache.size → cache.Occupied smallest) :
    ∃ least, smaller cache child smallest = some least ∧
      (least = smallest ∨ least = child ∧ child ≤ cache.size) := by
  by_cases hrange : child ≤ cache.size
  · obtain ⟨below, hbelow⟩ := hfilled child ⟨hchild, hrange⟩
    obtain ⟨least, hleast⟩ := hfilled smallest (hsmallest hrange)
    refine ⟨if below.accessCount < least.accessCount then child else smallest,
      by simp [smaller, hrange, hbelow, hleast], ?_⟩
    split
    · exact Or.inr ⟨rfl, hrange⟩
    · exact Or.inl rfl
  · exact ⟨smallest, by simp [smaller, hrange], Or.inl rfl⟩

/-- The index moves down the heap, so the distance to its end bounds the loop. -/
theorem heapifyDownLoop_spec : ∀ (fuel : ℕ) (cache : LFUCache) (idx : ℕ), cache.Filled →
    1 ≤ idx → 0 < fuel → cache.size < fuel + idx →
    ∃ after, heapifyDownLoop fuel cache idx = some after ∧ Rearranged cache after
  | 0, _, _, _, _, hfuel, _ => absurd hfuel (Nat.lt_irrefl _)
  | fuel + 1, cache, idx, hfilled, hidx, _, hbound => by
      obtain ⟨left, hleft, hleftCases⟩ := smaller_spec hfilled (idx * 2) idx
        (by omega) fun hle => ⟨hidx, by omega⟩
      obtain ⟨smallest, hsmallest, hcases⟩ := smaller_spec hfilled
        (idx * 2 + 1) left (by omega) fun hle => ⟨by omega, by omega⟩
      by_cases hstop : smallest = idx
      · exact ⟨cache, by simp [heapifyDownLoop, hleft, hsmallest, hstop],
          Rearranged.refl cache⟩
      · have hlow : idx < smallest := by omega
        have hsmall : cache.Occupied smallest := ⟨by omega, by omega⟩
        have hhigh := hsmall.2
        have hown : cache.Occupied idx := ⟨hidx, by omega⟩
        have hswap := rearranged_swap hsmall hown
        obtain ⟨after, hafter, hrest⟩ := heapifyDownLoop_spec fuel
          (lfuSwap cache smallest idx) smallest (hswap.filled hfilled) (by omega) (by omega)
          (by simp only [lfuSwap]; omega)
        exact ⟨after, by simp [heapifyDownLoop, hleft, hsmallest, hstop, hafter],
          hswap.trans hrest⟩

theorem lfuHeapifyDown_spec {cache : LFUCache} (hfilled : cache.Filled) {idx : ℕ}
    (hidx : 1 ≤ idx) :
    ∃ after, lfuHeapifyDown cache idx = some after ∧ Rearranged cache after :=
  heapifyDownLoop_spec _ cache idx hfilled hidx (by omega) (by omega)

/-! ## The invariant of the heap -/

structure LFUCache.Valid (cache : LFUCache) : Prop where
  size_le : cache.size ≤ cache.capacity
  filled : cache.Filled
  resident : Resident cache.residents

theorem lfuInit_valid (capacity : ℕ) : (lfuInit capacity).Valid where
  size_le := Nat.zero_le _
  filled := by
    intro idx hidx
    have hle : idx ≤ 0 := hidx.2
    have hone := hidx.1
    omega
  resident := resident_nil

/-- The part of the invariant that does not depend on what the nodes hold. -/
structure LFUCache.Sound (cache : LFUCache) : Prop where
  size_le : cache.size ≤ cache.capacity
  filled : cache.Filled

theorem LFUCache.Valid.sound {cache : LFUCache} (hvalid : cache.Valid) : cache.Sound :=
  ⟨hvalid.size_le, hvalid.filled⟩

theorem LFUCache.Sound.valid {cache : LFUCache} (hsound : cache.Sound)
    (hresident : Resident cache.residents) : cache.Valid :=
  ⟨hsound.size_le, hsound.filled, hresident⟩

theorem LFUCache.Sound.rearranged {before after : LFUCache} (hsound : before.Sound)
    (hrearranged : Rearranged before after) : after.Sound where
  size_le := by rw [hrearranged.size_eq, hrearranged.capacity_eq]; exact hsound.size_le
  filled := hrearranged.filled hsound.filled

/-! ## What the operations do to the occupied cells -/

/-- Taking out the node at `idx` loses exactly that node. -/
theorem fillFromEnd_perm {cache : LFUCache} (hfilled : cache.Filled) {idx : ℕ}
    (hidx : cache.Occupied idx) {node : EvictNode} (hnode : cache.nodes idx = some node) :
    (fillFromEnd cache idx).Filled ∧
      cache.residents.Perm (node :: (fillFromEnd cache idx).residents) := by
  obtain ⟨size, hsize⟩ : ∃ size, cache.size = size + 1 :=
    ⟨cache.size - 1, by have := hidx.1; have := hidx.2; omega⟩
  have hlastOccupied : cache.Occupied (size + 1) := ⟨by omega, by omega⟩
  have hswap := rearranged_swap hidx hlastOccupied
  -- `lfuSwap` differs only in the cell that is given up
  have hkept : (fillFromEnd cache idx).residents =
      { lfuSwap cache idx (size + 1) with size := size }.residents := by
    apply residents_congr
    · simp [fillFromEnd, hsize]
    · intro other hother
      have hother : other ≠ size + 1 := by
        have hle : other ≤ cache.size - 1 := hother.2
        omega
      simp [fillFromEnd, lfuSwap, hsize, Function.update_of_ne hother]
  refine ⟨?_, ?_⟩
  · intro other hother
    have hle : other ≤ cache.size - 1 := hother.2
    by_cases heq : other = idx
    · subst heq
      simpa [fillFromEnd] using hfilled _ (⟨by have := hidx.1; have := hidx.2; omega, le_refl _⟩ :
        cache.Occupied cache.size)
    · simpa [fillFromEnd, Function.update_of_ne heq] using
        hfilled other ⟨hother.1, by omega⟩
  · have hend : (lfuSwap cache idx (size + 1)).nodes (size + 1) = some node := by
      simp [lfuSwap, hnode]
    calc cache.residents
        ~ (lfuSwap cache idx (size + 1)).residents := hswap.residents_perm.symm
      _ = (fillFromEnd cache idx).residents ++ [node] := by
          rw [hkept]
          exact residents_succ (hswap.size_eq.trans hsize) hend
      _ ~ node :: (fillFromEnd cache idx).residents := perm_append_singleton _ _

/-- What removing the node at `idx` leaves, as deletion and eviction do it. -/
theorem lfuDrop_perm {cache : LFUCache} (hsound : cache.Sound) {idx : ℕ}
    (hidx : cache.Occupied idx) {node : EvictNode} (hnode : cache.nodes idx = some node) :
    ∃ after, lfuHeapifyDown (fillFromEnd cache idx) idx = some after ∧ after.Sound ∧
      after.size + 1 = cache.size ∧ after.capacity = cache.capacity ∧
      cache.residents.Perm (node :: after.residents) := by
  obtain ⟨hfilled, hperm⟩ := fillFromEnd_perm hsound.filled hidx hnode
  obtain ⟨after, hafter, hrearranged⟩ := lfuHeapifyDown_spec hfilled hidx.1
  have hsize : (fillFromEnd cache idx).size ≤ (fillFromEnd cache idx).capacity := by
    have := hsound.size_le
    simp only [fillFromEnd]
    omega
  refine ⟨after, hafter, LFUCache.Sound.rearranged ⟨hsize, hfilled⟩ hrearranged,
    ?_, hrearranged.capacity_eq, hperm.trans (hrearranged.residents_perm.symm.cons node)⟩
  have hoccupied := hidx
  simp only [LFUCache.Occupied] at hoccupied
  rw [hrearranged.size_eq]
  simp only [fillFromEnd]
  omega

theorem lfuEvict_perm {cache : LFUCache} (hsound : cache.Sound) (hsize : 0 < cache.size) :
    ∃ after victim, lfuEvict cache = some (after, some victim) ∧ after.Sound ∧
      after.size + 1 = cache.size ∧ after.capacity = cache.capacity ∧
      cache.residents.Perm (victim :: after.residents) := by
  have hroot : cache.Occupied 1 := ⟨le_refl _, hsize⟩
  obtain ⟨victim, hvictim⟩ := hsound.filled 1 hroot
  obtain ⟨after, hafter, hrest⟩ := lfuDrop_perm hsound hroot hvictim
  exact ⟨after, victim, by simp [lfuEvict, hsize.ne', hafter, hvictim], hrest⟩

/-- Room is made at the cost of one node, and only in a full heap. -/
theorem lfuMakeRoom_perm {cache : LFUCache} (hsound : cache.Sound)
    (hcapacity : 0 < cache.capacity) :
    ∃ after, lfuMakeRoom cache = some after ∧ after.Sound ∧ after.size < after.capacity ∧
      after.capacity = cache.capacity ∧
      (if cache.size < cache.capacity then after = cache
        else ∃ victim, cache.residents.Perm (victim :: after.residents)) := by
  have hle := hsound.size_le
  by_cases hfull : cache.capacity ≤ cache.size
  · obtain ⟨after, victim, hevict, hafter, hsize, hsame, hperm⟩ :=
      lfuEvict_perm hsound (by omega)
    refine ⟨after, by simp [lfuMakeRoom, hfull, hevict], hafter, by omega, hsame, ?_⟩
    rw [if_neg (by omega)]
    exact ⟨victim, hperm⟩
  · refine ⟨cache, by simp [lfuMakeRoom, hfull], hsound, by omega, rfl, ?_⟩
    rw [if_pos (by omega)]

/-- A node behind the last one leaves no occupied cell null. -/
theorem LFUCache.Filled.grow {cache : LFUCache} (hfilled : cache.Filled) (node : EvictNode) :
    LFUCache.Filled
      { cache with
        size := cache.size + 1
        nodes := Function.update cache.nodes (cache.size + 1) (some node) } := by
  intro idx hidx
  by_cases hlast : idx = cache.size + 1
  · exact ⟨node, by simp [hlast]⟩
  · have hle : idx ≤ cache.size + 1 := hidx.2
    obtain ⟨own, hown⟩ := hfilled idx ⟨hidx.1, by omega⟩
    exact ⟨own, by simp [Function.update_of_ne hlast, hown]⟩

theorem lfuAdd_perm {cache : LFUCache} (hsound : cache.Sound)
    (hroom : cache.size < cache.capacity) (node : EvictNode) :
    ∃ after, lfuAdd cache node = some after ∧ after.Sound ∧
      after.size = cache.size + 1 ∧ after.capacity = cache.capacity ∧
      after.residents.Perm (node :: cache.residents) := by
  let grown : LFUCache :=
    { cache with
      size := cache.size + 1
      nodes := Function.update cache.nodes (cache.size + 1) (some node) }
  have hlast : grown.nodes (cache.size + 1) = some node := by simp [grown]
  have hbelow : ∀ idx, idx ≤ cache.size → grown.nodes idx = cache.nodes idx := by
    intro idx hidx
    exact Function.update_of_ne (by omega) _ _
  have hgrown : grown.residents = cache.residents ++ [node] := by
    rw [residents_succ rfl hlast]
    congr 1
    exact residents_congr rfl fun idx hidx => hbelow idx hidx.2
  have hperm : grown.residents.Perm (node :: cache.residents) := by
    rw [hgrown]
    exact perm_append_singleton _ _
  have hfilled : grown.Filled := hsound.filled.grow node
  obtain ⟨after, hafter, hrearranged⟩ := heapifyUpLoop_spec (cache.size + 2) grown
    (cache.size + 1) hfilled (le_refl _) (by omega)
  have hsoundGrown : grown.Sound := ⟨hroom, hfilled⟩
  refine ⟨after, ?_, hsoundGrown.rearranged hrearranged,
    hrearranged.size_eq, hrearranged.capacity_eq,
    hrearranged.residents_perm.trans hperm⟩
  simp only [lfuAdd, Nat.not_le.2 hroom, if_false, lfuHeapifyUp]
  exact hafter

/-- The same node with one more access. -/
def EvictNode.accessed (node : EvictNode) : EvictNode :=
  { node with accessCount := node.accessCount + 1 }

/-- A hit counts the access of one node. -/
theorem lfuHit_perm {cache : LFUCache} (hsound : cache.Sound) {idx : ℕ}
    (hidx : cache.Occupied idx) {node : EvictNode} (hnode : cache.nodes idx = some node) :
    ∃ after rest, lfuHit cache idx = some (after, node.value) ∧ after.Sound ∧
      after.size = cache.size ∧ after.capacity = cache.capacity ∧
      cache.residents.Perm (node :: rest) ∧ after.residents.Perm (node.accessed :: rest) := by
  let counted : LFUCache :=
    { cache with nodes := Function.update cache.nodes idx (some node.accessed) }
  have hown : counted.nodes idx = some node.accessed := by simp [counted]
  have hfilled : counted.Filled := by
    intro other hother
    by_cases heq : other = idx
    · exact ⟨_, heq ▸ hown⟩
    · obtain ⟨own, hown⟩ := hsound.filled other hother
      exact ⟨own, by simp [counted, Function.update_of_ne heq, hown]⟩
  -- without the node at `idx` the two heaps hold the same
  have hrest : (fillFromEnd counted idx).residents = (fillFromEnd cache idx).residents := by
    refine residents_congr rfl fun other hother => ?_
    have hle : other ≤ cache.size - 1 := hother.2
    have hpositive := hidx.1
    have hbound := hidx.2
    by_cases heq : other = idx
    · have hlast : cache.size ≠ idx := by omega
      simp [fillFromEnd, counted, heq, Function.update_of_ne hlast]
    · simp [fillFromEnd, counted, Function.update_of_ne heq]
  obtain ⟨after, hafter, hrearranged⟩ := lfuHeapifyDown_spec hfilled hidx.1
  have hsoundCounted : counted.Sound := ⟨hsound.size_le, hfilled⟩
  refine ⟨after, (fillFromEnd cache idx).residents, ?_,
    hsoundCounted.rearranged hrearranged, hrearranged.size_eq,
    hrearranged.capacity_eq, (fillFromEnd_perm hsound.filled hidx hnode).2, ?_⟩
  · have hdown : lfuHeapifyDown
        { cache with
          nodes := Function.update cache.nodes idx
            (some { node with accessCount := node.accessCount + 1 }) } idx = some after := hafter
    simp [lfuHit, hnode, hdown]
  · exact hrearranged.residents_perm.trans (hrest ▸ (fillFromEnd_perm hfilled hidx hown).2)

/-! ## The same for distinct keys -/

theorem lfuDrop_spec {cache : LFUCache} (hvalid : cache.Valid) {idx : ℕ}
    (hidx : cache.Occupied idx) {node : EvictNode} (hnode : cache.nodes idx = some node) :
    ∃ after, lfuHeapifyDown (fillFromEnd cache idx) idx = some after ∧ after.Valid ∧
      after.size + 1 = cache.size ∧ after.capacity = cache.capacity ∧
      cache.residents.Perm (node :: after.residents) := by
  obtain ⟨after, hafter, hsound, hsize, hcapacity, hperm⟩ :=
    lfuDrop_perm hvalid.sound hidx hnode
  have hresident : Resident after.residents :=
    hvalid.resident.subperm ((sublist_cons_self _ _).subperm.trans hperm.symm.subperm)
  exact ⟨after, hafter, hsound.valid hresident, hsize, hcapacity, hperm⟩

theorem lfuMakeRoom_spec {cache : LFUCache} (hvalid : cache.Valid)
    (hcapacity : 0 < cache.capacity) :
    ∃ after, lfuMakeRoom cache = some after ∧ after.Valid ∧ after.size < after.capacity ∧
      after.capacity = cache.capacity ∧ after.residents.Subperm cache.residents := by
  obtain ⟨after, hafter, hsound, hroom, hsame, hloss⟩ :=
    lfuMakeRoom_perm hvalid.sound hcapacity
  have hsubperm : after.residents.Subperm cache.residents := by
    split at hloss
    · rw [hloss]
    · obtain ⟨victim, hperm⟩ := hloss
      exact (sublist_cons_self _ _).subperm.trans hperm.symm.subperm
  exact ⟨after, hafter, hsound.valid (hvalid.resident.subperm hsubperm), hroom, hsame, hsubperm⟩

theorem lfuAdd_spec {cache : LFUCache} (hvalid : cache.Valid)
    (hroom : cache.size < cache.capacity) (node : EvictNode) {key value : CStr}
    (hkey : node.key = some key) (hvalue : node.value = some value)
    (hfresh : denote (cachedOf cache.residents) key = none) :
    ∃ after, lfuAdd cache node = some after ∧ after.Valid ∧
      after.size = cache.size + 1 ∧ after.capacity = cache.capacity ∧
      after.residents.Perm (node :: cache.residents) := by
  obtain ⟨after, hafter, hsound, hsize, hcapacity, hperm⟩ := lfuAdd_perm hvalid.sound hroom node
  have hresident := (hvalid.resident.cons hkey hvalue hfresh).perm hperm.symm
  exact ⟨after, hafter, hsound.valid hresident, hsize, hcapacity, hperm⟩

/-- A hit leaves the cached pairs as they are. -/
theorem lfuHit_spec {cache : LFUCache} (hvalid : cache.Valid) {idx : ℕ}
    (hidx : cache.Occupied idx) {node : EvictNode} (hnode : cache.nodes idx = some node) :
    ∃ after, lfuHit cache idx = some (after, node.value) ∧ after.Valid ∧
      after.capacity = cache.capacity ∧
      (cachedOf after.residents).Perm (cachedOf cache.residents) := by
  obtain ⟨after, rest, hhit, hsound, -, hcapacity, hbefore, hafter⟩ :=
    lfuHit_perm hvalid.sound hidx hnode
  have hresident : Resident (node.accessed :: rest) := by
    obtain ⟨hfilled, hdistinct⟩ := hvalid.resident.perm hbefore
    refine ⟨fun other hother => ?_, pairwise_cons.2 (pairwise_cons.1 hdistinct)⟩
    rcases mem_cons.1 hother with rfl | hother
    · exact hfilled node mem_cons_self
    · exact hfilled other (mem_cons_of_mem _ hother)
  have hcached : cachedOf (node.accessed :: rest) = cachedOf (node :: rest) := rfl
  exact ⟨after, hhit, hsound.valid (hresident.perm hafter.symm), hcapacity,
    (cachedOf_perm hafter).trans (hcached ▸ (cachedOf_perm hbefore).symm)⟩

/-! ## Finding a node -/

theorem lfuFind_eq_none {cache : LFUCache} {key : CStr} (hfind : lfuFind cache key = none) :
    ∀ node ∈ cache.residents, node.key ≠ some key := by
  intro node hnode hkey
  obtain ⟨idx, hidx, hcell⟩ := LFUCache.mem_residents.1 hnode
  have hmem : idx ∈ range' 1 cache.size := by
    have := hidx.1
    have := hidx.2
    rw [mem_range'_1]
    omega
  have hfalse := find?_eq_none.1 hfind idx hmem
  simp [hcell, hkey] at hfalse

theorem lfuFind_eq_some {cache : LFUCache} {key : CStr} {idx : ℕ}
    (hfind : lfuFind cache key = some idx) :
    cache.Occupied idx ∧ ∃ node, cache.nodes idx = some node ∧ node.key = some key := by
  have hmem := mem_of_find?_eq_some hfind
  have htest := find?_some hfind
  rw [mem_range'_1] at hmem
  rw [Option.any_eq_true] at htest
  obtain ⟨node, hnode, hkey⟩ := htest
  exact ⟨⟨hmem.1, by omega⟩, node, hnode, EvictNode.hasKey_iff.1 hkey⟩

end LiteMultiKV.Cache
