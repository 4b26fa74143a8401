import LiteMultiKV.Cache.Manager
import LiteMultiKV.Core.BinaryHeap
import LiteMultiKV.Core.Run

/-!
# Heap order under the LFU policy

Lookups and insertions keep the access counts in heap order.  A deletion moves the last
leaf to the place of the deleted node and sifts it towards the leaves only, so the order
is kept as long as that leaf is not smaller than its new parent.
-/

namespace LiteMultiKV.Cache

open List BinaryHeap CText Memory Numeric Run

/-- The access count at an index. -/
def LFUCache.count (cache : LFUCache) (idx : ℕ) : ℕ :=
  ((cache.nodes idx).map EvictNode.accessCount).getD 0

variable {cache after : LFUCache}

theorem count_of_node {idx : ℕ} {node : EvictNode} (hnode : cache.nodes idx = some node) :
    cache.count idx = node.accessCount := by
  simp [LFUCache.count, hnode]

theorem count_lfuSwap (cache : LFUCache) (i j : ℕ) :
    (lfuSwap cache i j).count = cache.count ∘ Equiv.swap i j := by
  funext idx
  rw [LFUCache.count, nodes_lfuSwap]
  rfl

/-! ## Sifting -/

/-- The comparison keeps the smaller of the two nodes. -/
theorem smaller_cases {child smallest least : ℕ}
    (hsmaller : smaller cache child smallest = some least) :
    (least = smallest ∧ (child ≤ cache.size → cache.count smallest ≤ cache.count child)) ∨
      (least = child ∧ child ≤ cache.size ∧ cache.count child < cache.count smallest) := by
  unfold smaller at hsmaller
  split at hsmaller
  next hrange =>
    simp only [Option.bind_eq_bind, Option.bind_eq_some_iff, Option.pure_def,
      Option.some.injEq] at hsmaller
    obtain ⟨below, hbelow, own, hown, rfl⟩ := hsmaller
    rw [count_of_node hbelow, count_of_node hown]
    split
    next hlt => exact .inr ⟨rfl, hrange, hlt⟩
    next hge => exact .inl ⟨rfl, fun _ => not_lt.1 hge⟩
  next hrange =>
    rw [Option.some.injEq] at hsmaller
    exact .inl ⟨hsmaller.symm, fun hle => absurd hle hrange⟩

theorem heapifyDownLoop_ordered (fuel : ℕ) {cache : LFUCache} {idx : ℕ} (hidx : 1 ≤ idx)
    (hexcept : ExceptBelow cache.size cache.count idx)
    (hloop : heapifyDownLoop fuel cache idx = some after) : Ordered after.size after.count := by
  induction fuel generalizing cache idx with
  | zero => cases hloop
  | succ fuel ih =>
      simp only [heapifyDownLoop, Option.bind_eq_bind, Option.bind_eq_some_iff] at hloop
      obtain ⟨left, hleft, smallest, hsmallest, hrest⟩ := hloop
      have hleftCases := smaller_cases hleft
      have hcases := smaller_cases hsmallest
      have hchildren : ∀ i, i / 2 = idx → i = idx * 2 ∨ i = idx * 2 + 1 := by
        intro i hi
        omega
      -- the chosen node is not greater than the node and its children
      have hleast : ∀ i, i ≤ cache.size → i / 2 = idx → cache.count smallest ≤ cache.count i := by
        intro i hle hparent
        rcases hcases with ⟨rfl, hright⟩ | ⟨rfl, hrange, hright⟩ <;>
          rcases hleftCases with ⟨rfl, hdown⟩ | ⟨rfl, hrange', hdown⟩ <;>
          rcases hchildren i hparent with rfl | rfl <;>
          omega
      split at hrest
      next hstop =>
        rw [Option.pure_def, Option.some.injEq] at hrest
        subst hrest
        rw [hstop] at hleast
        exact hexcept.finish fun i _ hle hparent => hleast i hle hparent
      next hmove =>
        obtain ⟨hparent, hsize, hless⟩ : smallest / 2 = idx ∧ smallest ≤ cache.size ∧
            cache.count smallest < cache.count idx := by
          rcases hcases with ⟨rfl, -⟩ | ⟨rfl, hrange, hright⟩ <;>
            rcases hleftCases with ⟨rfl, hdown⟩ | ⟨rfl, hrange', hdown⟩ <;>
            omega
        have hmoved := hexcept.move hidx hparent hsize hless hleast
        rw [← count_lfuSwap] at hmoved
        exact ih (by omega) hmoved hrest

theorem heapifyUpLoop_ordered (fuel : ℕ) {cache : LFUCache} {idx : ℕ}
    (hexcept : ExceptAbove cache.size cache.count idx) (hidx : idx ≤ cache.size)
    (hloop : heapifyUpLoop fuel cache idx = some after) : Ordered after.size after.count := by
  induction fuel generalizing cache idx with
  | zero => cases hloop
  | succ fuel ih =>
      rw [heapifyUpLoop] at hloop
      split at hloop
      next hroot =>
        rw [Option.some.injEq] at hloop
        subst hloop
        exact hexcept.finish fun hlarge => absurd hlarge (by omega)
      next hroot =>
        simp only [Option.bind_eq_bind, Option.bind_eq_some_iff] at hloop
        obtain ⟨above, habove, own, hown, hrest⟩ := hloop
        split at hrest
        next hstop =>
          rw [Option.pure_def, Option.some.injEq] at hrest
          subst hrest
          refine hexcept.finish fun _ => ?_
          rwa [count_of_node habove, count_of_node hown]
        next hmove =>
          have hless : cache.count idx < cache.count (idx / 2) := by
            rw [count_of_node habove, count_of_node hown]
            omega
          have hmoved := hexcept.move (by omega) hidx hless
          rw [← count_lfuSwap] at hmoved
          have hparent : idx / 2 ≤ (lfuSwap cache (idx / 2) idx).size := by
            simp only [lfuSwap]
            omega
          exact ih hmoved hparent hrest

/-- A sift towards the leaves ends in heap order. -/
theorem lfuHeapifyDown_ordered (hfilled : cache.Filled) {idx : ℕ} (hidx : 1 ≤ idx)
    (hexcept : ExceptBelow cache.size cache.count idx) :
    ∃ after, lfuHeapifyDown cache idx = some after ∧ Rearranged cache after ∧
      Ordered after.size after.count := by
  obtain ⟨after, hdown, hrearranged⟩ := lfuHeapifyDown_spec hfilled hidx
  exact ⟨after, hdown, hrearranged, heapifyDownLoop_ordered _ hidx hexcept hdown⟩

/-- A sift towards the root ends in heap order. -/
theorem lfuHeapifyUp_ordered (hfilled : cache.Filled) {idx : ℕ} (hidx : idx ≤ cache.size)
    (hexcept : ExceptAbove cache.size cache.count idx) :
    ∃ after, lfuHeapifyUp cache idx = some after ∧ Rearranged cache after ∧
      Ordered after.size after.count := by
  obtain ⟨after, hup, hrearranged⟩ :=
    heapifyUpLoop_spec (idx + 1) cache idx hfilled hidx (Nat.lt_succ_self idx)
  exact ⟨after, hup, hrearranged, heapifyUpLoop_ordered _ hexcept hidx hup⟩

/-- Each sift repairs the one defect it is meant for, wherever it is, and only
permutes the nodes.  A sift towards the leaves may start behind the last node. -/
theorem sifts_repair (hfilled : cache.Filled) :
    (∀ idx, 1 ≤ idx → ExceptBelow cache.size cache.count idx →
      ∃ after, lfuHeapifyDown cache idx = some after ∧ Ordered after.size after.count ∧
        after.residents.Perm cache.residents ∧ Rearranged cache after) ∧
    ∀ idx ≤ cache.size, ExceptAbove cache.size cache.count idx →
      ∃ after, lfuHeapifyUp cache idx = some after ∧ Ordered after.size after.count ∧
        after.residents.Perm cache.residents ∧ Rearranged cache after := by
  constructor
  · intro idx hidx hexcept
    obtain ⟨after, hdown, hrearranged, hordered⟩ := lfuHeapifyDown_ordered hfilled hidx hexcept
    exact ⟨after, hdown, hordered, hrearranged.residents_perm, hrearranged⟩
  · intro idx hidx hexcept
    obtain ⟨after, hup, hrearranged, hordered⟩ := lfuHeapifyUp_ordered hfilled hidx hexcept
    exact ⟨after, hup, hordered, hrearranged.residents_perm, hrearranged⟩

/-- Counts 5, 1 and 2: the root is greater than its children. -/
def heavyRoot : LFUCache where
  nodes := fun idx =>
    ([none, some 5, some 1, some 2].getD idx none).map fun count =>
      { key := none, value := none, accessCount := count }
  size := 3
  capacity := 3

theorem heavyRoot_filled : heavyRoot.Filled := by
  intro idx hidx
  obtain ⟨hpositive, hsize⟩ := hidx
  have hbound : idx ≤ 3 := hsize
  interval_cases idx <;> exact ⟨_, rfl⟩

theorem sifts_repair_heavyRoot :
    ExceptBelow heavyRoot.size heavyRoot.count 1 ∧
      ∃ after, lfuHeapifyDown heavyRoot 1 = some after ∧ Ordered after.size after.count ∧
        after.residents.Perm heavyRoot.residents ∧ Rearranged heavyRoot after := by
  have hexcept : ExceptBelow heavyRoot.size heavyRoot.count 1 := by
    constructor
    · intro i hi hle hparent
      have hbound : i ≤ 3 := hle
      omega
    · intro i _ _ _ hroot
      omega
  exact ⟨hexcept, (sifts_repair heavyRoot_filled).1 1 le_rfl hexcept⟩

/-! ## The operations -/

/-- The invariant of the heap. -/
structure LFUCache.Heap (cache : LFUCache) : Prop where
  size_le : cache.size ≤ cache.capacity
  filled : cache.Filled
  ordered : Ordered cache.size cache.count

theorem lfuInit_heap (capacity : ℕ) : (lfuInit capacity).Heap where
  size_le := Nat.zero_le _
  filled := (lfuInit_valid capacity).filled
  ordered := by
    intro i hi hle
    have hzero : i ≤ 0 := hle
    omega

/-- A sift towards the leaves restores the heap. -/
theorem heap_of_down {cache : LFUCache} (hfilled : cache.Filled)
    (hsize : cache.size ≤ cache.capacity) {idx : ℕ} (hidx : 1 ≤ idx)
    (hexcept : ExceptBelow cache.size cache.count idx) :
    ∃ after, lfuHeapifyDown cache idx = some after ∧ after.Heap ∧
      after.size = cache.size ∧ after.capacity = cache.capacity := by
  obtain ⟨after, hdown, hrearranged, hordered⟩ := lfuHeapifyDown_ordered hfilled hidx hexcept
  refine ⟨after, hdown, ⟨?_, hrearranged.filled hfilled, hordered⟩, hrearranged.size_eq,
    hrearranged.capacity_eq⟩
  rw [hrearranged.size_eq, hrearranged.capacity_eq]
  exact hsize

theorem lfuHit_heap (hheap : cache.Heap) {idx : ℕ} (hidx : cache.Occupied idx) :
    ∃ after value, lfuHit cache idx = some (after, value) ∧ after.Heap ∧
      after.capacity = cache.capacity := by
  obtain ⟨node, hnode⟩ := hheap.filled idx hidx
  let counted : LFUCache :=
    { cache with
      nodes := Function.update cache.nodes idx
        (some { node with accessCount := node.accessCount + 1 }) }
  have hfilled : counted.Filled := by
    intro other hother
    by_cases heq : other = idx
    · exact ⟨_, by simp [counted, heq]; rfl⟩
    · obtain ⟨own, hown⟩ := hheap.filled other hother
      exact ⟨own, by simp [counted, Function.update_of_ne heq, hown]⟩
  have hother : ∀ i, i ≠ idx → counted.count i = cache.count i := by
    intro i hi
    simp [LFUCache.count, counted, hi]
  have hown : counted.count idx = cache.count idx + 1 := by
    simp [LFUCache.count, counted, hnode]
  have hexcept : ExceptBelow counted.size counted.count idx := by
    constructor
    · intro i hi hle hparent
      have horder := hheap.ordered i hi hle
      rw [hother _ hparent]
      by_cases heq : i = idx
      · rw [heq, hown]
        rw [heq] at horder
        omega
      · rw [hother i heq]
        exact horder
    · intro i hi hle hparent hlarge
      have hup := hheap.ordered idx hlarge hidx.2
      have hdown := hheap.ordered i hi hle
      rw [hparent] at hdown
      rw [hother _ (by omega), hother i (by omega)]
      exact hup.trans hdown
  obtain ⟨after, hdown, hafter, -, hcapacity⟩ :=
    heap_of_down hfilled hheap.size_le hidx.1 hexcept
  refine ⟨after, node.value, ?_, hafter, hcapacity⟩
  have hdown' : lfuHeapifyDown
      { cache with
        nodes := Function.update cache.nodes idx
          (some { node with accessCount := node.accessCount + 1 }) } idx = some after := hdown
  simp [lfuHit, hnode, hdown']

/-- A deletion needs the last leaf not to be smaller than the parent it gets. -/
theorem lfuDrop_heap (hheap : cache.Heap) {idx : ℕ} (hidx : cache.Occupied idx)
    (hfits : 1 < idx → idx < cache.size → cache.count (idx / 2) ≤ cache.count cache.size) :
    ∃ after, lfuHeapifyDown (fillFromEnd cache idx) idx = some after ∧ after.Heap ∧
      after.size + 1 = cache.size ∧ after.capacity = cache.capacity := by
  obtain ⟨node, hnode⟩ := hheap.filled idx hidx
  have hpositive := hidx.1
  have hbound := hidx.2
  have hsize := hheap.size_le
  have hother : ∀ i, i ≠ idx → (fillFromEnd cache idx).count i = cache.count i := by
    intro i hi
    simp [LFUCache.count, fillFromEnd, hi]
  have hown : (fillFromEnd cache idx).count idx = cache.count cache.size := by
    simp [LFUCache.count, fillFromEnd]
  have hexcept : ExceptBelow (fillFromEnd cache idx).size (fillFromEnd cache idx).count idx := by
    constructor
    · intro i hi hle hparent
      have hle : i ≤ cache.size - 1 := hle
      rw [hother _ hparent]
      by_cases heq : i = idx
      · rw [heq, hown]
        exact hfits (by omega) (by omega)
      · rw [hother i heq]
        exact hheap.ordered i hi (by omega)
    · intro i hi hle hparent hlarge
      have hle : i ≤ cache.size - 1 := hle
      have hup := hheap.ordered idx hlarge hidx.2
      have hdown := hheap.ordered i hi (by omega)
      rw [hparent] at hdown
      rw [hother _ (by omega), hother i (by omega)]
      exact hup.trans hdown
  obtain ⟨after, hdown, hafter, hafterSize, hcapacity⟩ :=
    heap_of_down (fillFromEnd_perm hheap.filled hidx hnode).1
      (by simp only [fillFromEnd]; omega) hpositive hexcept
  refine ⟨after, hdown, hafter, ?_, hcapacity⟩
  rw [hafterSize]
  simp only [fillFromEnd]
  omega

/-- An eviction takes out a node with the least count. -/
theorem lfuEvict_heap (hheap : cache.Heap) (hsize : 0 < cache.size) :
    ∃ after victim, lfuEvict cache = some (after, some victim) ∧ after.Heap ∧
      after.size + 1 = cache.size ∧ after.capacity = cache.capacity ∧
      ∀ node ∈ cache.residents, victim.accessCount ≤ node.accessCount := by
  have hroot : cache.Occupied 1 := ⟨le_refl _, hsize⟩
  obtain ⟨victim, hvictim⟩ := hheap.filled 1 hroot
  obtain ⟨after, hdown, hafter, hafterSize, hcapacity⟩ :=
    lfuDrop_heap hheap hroot fun hlarge => absurd hlarge (lt_irrefl _)
  refine ⟨after, victim, by simp [lfuEvict, hsize.ne', hdown, hvictim], hafter, hafterSize,
    hcapacity, fun node hmem => ?_⟩
  obtain ⟨idx, hidx, hnode⟩ := LFUCache.mem_residents.1 hmem
  have hleast := hheap.ordered.root_le hidx.1 hidx.2
  rwa [count_of_node hvictim, count_of_node hnode] at hleast

theorem lfuAdd_heap (hheap : cache.Heap) (hroom : cache.size < cache.capacity)
    (node : EvictNode) :
    ∃ after, lfuAdd cache node = some after ∧ after.Heap ∧
      after.capacity = cache.capacity := by
  let grown : LFUCache :=
    { cache with
      size := cache.size + 1
      nodes := Function.update cache.nodes (cache.size + 1) (some node) }
  have hfilled : grown.Filled := hheap.filled.grow node
  have hexcept : ExceptAbove grown.size grown.count (cache.size + 1) := by
    have hother : ∀ i, i ≠ cache.size + 1 → grown.count i = cache.count i := by
      intro i hi
      simp [LFUCache.count, grown, hi]
    constructor
    · intro i hi hle hne
      have hle : i ≤ cache.size + 1 := hle
      rw [hother i hne, hother (i / 2) (by omega)]
      exact hheap.ordered i hi (by omega)
    · intro i hi hle hparent _
      have hle : i ≤ cache.size + 1 := hle
      omega
  obtain ⟨after, hup, hrearranged, hordered⟩ := lfuHeapifyUp_ordered hfilled (le_refl _) hexcept
  refine ⟨after, ?_, ⟨?_, hrearranged.filled hfilled, hordered⟩, hrearranged.capacity_eq⟩
  · simp only [lfuAdd, Nat.not_le.2 hroom, if_false]
    exact hup
  · rw [hrearranged.size_eq, hrearranged.capacity_eq]
    exact hroom

theorem lfuInsert_heap (hheap : cache.Heap) (hcapacity : 0 < cache.capacity)
    (node : EvictNode) :
    ∃ room after, lfuMakeRoom cache = some room ∧ lfuAdd room node = some after ∧
      after.Heap ∧ after.capacity = cache.capacity := by
  have hsize := hheap.size_le
  by_cases hfull : cache.capacity ≤ cache.size
  · obtain ⟨room, victim, hevict, hroom, hroomSize, hroomCapacity, -⟩ :=
      lfuEvict_heap hheap (by omega)
    obtain ⟨after, hadd, hafter, hafterCapacity⟩ := lfuAdd_heap hroom (by omega) node
    exact ⟨room, after, by simp [lfuMakeRoom, hfull, hevict], hadd, hafter,
      hafterCapacity.trans hroomCapacity⟩
  · obtain ⟨after, hadd, hafter, hafterCapacity⟩ := lfuAdd_heap hheap (by omega) node
    exact ⟨cache, after, by simp [lfuMakeRoom, hfull], hadd, hafter, hafterCapacity⟩

/-! ## Runs -/

/-- No node has a smaller count than its parent. -/
def MinHeap (cache : LFUCache) : Prop :=
  ∀ i, 2 ≤ i → i ≤ cache.size → ∃ parent node, cache.nodes (i / 2) = some parent ∧
    cache.nodes i = some node ∧ parent.accessCount ≤ node.accessCount

/-- The next eviction takes out a node with the least count. -/
def EvictsLeast (cache : LFUCache) : Prop :=
  0 < cache.size → ∃ after victim, lfuEvict cache = some (after, some victim) ∧
    ∀ node ∈ cache.residents, victim.accessCount ≤ node.accessCount

theorem LFUCache.Heap.minHeap (hheap : cache.Heap) : MinHeap cache := by
  intro i hi hle
  obtain ⟨parent, hparent⟩ := hheap.filled (i / 2) ⟨by omega, by omega⟩
  obtain ⟨node, hnode⟩ := hheap.filled i ⟨by omega, hle⟩
  have horder := hheap.ordered i hi hle
  rw [count_of_node hparent, count_of_node hnode] at horder
  exact ⟨parent, node, hparent, hnode, horder⟩

theorem LFUCache.Heap.evictsLeast (hheap : cache.Heap) : EvictsLeast cache := by
  intro hsize
  obtain ⟨after, victim, hevict, -, -, -, hleast⟩ := lfuEvict_heap hheap hsize
  exact ⟨after, victim, hevict, hleast⟩

section Runs

variable {F : Type} {manager final : CacheManager F} {call : CacheCall} {answer : CacheAnswer}

/-- A deletion inside the heap finds its last leaf no smaller than the parent of the
deleted node. -/
def LeafFits (manager : CacheManager F) : CacheCall → Prop
  | .del (some key) => ∀ idx ∈ lfuFind manager.lfu key, 1 < idx → idx < manager.lfu.size →
      manager.lfu.count (idx / 2) ≤ manager.lfu.count manager.lfu.size
  | _ => True

instance (manager : CacheManager F) (call : CacheCall) : Decidable (LeafFits manager call) :=
  match call with
  | .get _ => isTrue trivial
  | .add _ _ _ => isTrue trivial
  | .del none => isTrue trivial
  | .del (some key) => inferInstanceAs (Decidable (∀ idx ∈ lfuFind manager.lfu key, 1 < idx →
      idx < manager.lfu.size →
      manager.lfu.count (idx / 2) ≤ manager.lfu.count manager.lfu.size))

/-- The LFU policy is active and its heap is in order. -/
structure HeapKept (manager : CacheManager F) : Prop where
  policy_eq : manager.policy = .lfu
  capacity_pos : 0 < manager.lfu.capacity
  heap : manager.lfu.Heap

theorem HeapKept.get (hkept : HeapKept manager) (key : Option CStr) :
    ∃ after value, kvsCacheGet manager key = some (after, value) ∧ HeapKept after := by
  cases key with
  | none => exact ⟨manager, none, rfl, hkept⟩
  | some key =>
      by_cases hzero : manager.maxItems = 0
      · exact ⟨manager, none, by simp [kvsCacheGet, hzero], hkept⟩
      · cases hfind : lfuFind manager.lfu key with
        | none =>
            refine ⟨countMiss manager, none, by simp [kvsCacheGet, hzero, hkept.policy_eq, hfind],
              hkept.policy_eq, hkept.capacity_pos, hkept.heap⟩
        | some idx =>
            obtain ⟨lfu, value, hhit, hheap, hcapacity⟩ :=
              lfuHit_heap hkept.heap (lfuFind_eq_some hfind).1
            refine ⟨countHit { manager with lfu := lfu }, value,
              by simp [kvsCacheGet, hzero, hkept.policy_eq, hfind, hhit], hkept.policy_eq, ?_,
              hheap⟩
            exact hcapacity.symm ▸ hkept.capacity_pos

theorem HeapKept.add (hkept : HeapKept manager) (alloc : Alloc) (key value : CStr) :
    (alloc = allocOk → kvsCacheLruAdd alloc manager key value ≠ none) ∧
      ∀ after, kvsCacheLruAdd alloc manager key value = some after → HeapKept after := by
  obtain ⟨room, lfu, hroom, hadd, hheap, hcapacity⟩ := lfuInsert_heap hkept.heap
    hkept.capacity_pos { key := some key, value := some value, accessCount := 1 }
  constructor
  · rintro rfl
    simp [kvsCacheLruAdd, hkept.policy_eq, hroom, hadd]
  · intro after hafter
    simp only [kvsCacheLruAdd, hkept.policy_eq, hroom, hadd, Option.bind_eq_bind,
      Option.bind_some, Option.pure_def] at hafter
    split at hafter
    · rw [Option.some.injEq] at hafter
      subst hafter
      exact ⟨rfl, hcapacity.symm ▸ hkept.capacity_pos, hheap⟩
    · cases hafter

theorem HeapKept.del (hkept : HeapKept manager) (key : Option CStr)
    (hfits : LeafFits manager (.del key)) :
    ∃ after code, kvsCacheDel manager key = some (after, code) ∧ HeapKept after := by
  cases key with
  | none => exact ⟨manager, -1, rfl, hkept⟩
  | some key =>
      by_cases hzero : manager.maxItems = 0
      · exact ⟨manager, -1, by simp [kvsCacheDel, hzero], hkept⟩
      · cases hfind : lfuFind manager.lfu key with
        | none =>
            exact ⟨manager, -2, by simp [kvsCacheDel, hzero, hkept.policy_eq, hfind], hkept⟩
        | some idx =>
            obtain ⟨lfu, hdrop, hheap, -, hcapacity⟩ :=
              lfuDrop_heap hkept.heap (lfuFind_eq_some hfind).1 (hfits idx hfind)
            exact ⟨{ manager with lfu := lfu }, 0,
              by simp [kvsCacheDel, hzero, hkept.policy_eq, hfind, hdrop], hkept.policy_eq,
              hcapacity.symm ▸ hkept.capacity_pos, hheap⟩

theorem HeapKept.step (hkept : HeapKept manager) (hfits : LeafFits manager call)
    (hstep : cacheStep manager call = some (final, answer)) : HeapKept final := by
  cases call with
  | get key =>
      obtain ⟨after, value, hget, hafter⟩ := hkept.get key
      simp only [cacheStep, hget, Option.map_some, Option.some.injEq, Prod.mk.injEq] at hstep
      exact hstep.1 ▸ hafter
  | add alloc key value =>
      simp only [cacheStep, Option.map_eq_some_iff, Prod.mk.injEq] at hstep
      obtain ⟨after, hadd, rfl, -⟩ := hstep
      exact (hkept.add alloc key value).2 after hadd
  | del key =>
      obtain ⟨after, code, hdel, hafter⟩ := hkept.del key hfits
      simp only [cacheStep, hdel, Option.map_some, Option.some.injEq, Prod.mk.injEq] at hstep
      exact hstep.1 ▸ hafter

/-- With memory at hand, every call has a result. -/
theorem HeapKept.exists_step {manager : CacheManager F} {call : CacheCall}
    (hkept : HeapKept manager) (hfits : LeafFits manager call)
    (halloc : ∀ alloc key value, call = .add alloc key value → alloc = allocOk) :
    ∃ after answer, cacheStep manager call = some (after, answer) := by
  cases call with
  | get key =>
      obtain ⟨after, value, hget, -⟩ := hkept.get key
      exact ⟨after, .value value, by simp [cacheStep, hget]⟩
  | add alloc key value =>
      have hsome := (hkept.add alloc key value).1 (halloc alloc key value rfl)
      obtain ⟨after, hadd⟩ := Option.ne_none_iff_exists'.1 hsome
      exact ⟨after, .added, by simp [cacheStep, hadd]⟩
  | del key =>
      obtain ⟨after, code, hdel, -⟩ := hkept.del key hfits
      exact ⟨after, .code code, by simp [cacheStep, hdel]⟩

variable [CFloat F] {maxItems : ℤ}

theorem heapKept_under (hmax : 0 < maxItems) : HeapKept (CacheManager.under F .lfu maxItems) where
  policy_eq := rfl
  capacity_pos := by
    simp only [CacheManager.under, kvsCacheSetPolicy, kvsCacheInit, lfuInit, hmax, if_true]
    omega
  heap := lfuInit_heap _

/-- In a run in which the last leaf always fits where a deletion puts it, the heap is in
order in every state reached and the next eviction is of a least used entry. -/
theorem lfu_heap_of_run (hmax : 0 < maxItems) (calls : List CacheCall)
    (hfits : Along cacheStep LeafFits (CacheManager.under F .lfu maxItems) calls) :
    (∀ final answers,
        run cacheStep (CacheManager.under F .lfu maxItems) calls = some (final, answers) →
          MinHeap final.lfu ∧ EvictsLeast final.lfu) ∧
      ((∀ alloc key value, .add alloc key value ∈ calls → alloc = allocOk) →
        ∃ final answers,
          run cacheStep (CacheManager.under F .lfu maxItems) calls = some (final, answers)) := by
  have hstart : HeapKept (CacheManager.under F .lfu maxItems) := heapKept_under hmax
  constructor
  · intro final answers hrun
    have hfinal := run_preserves_along
      (fun _ _ _ _ hkept hfits hstep => HeapKept.step hkept hfits hstep) hstart hfits hrun
    exact ⟨hfinal.heap.minHeap, hfinal.heap.evictsLeast⟩
  · intro halloc
    have hcalls : ∀ call ∈ calls, ∀ alloc key value, call = .add alloc key value →
        alloc = allocOk := by
      rintro call hcall alloc key value rfl
      exact halloc alloc key value hcall
    have hstep : ∀ (manager : CacheManager F) (call : CacheCall), HeapKept manager →
        (LeafFits manager call ∧ ∀ alloc key value, call = .add alloc key value →
          alloc = allocOk) →
        ∃ after answer, cacheStep manager call = some (after, answer) ∧ HeapKept after ∧
          True := by
      rintro manager call hkept ⟨hfits, halloc⟩
      obtain ⟨after, answer, hanswer⟩ := hkept.exists_step hfits halloc
      exact ⟨after, answer, hanswer, hkept.step hfits hanswer, trivial⟩
    obtain ⟨⟨final, answers, hrun, -⟩, -⟩ :=
      run_invariant HeapKept hstep hstart (hfits.and_forall hcalls)
    exact ⟨final, answers, hrun⟩

end Runs

/-- Six entries, three of them read once, which leaves the greater counts on one side. -/
def sixEntries : List CacheCall :=
  ["a", "b", "c", "d", "e", "f"].map (fun key => .add allocOk (lit key) (lit "v")) ++
    ["b", "d", "e"].map fun key => .get (some (lit key))

/-- The last leaf is deleted itself. -/
def lastDeleted : List CacheCall :=
  sixEntries ++ [.del (some (lit "f")), .get (some (lit "a"))]

theorem lfu_heap_of_run_lastDeleted :
    ∃ final answers,
      run cacheStep (CacheManager.under Float32 .lfu 8) lastDeleted = some (final, answers) ∧
        MinHeap final.lfu ∧ EvictsLeast final.lfu := by
  obtain ⟨hheap, hexists⟩ := lfu_heap_of_run (F := Float32) (by decide : (0 : ℤ) < 8)
    lastDeleted (by decide +kernel)
  obtain ⟨final, answers, hrun⟩ := hexists (by
    intro alloc key value hcall
    simp [lastDeleted, sixEntries] at hcall
    grind)
  exact ⟨final, answers, hrun, hheap final answers hrun⟩

/-- A leaf from the other side takes the place of a deleted node. -/
def innerDeleted : List CacheCall :=
  sixEntries ++ [.del (some (lit "b")), .get (some (lit "a")), .get (some (lit "c"))]

/-- The root has been read more often than the leaf `f`, and it is evicted first. -/
theorem deletion_breaks_heap :
    (run cacheStep (CacheManager.under Float32 .lfu 8) innerDeleted).map (fun result =>
        (result.1.lfu.size, result.1.lfu.nodes 2, result.1.lfu.nodes 4,
          (lfuEvict result.1.lfu).map Prod.snd)) =
      some (5, some ⟨some (lit "e"), some (lit "v"), 2⟩, some ⟨some (lit "f"), some (lit "v"), 1⟩,
        some (some ⟨some (lit "c"), some (lit "v"), 2⟩)) := by
  decide +kernel

end LiteMultiKV.Cache
