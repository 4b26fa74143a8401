import LiteMultiKV.Cache.ArcBounds

/-!
# The books of the cache

What is inserted into the cache is still held, was deleted, or was evicted.  The
manager counts evictions for its report, but only the recency list does so: an
eviction from the frequency heap or from the adaptive lists goes uncounted.
This file follows the entries that carry a value through every run and says
exactly when the counter makes up for those that are gone.
-/

namespace LiteMultiKV.Cache

open List CText Memory Numeric Run

variable {F : Type} {manager final : CacheManager F} {call : CacheCall} {answer : CacheAnswer}
variable {alloc : Alloc} {cache after : ARCCache} {key value : CStr}

/-! ## Entries -/

def EvictNode.valued (node : EvictNode) : Bool :=
  node.value.isSome

/-- The number of entries with a value that the active structure holds. -/
def CacheManager.held (manager : CacheManager F) : ℕ :=
  (manager.nodesOf manager.policy).countP EvictNode.valued

theorem valued_iff {node : EvictNode} : node.valued = true ↔ node.value ≠ none := by
  rw [EvictNode.valued, Option.isSome_iff_ne_none]

theorem countP_valued {nodes : List EvictNode} (hvalued : ∀ node ∈ nodes, node.value ≠ none) :
    nodes.countP EvictNode.valued = nodes.length :=
  countP_eq_length.2 fun node hnode => valued_iff.2 (hvalued node hnode)

theorem countP_valueless {nodes : List EvictNode} (hnone : ∀ node ∈ nodes, node.value = none) :
    nodes.countP EvictNode.valued = 0 := by
  rw [countP_eq_zero]
  intro node hnode hvalued
  exact valued_iff.1 hvalued (hnone node hnode)

/-- What the structures of a manager need for its books. -/
structure Tended (manager : CacheManager F) : Prop where
  maxItems_pos : 0 < manager.maxItems
  lru : manager.policy = .lru → manager.lru.Sized ∧ ∀ node ∈ manager.lru.nodes, node.value ≠ none
  lfu : manager.policy = .lfu → manager.lfu.Sound ∧ 0 < manager.lfu.capacity ∧
    ∀ node ∈ manager.lfu.residents, node.value ≠ none
  arc : manager.policy = .arc → manager.arc.Steady ∧ ∀ node ∈ manager.arc.ghosts, node.value = none

/-- The node that `arc_evict` takes out of a full cache. -/
def ARCCache.victim (cache : ARCCache) : Option EvictNode :=
  match (if cache.targetSize < cache.t1.size then lruTail cache.t1 else none) with
  | some place => some place.node
  | none => (lruTail cache.t2).map Place.node

/-- The insertion evicts an entry with a value, and the policy does not count evictions. -/
def CacheManager.LosesEntry (manager : CacheManager F) : Prop :=
  match manager.policy with
  | .lru => False
  | .lfu => manager.lfu.capacity ≤ manager.lfu.size
  | .arc => manager.arc.maxSize ≤ manager.arc.t1.size + manager.arc.t2.size ∧
      manager.arc.victim.any EvictNode.valued = true

instance (manager : CacheManager F) : Decidable manager.LosesEntry :=
  match hpolicy : manager.policy with
  | .lru => isFalse (by simp [CacheManager.LosesEntry, hpolicy])
  | .lfu => decidable_of_iff (manager.lfu.capacity ≤ manager.lfu.size)
      (by simp [CacheManager.LosesEntry, hpolicy])
  | .arc => decidable_of_iff (manager.arc.maxSize ≤ manager.arc.t1.size + manager.arc.t2.size ∧
        manager.arc.victim.any EvictNode.valued = true)
      (by simp [CacheManager.LosesEntry, hpolicy])

/-- What a call does to the entries held and to the eviction counter. -/
def Booked (manager : CacheManager F) (call : CacheCall) (final : CacheManager F) : Prop :=
  match call with
  | .get _ => final.evictionCount = manager.evictionCount ∧ final.held = manager.held
  | .add _ _ _ => final.evictionCount + final.held + (if manager.LosesEntry then 1 else 0) =
      manager.evictionCount + manager.held + 1
  | .del _ => final.evictionCount = manager.evictionCount ∧ final.held ≤ manager.held

/-- What a call guarantees. -/
structure Tends (manager : CacheManager F) (call : CacheCall) (final : CacheManager F) : Prop where
  policy_eq : final.policy = manager.policy
  tended : Tended final
  booked : Booked manager call final

theorem tended_lru (hpolicy : final.policy = .lru) (hpos : 0 < final.maxItems)
    (hsized : final.lru.Sized) (hvalued : ∀ node ∈ final.lru.nodes, node.value ≠ none) :
    Tended final :=
  ⟨hpos, fun _ => ⟨hsized, hvalued⟩, by simp [hpolicy], by simp [hpolicy]⟩

theorem tended_lfu (hpolicy : final.policy = .lfu) (hpos : 0 < final.maxItems)
    (hsound : final.lfu.Sound) (hcapacity : 0 < final.lfu.capacity)
    (hvalued : ∀ node ∈ final.lfu.residents, node.value ≠ none) : Tended final :=
  ⟨hpos, by simp [hpolicy], fun _ => ⟨hsound, hcapacity, hvalued⟩, by simp [hpolicy]⟩

theorem tended_arc (hpolicy : final.policy = .arc) (hpos : 0 < final.maxItems)
    (hsteady : final.arc.Steady) (hghosts : ∀ node ∈ final.arc.ghosts, node.value = none) :
    Tended final :=
  ⟨hpos, by simp [hpolicy], by simp [hpolicy], fun _ => ⟨hsteady, hghosts⟩⟩

theorem held_lru (hpolicy : manager.policy = .lru) :
    manager.held = manager.lru.nodes.countP EvictNode.valued := by
  rw [CacheManager.held, hpolicy, CacheManager.nodesOf]

theorem held_lfu (hpolicy : manager.policy = .lfu) :
    manager.held = manager.lfu.residents.countP EvictNode.valued := by
  rw [CacheManager.held, hpolicy, CacheManager.nodesOf]

theorem held_arc (hpolicy : manager.policy = .arc) :
    manager.held = manager.arc.nodes.countP EvictNode.valued := by
  rw [CacheManager.held, hpolicy, CacheManager.nodesOf]

/-! ## Calls on an idle cache -/

theorem tends_get_same (htended : Tended manager) (key : Option CStr) :
    Tends manager (.get key) manager :=
  ⟨rfl, htended, rfl, rfl⟩

theorem tends_del_same (htended : Tended manager) (key : Option CStr) :
    Tends manager (.del key) manager :=
  ⟨rfl, htended, rfl, le_rfl⟩

/-! ## The recency list -/

section Lru

variable (htended : Tended manager) (hpolicy : manager.policy = .lru)
include htended hpolicy

theorem lru_get_tends (key : CStr) :
    ∃ final value, kvsCacheGet manager (some key) = some (final, value) ∧
      Tends manager (.get (some key)) final := by
  have hpos := htended.maxItems_pos
  obtain ⟨hsized, hvalued⟩ := htended.lru hpolicy
  cases hfind : lruFind manager.lru key with
  | none =>
      refine ⟨countMiss manager, none, by simp [kvsCacheGet, hpos.ne', hpolicy, hfind], rfl,
        tended_lru hpolicy hpos hsized hvalued, rfl, rfl⟩
  | some place =>
      have hplace := findPlace_eq_some hfind
      have hperm : (lruTouch manager.lru place).nodes.Perm manager.lru.nodes := hplace.perm.symm
      let final := countHit { manager with lru := lruTouch manager.lru place }
      have hfinal : final.policy = .lru := hpolicy
      refine ⟨final, place.node.value, by simp [kvsCacheGet, hpos.ne', hpolicy, hfind, final],
        rfl, tended_lru hpolicy hpos ((hsized.remove hplace.split).addFront _)
          (fun node hnode => hvalued node (hperm.mem_iff.1 hnode)), rfl, ?_⟩
      rw [held_lru hpolicy, held_lru hfinal]
      exact hperm.countP_eq _

theorem lru_add_tends (alloc : Alloc) (key value : CStr) :
    (alloc = allocOk → kvsCacheLruAdd alloc manager key value ≠ none) ∧
      ∀ final, kvsCacheLruAdd alloc manager key value = some final →
        Tends manager (.add alloc key value) final := by
  have hpos := htended.maxItems_pos
  obtain ⟨hsized, hvalued⟩ := htended.lru hpolicy
  have hroom := makeRoom_take _ manager hpos hsized (Nat.lt_succ_self _)
  constructor
  · rintro rfl
    simp [kvsCacheLruAdd, hpolicy, hroom]
  · intro final hadd
    simp only [kvsCacheLruAdd, hpolicy, hroom, Option.bind_eq_bind, Option.bind_some,
      Option.pure_def] at hadd
    split at hadd
    · rw [Option.some.injEq] at hadd
      have hkept : ∀ node ∈ manager.lru.nodes.take (manager.maxItems - 1), node.value ≠ none :=
        fun node hnode => hvalued node (mem_of_mem_take hnode)
      have hfinal : final.policy = .lru := by rw [← hadd]
      refine ⟨hfinal.trans hpolicy.symm, tended_lru hfinal ?_ ?_ ?_, ?_⟩
      · rw [← hadd]
        exact hpos
      · rw [← hadd]
        exact (LRUCache.Sized.of_nodes _).addFront _
      · rw [← hadd]
        intro node hnode
        rcases mem_cons.1 hnode with rfl | hnode
        · exact Option.some_ne_none value
        · exact hkept node hnode
      · have hlost : ¬manager.LosesEntry := by simp [CacheManager.LosesEntry, hpolicy]
        simp only [Booked, hlost, if_false]
        rw [held_lru hfinal, held_lru hpolicy, countP_valued hvalued, ← hadd]
        simp only [lruAddFront, countP_cons, countP_valued hkept, length_take, EvictNode.valued,
          Option.isSome_some, if_true]
        omega
    · cases hadd

theorem lru_del_tends (key : CStr) :
    ∃ final code, kvsCacheDel manager (some key) = some (final, code) ∧
      Tends manager (.del (some key)) final := by
  have hpos := htended.maxItems_pos
  obtain ⟨hsized, hvalued⟩ := htended.lru hpolicy
  cases hfind : lruFind manager.lru key with
  | none =>
      exact ⟨manager, -2, by simp [kvsCacheDel, hpos.ne', hpolicy, hfind],
        tends_del_same htended _⟩
  | some place =>
      have hsplit := (findPlace_eq_some hfind).split
      have hsublist := lruRemove_sublist hsplit
      let final := { manager with lru := lruRemove manager.lru place }
      have hfinal : final.policy = .lru := hpolicy
      refine ⟨final, 0, by simp [kvsCacheDel, hpos.ne', hpolicy, hfind, final], rfl,
        tended_lru hpolicy hpos (hsized.remove hsplit)
          (fun node hnode => hvalued node (hsublist.subset hnode)), rfl, ?_⟩
      rw [held_lru hpolicy, held_lru hfinal]
      exact hsublist.countP_le

end Lru

/-! ## The frequency heap -/

section Lfu

variable (htended : Tended manager) (hpolicy : manager.policy = .lfu)
include htended hpolicy

theorem lfu_get_tends (key : CStr) :
    ∃ final value, kvsCacheGet manager (some key) = some (final, value) ∧
      Tends manager (.get (some key)) final := by
  have hpos := htended.maxItems_pos
  obtain ⟨hsound, hcapacity, hvalued⟩ := htended.lfu hpolicy
  cases hfind : lfuFind manager.lfu key with
  | none =>
      refine ⟨countMiss manager, none, by simp [kvsCacheGet, hpos.ne', hpolicy, hfind], rfl,
        tended_lfu hpolicy hpos hsound hcapacity hvalued, rfl, rfl⟩
  | some idx =>
      obtain ⟨hidx, node, hnode, -⟩ := lfuFind_eq_some hfind
      obtain ⟨lfu, rest, hhit, hafter, -, hsame, hbefore, hperm⟩ := lfuHit_perm hsound hidx hnode
      have hnodes : ∀ other ∈ lfu.residents, other.value ≠ none := by
        intro other hother
        rcases mem_cons.1 (hperm.mem_iff.1 hother) with rfl | hrest
        · exact hvalued node (hbefore.mem_iff.2 mem_cons_self)
        · exact hvalued other (hbefore.mem_iff.2 (mem_cons_of_mem _ hrest))
      let final := countHit { manager with lfu := lfu }
      have hfinal : final.policy = .lfu := hpolicy
      refine ⟨final, node.value, by simp [kvsCacheGet, hpos.ne', hpolicy, hfind, hhit, final],
        rfl, tended_lfu hpolicy hpos hafter (hsame.symm ▸ hcapacity) hnodes, rfl, ?_⟩
      rw [held_lfu hpolicy, held_lfu hfinal, hbefore.countP_eq]
      exact hperm.countP_eq _

theorem lfu_add_tends (alloc : Alloc) (key value : CStr) :
    (alloc = allocOk → kvsCacheLruAdd alloc manager key value ≠ none) ∧
      ∀ final, kvsCacheLruAdd alloc manager key value = some final →
        Tends manager (.add alloc key value) final := by
  have hpos := htended.maxItems_pos
  obtain ⟨hsound, hcapacity, hvalued⟩ := htended.lfu hpolicy
  let node : EvictNode := { key := some key, value := some value, accessCount := 1 }
  obtain ⟨room, hroom, hroomSound, hspace, hsame, hloss⟩ := lfuMakeRoom_perm hsound hcapacity
  obtain ⟨lfu, hadd, hlfu, -, hlfuCapacity, hperm⟩ := lfuAdd_perm hroomSound hspace node
  constructor
  · rintro rfl
    simp only [node] at hadd
    simp [kvsCacheLruAdd, hpolicy, hroom, hadd]
  · intro final hfinal
    simp only [node] at hadd
    simp only [kvsCacheLruAdd, hpolicy, hroom, hadd, Option.bind_eq_bind, Option.bind_some,
      Option.pure_def] at hfinal
    split at hfinal
    · rw [Option.some.injEq] at hfinal
      have hactive : final.policy = .lfu := by rw [← hfinal]
      have hlost : manager.LosesEntry ↔ ¬manager.lfu.size < manager.lfu.capacity := by
        simp [CacheManager.LosesEntry, hpolicy]
      have hcount : room.residents.countP EvictNode.valued +
          (if manager.LosesEntry then 1 else 0) =
          manager.lfu.residents.countP EvictNode.valued := by
        simp only [hlost]
        split at hloss
        case isTrue hspare => simp [hspare, hloss]
        case isFalse hfull =>
            obtain ⟨victim, hvictim⟩ := hloss
            have hown := valued_iff.2 (hvalued victim (hvictim.mem_iff.2 mem_cons_self))
            rw [hvictim.countP_eq, countP_cons, if_pos hown, if_pos hfull]
      have hnodes : ∀ other ∈ lfu.residents, other.value ≠ none := by
        intro other hother
        rcases mem_cons.1 (hperm.mem_iff.1 hother) with rfl | hrest
        · exact Option.some_ne_none value
        · split at hloss
          · exact hvalued other (hloss ▸ hrest)
          · obtain ⟨victim, hvictim⟩ := hloss
            exact hvalued other (hvictim.mem_iff.2 (mem_cons_of_mem _ hrest))
      have hlfuFinal : final.lfu = lfu := by rw [← hfinal]
      have hcountFinal : final.evictionCount = manager.evictionCount := by rw [← hfinal]
      refine ⟨hactive.trans hpolicy.symm, tended_lfu hactive ?_ (hlfuFinal ▸ hlfu) ?_
        (hlfuFinal ▸ hnodes), ?_⟩
      · rw [← hfinal]
        exact hpos
      · rw [hlfuFinal, hlfuCapacity, hsame]
        exact hcapacity
      · simp only [Booked]
        rw [held_lfu hactive, held_lfu hpolicy, hlfuFinal, hperm.countP_eq, countP_cons,
          hcountFinal, ← hcount]
        simp only [node, EvictNode.valued, Option.isSome_some, if_true]
        omega
    · cases hfinal

theorem lfu_del_tends (key : CStr) :
    ∃ final code, kvsCacheDel manager (some key) = some (final, code) ∧
      Tends manager (.del (some key)) final := by
  have hpos := htended.maxItems_pos
  obtain ⟨hsound, hcapacity, hvalued⟩ := htended.lfu hpolicy
  cases hfind : lfuFind manager.lfu key with
  | none =>
      exact ⟨manager, -2, by simp [kvsCacheDel, hpos.ne', hpolicy, hfind],
        tends_del_same htended _⟩
  | some idx =>
      obtain ⟨hidx, node, hnode, -⟩ := lfuFind_eq_some hfind
      obtain ⟨lfu, hdrop, hlfu, -, hsame, hperm⟩ := lfuDrop_perm hsound hidx hnode
      let final := { manager with lfu := lfu }
      have hfinal : final.policy = .lfu := hpolicy
      refine ⟨final, 0, by simp [kvsCacheDel, hpos.ne', hpolicy, hfind, hdrop, final], rfl,
        tended_lfu hpolicy hpos hlfu (hsame.symm ▸ hcapacity)
          (fun other hother => hvalued other (hperm.mem_iff.2 (mem_cons_of_mem _ hother))), rfl, ?_⟩
      rw [held_lfu hpolicy, held_lfu hfinal, hperm.countP_eq, countP_cons]
      exact Nat.le_add_right _ _

end Lfu

/-! ## The adaptive cache -/

/-- The number of values in one list of the adaptive cache. -/
def LRUCache.values (list : LRUCache) : ℕ :=
  list.nodes.countP EvictNode.valued

theorem values_addFront (list : LRUCache) (node : EvictNode) :
    (lruAddFront list node).values = list.values + if node.valued then 1 else 0 :=
  countP_cons

theorem values_remove {list : LRUCache} {place : Place}
    (hsplit : list.nodes = place.front ++ place.node :: place.back) :
    (lruRemove list place).values + (if place.node.valued then 1 else 0) = list.values := by
  simp only [LRUCache.values, lruRemove, hsplit, countP_append, countP_cons]
  omega

theorem ARCCache.values_eq (cache : ARCCache) : cache.nodes.countP EvictNode.valued =
    cache.t1.values + cache.t2.values + (cache.b1.values + cache.b2.values) := by
  simp only [ARCCache.nodes, ARCCache.residents, ARCCache.ghosts, countP_append, LRUCache.values]

/-- A lookup only moves nodes. -/
theorem Lookup.values_eq {cached : Option CStr} (hlookup : Lookup cache key after cached) :
    after.nodes.countP EvictNode.valued = cache.nodes.countP EvictNode.valued := by
  rw [ARCCache.values_eq, ARCCache.values_eq]
  cases hlookup with
  | hitT1 _ hplace | hitT2 _ _ hplace | hitB1 _ _ _ _ hplace | hitB2 _ _ _ _ _ hplace =>
      have := values_remove (findPlace_eq_some hplace).split
      simp only [values_addFront]
      omega
  | miss => rfl

theorem Lookup.ghosts_subset {cached : Option CStr} (hlookup : Lookup cache key after cached) :
    ∀ node ∈ after.ghosts, node ∈ cache.ghosts := by
  intro node hnode
  cases hlookup with
  | hitT1 => exact hnode
  | hitT2 => exact hnode
  | hitB1 place target _ _ hplace =>
      have hsublist := lruRemove_sublist (findPlace_eq_some hplace).split
      exact (hsublist.append (Sublist.refl _)).subset hnode
  | hitB2 place target _ _ _ hplace =>
      have hsublist := lruRemove_sublist (findPlace_eq_some hplace).split
      exact ((Sublist.refl _).append hsublist).subset hnode
  | miss => exact hnode

theorem values_recordGhost {maxSize : ℕ} {victim : EvictNode} {before ghosts : LRUCache}
    (hsized : before.Sized) (hvalueless : ∀ node ∈ before.nodes, node.value = none)
    (hrecord : recordGhost alloc maxSize victim before = some ghosts) :
    before.values = 0 ∧ ghosts.values = 0 ∧ ∀ node ∈ ghosts.nodes, node.value = none := by
  have hghosts := (recorded_of_recordGhost hsized hrecord).1.valueless hvalueless
  exact ⟨countP_valueless hvalueless, countP_valueless hghosts, hghosts⟩

/-- An eviction loses one value exactly when its victim carries one. -/
theorem arcEvict_values {room : ARCCache} {gone : Option EvictNode}
    (hevict : arcEvict alloc cache = some (room, gone)) (hcounted : cache.Counted)
    (hghosts : ∀ node ∈ cache.ghosts, node.value = none) :
    (∀ node ∈ room.ghosts, node.value = none) ∧
      room.nodes.countP EvictNode.valued + (if cache.maxSize ≤ cache.t1.size + cache.t2.size ∧
        cache.victim.any EvictNode.valued = true then 1 else 0) =
          cache.nodes.countP EvictNode.valued := by
  have hb1 : ∀ node ∈ cache.b1.nodes, node.value = none :=
    fun node hnode => hghosts node (mem_append_left _ hnode)
  have hb2 : ∀ node ∈ cache.b2.nodes, node.value = none :=
    fun node hnode => hghosts node (mem_append_right _ hnode)
  unfold arcEvict at hevict
  split at hevict
  case isTrue hroom =>
      simp only [Option.some.injEq, Prod.mk.injEq] at hevict
      obtain ⟨rfl, -⟩ := hevict
      refine ⟨hghosts, ?_⟩
      rw [if_neg (by omega)]
      rfl
  case isFalse hfull =>
      rw [not_lt] at hfull
      split at hevict
      case h_1 place hchoice =>
          obtain ⟨ghosts, hrecord, heq⟩ := Option.bind_eq_some_iff.1 hevict
          simp only [Option.pure_def, Option.some.injEq, Prod.mk.injEq] at heq
          obtain ⟨rfl, -⟩ := heq
          have htail : lruTail cache.t1 = some place := by
            split at hchoice
            · exact hchoice
            · cases hchoice
          have hremove := values_remove (lruTail_split htail)
          obtain ⟨hbefore, hafter, hvalueless⟩ := values_recordGhost hcounted.b1_sized hb1 hrecord
          have hvictim : cache.victim = some place.node := by
            simp only [ARCCache.victim, hchoice]
          refine ⟨fun node hnode => (mem_append.1 hnode).elim (hvalueless node) (hb2 node), ?_⟩
          rw [ARCCache.values_eq, ARCCache.values_eq, hvictim]
          simp only [hfull, Option.any_some, true_and]
          omega
      case h_2 hchoice =>
          split at hevict
          case h_1 place htail =>
              obtain ⟨ghosts, hrecord, heq⟩ := Option.bind_eq_some_iff.1 hevict
              simp only [Option.pure_def, Option.some.injEq, Prod.mk.injEq] at heq
              obtain ⟨rfl, -⟩ := heq
              have hremove := values_remove (lruTail_split htail)
              obtain ⟨hbefore, hafter, hvalueless⟩ :=
                values_recordGhost hcounted.b2_sized hb2 hrecord
              have hvictim : cache.victim = some place.node := by
                simp only [ARCCache.victim, hchoice, htail, Option.map_some]
              refine ⟨fun node hnode => (mem_append.1 hnode).elim (hb1 node) (hvalueless node), ?_⟩
              rw [ARCCache.values_eq, ARCCache.values_eq, hvictim]
              simp only [hfull, Option.any_some, true_and]
              omega
          case h_2 htail =>
              simp only [Option.some.injEq, Prod.mk.injEq] at hevict
              obtain ⟨rfl, -⟩ := hevict
              have hvictim : cache.victim = none := by
                simp only [ARCCache.victim, hchoice, htail, Option.map_none]
              refine ⟨hghosts, ?_⟩
              rw [hvictim]
              simp

/-- What a call under the adaptive policy does to the values it holds. -/
theorem ArcEffect.values (heffect : ArcEffect cache call after) (hcounted : cache.Counted)
    (hghosts : ∀ node ∈ cache.ghosts, node.value = none) :
    (∀ node ∈ after.ghosts, node.value = none) ∧
      match call with
      | .get _ => after.nodes.countP EvictNode.valued = cache.nodes.countP EvictNode.valued
      | .add _ _ _ => after.nodes.countP EvictNode.valued +
          (if cache.maxSize ≤ cache.t1.size + cache.t2.size ∧
            cache.victim.any EvictNode.valued = true then 1 else 0) =
          cache.nodes.countP EvictNode.valued + 1
      | .del _ => after.nodes.countP EvictNode.valued ≤ cache.nodes.countP EvictNode.valued := by
  cases heffect with
  | ignoredGet => exact ⟨hghosts, rfl⟩
  | ignoredDel => exact ⟨hghosts, le_rfl⟩
  | got key hget =>
      have hlookup := lookup_of_arcGet hget
      exact ⟨fun node hnode => hghosts node (hlookup.ghosts_subset node hnode), hlookup.values_eq⟩
  | added hadd =>
      obtain ⟨room, gone, named, hevict, -, -, -, rfl⟩ := insertion_of_arcAdd hadd
      obtain ⟨hroomGhosts, hvalues⟩ := arcEvict_values hevict hcounted hghosts
      have hnew : ∀ text : CStr, EvictNode.valued ⟨named, some text, 1⟩ = true := fun _ => rfl
      refine ⟨hroomGhosts, ?_⟩
      dsimp only
      rw [ARCCache.values_eq] at hvalues ⊢
      simp only [values_addFront, hnew, if_true]
      omega
  | deleted key =>
      obtain ⟨-, ht1, ht2, hb1, hb2, -⟩ := arcDel_shrinks hcounted key
      refine ⟨fun node hnode => hghosts node ((hb1.append hb2).subset hnode), ?_⟩
      exact ((ht1.append ht2).append (hb1.append hb2)).countP_le

section Arc

variable (htended : Tended manager) (hpolicy : manager.policy = .arc)
include htended hpolicy

theorem arc_tends (hstep : cacheStep manager call = some (final, answer)) :
    Tends manager call final := by
  obtain ⟨heffect, hsame, hmax, hcount⟩ := arcEffect_of_cacheStep hpolicy hstep
  obtain ⟨hsteady, hghosts⟩ := htended.arc hpolicy
  obtain ⟨hghostsAfter, hvalues⟩ := heffect.values hsteady.counted hghosts
  have hfinal : final.policy = .arc := hsame.trans hpolicy
  refine ⟨hsame, tended_arc hfinal (hmax ▸ htended.maxItems_pos) (heffect.steady hsteady)
    hghostsAfter, ?_⟩
  unfold Booked
  rw [held_arc hpolicy, held_arc hfinal, hcount]
  cases call with
  | get key => exact ⟨rfl, hvalues⟩
  | add alloc key value =>
      have hlost : manager.LosesEntry ↔
          manager.arc.maxSize ≤ manager.arc.t1.size + manager.arc.t2.size ∧
            manager.arc.victim.any EvictNode.valued = true := by
        simp only [CacheManager.LosesEntry, hpolicy]
      simp only [hlost]
      omega
  | del key => exact ⟨rfl, hvalues⟩

theorem arcSteady : ArcSteady manager :=
  ⟨hpolicy, htended.maxItems_pos, (htended.arc hpolicy).1⟩

theorem arc_get_tends (key : CStr) :
    ∃ final value, kvsCacheGet manager (some key) = some (final, value) ∧
      Tends manager (.get (some key)) final := by
  have hidle : ∀ alloc own value, CacheCall.get (some key) = .add alloc own value →
      alloc = allocOk := nofun
  obtain ⟨final, answer, hstep⟩ := (arcSteady htended hpolicy).exists_step hidle
  obtain ⟨⟨after, cached⟩, hget, heq⟩ := Option.map_eq_some_iff.1 hstep
  obtain ⟨rfl, -⟩ := Prod.mk.inj heq
  exact ⟨after, cached, hget, arc_tends htended hpolicy hstep⟩

theorem arc_add_tends (alloc : Alloc) (key value : CStr) :
    (alloc = allocOk → kvsCacheLruAdd alloc manager key value ≠ none) ∧
      ∀ final, kvsCacheLruAdd alloc manager key value = some final →
        Tends manager (.add alloc key value) final := by
  constructor
  · rintro rfl
    obtain ⟨after, hadd⟩ := exists_arcAdd (htended.arc hpolicy).1.counted key value
    simp [kvsCacheLruAdd, hpolicy, hadd]
  · intro final hfinal
    have hstep : cacheStep manager (.add alloc key value) = some (final, .added) := by
      rw [cacheStep, hfinal]
      rfl
    exact arc_tends htended hpolicy hstep

theorem arc_del_tends (key : CStr) :
    ∃ final code, kvsCacheDel manager (some key) = some (final, code) ∧
      Tends manager (.del (some key)) final := by
  have hidle : ∀ alloc own value, CacheCall.del (some key) = .add alloc own value →
      alloc = allocOk := nofun
  obtain ⟨final, answer, hstep⟩ := (arcSteady htended hpolicy).exists_step hidle
  obtain ⟨⟨after, code⟩, hdel, heq⟩ := Option.map_eq_some_iff.1 hstep
  obtain ⟨rfl, -⟩ := Prod.mk.inj heq
  exact ⟨after, code, hdel, arc_tends htended hpolicy hstep⟩

end Arc

/-! ## Calls under any policy -/

theorem Tended.get (htended : Tended manager) (key : CStr) :
    ∃ final value, kvsCacheGet manager (some key) = some (final, value) ∧
      Tends manager (.get (some key)) final := by
  cases hpolicy : manager.policy with
  | lru => exact lru_get_tends htended hpolicy key
  | lfu => exact lfu_get_tends htended hpolicy key
  | arc => exact arc_get_tends htended hpolicy key

theorem Tended.add (htended : Tended manager) (alloc : Alloc) (key value : CStr) :
    (alloc = allocOk → kvsCacheLruAdd alloc manager key value ≠ none) ∧
      ∀ final, kvsCacheLruAdd alloc manager key value = some final →
        Tends manager (.add alloc key value) final := by
  cases hpolicy : manager.policy with
  | lru => exact lru_add_tends htended hpolicy alloc key value
  | lfu => exact lfu_add_tends htended hpolicy alloc key value
  | arc => exact arc_add_tends htended hpolicy alloc key value

theorem Tended.del (htended : Tended manager) (key : CStr) :
    ∃ final code, kvsCacheDel manager (some key) = some (final, code) ∧
      Tends manager (.del (some key)) final := by
  cases hpolicy : manager.policy with
  | lru => exact lru_del_tends htended hpolicy key
  | lfu => exact lfu_del_tends htended hpolicy key
  | arc => exact arc_del_tends htended hpolicy key

theorem Tended.step (htended : Tended manager)
    (hstep : cacheStep manager call = some (final, answer)) : Tends manager call final := by
  cases call with
  | get key =>
      cases key with
      | none =>
          obtain ⟨rfl, -⟩ : manager = final ∧ _ = answer := by
            simpa [cacheStep, kvsCacheGet] using hstep
          exact tends_get_same htended none
      | some key =>
          obtain ⟨after, value, hget, htends⟩ := htended.get key
          simp only [cacheStep, hget, Option.map_some, Option.some.injEq, Prod.mk.injEq] at hstep
          exact hstep.1 ▸ htends
  | add alloc key value =>
      obtain ⟨after, hadd, heq⟩ := Option.map_eq_some_iff.1 hstep
      obtain ⟨rfl, -⟩ := Prod.mk.inj heq
      exact (htended.add alloc key value).2 after hadd
  | del key =>
      cases key with
      | none =>
          obtain ⟨rfl, -⟩ : manager = final ∧ _ = answer := by
            simpa [cacheStep, kvsCacheDel] using hstep
          exact tends_del_same htended none
      | some key =>
          obtain ⟨after, code, hdel, htends⟩ := htended.del key
          simp only [cacheStep, hdel, Option.map_some, Option.some.injEq, Prod.mk.injEq] at hstep
          exact hstep.1 ▸ htends

/-- With memory at hand, every call has a result. -/
theorem Tended.exists_step (htended : Tended manager)
    (halloc : ∀ alloc key value, call = .add alloc key value → alloc = allocOk) :
    ∃ final answer, cacheStep manager call = some (final, answer) := by
  cases call with
  | get key =>
      cases key with
      | none => exact ⟨manager, _, rfl⟩
      | some key =>
          obtain ⟨final, value, hget, -⟩ := htended.get key
          exact ⟨final, .value value, by rw [cacheStep, hget]; rfl⟩
  | add alloc key value =>
      obtain ⟨final, hadd⟩ := Option.ne_none_iff_exists'.1
        ((htended.add alloc key value).1 (halloc alloc key value rfl))
      exact ⟨final, .added, by rw [cacheStep, hadd]; rfl⟩
  | del key =>
      cases key with
      | none => exact ⟨manager, _, rfl⟩
      | some key =>
          obtain ⟨final, code, hdel, -⟩ := htended.del key
          exact ⟨final, .code code, by rw [cacheStep, hdel]; rfl⟩

section Runs

variable [CFloat F]

theorem tended_under (policy : Policy) (maxItems : ℤ) :
    Tended (CacheManager.under F policy maxItems) := by
  have hpos : 0 < (CacheManager.under F policy maxItems).maxItems :=
    (kvsCacheInit_valid (F := F) maxItems).maxItems_pos
  refine ⟨hpos, fun _ => ⟨rfl, by simp [CacheManager.under, kvsCacheSetPolicy, kvsCacheInit,
    lruInit]⟩, fun _ => ⟨(lfuInit_valid _).sound, hpos, ?_⟩, fun _ => ⟨arcInit_steady hpos, ?_⟩⟩
  · intro node hnode
    obtain ⟨idx, hidx, -⟩ := LFUCache.mem_residents.1 hnode
    have hle : idx ≤ 0 := hidx.2
    have hone := hidx.1
    omega
  · exact fun node hnode => absurd hnode not_mem_nil

/-- While there is memory, every run has a result. -/
theorem exists_run_calls (policy : Policy) (maxItems : ℤ) {calls : List CacheCall}
    (halloc : ∀ alloc key value, .add alloc key value ∈ calls → alloc = allocOk) :
    ∃ final answers, run cacheStep (CacheManager.under F policy maxItems) calls =
      some (final, answers) := by
  have hstep : ∀ (manager : CacheManager F) (call : CacheCall), Tended manager →
      (∀ alloc key value, call = .add alloc key value → alloc = allocOk) →
      ∃ after answer, cacheStep manager call = some (after, answer) ∧ Tended after ∧ True := by
    intro manager call htended halloc
    obtain ⟨after, answer, hanswer⟩ := htended.exists_step halloc
    exact ⟨after, answer, hanswer, (htended.step hanswer).tended, trivial⟩
  have hadmitted : Along (cacheStep (F := F)) (fun _ call => ∀ alloc key value,
      call = .add alloc key value → alloc = allocOk)
      (CacheManager.under F policy maxItems) calls :=
    along_of_forall (by rintro - call hcall alloc key value rfl; exact halloc _ _ _ hcall) _
  obtain ⟨⟨final, answers, hrun, -⟩, -⟩ :=
    run_invariant Tended hstep (tended_under policy maxItems) hadmitted
  exact ⟨final, answers, hrun⟩

end Runs

/-! ## The books -/

/-- A manager with the number of insertions and of the values that deletions removed. -/
structure Accounts (F : Type) where
  manager : CacheManager F
  adds : ℕ
  removed : ℕ

def Accounts.opened (manager : CacheManager F) : Accounts F where
  manager := manager
  adds := 0
  removed := 0

/-- Every entry inserted is still held, was deleted, or is counted as evicted. -/
def Accounts.Balanced (books : Accounts F) : Prop :=
  books.adds = books.manager.held + books.removed + books.manager.evictionCount

instance (books : Accounts F) : Decidable books.Balanced :=
  inferInstanceAs (Decidable (_ = _))

/-- The books after a call that left the manager in the given state. -/
def Accounts.enter (books : Accounts F) (after : CacheManager F) : CacheCall → Accounts F
  | .get _ => { books with manager := after }
  | .add _ _ _ => { books with manager := after, adds := books.adds + 1 }
  | .del _ => { books with
      manager := after
      removed := books.removed + (books.manager.held - after.held) }

theorem Accounts.enter_manager (books : Accounts F) (after : CacheManager F) (call : CacheCall) :
    (books.enter after call).manager = after := by
  cases call <;> rfl

def accountStep (books : Accounts F) (call : CacheCall) : Option (Accounts F × CacheAnswer) :=
  (cacheStep books.manager call).map fun result => (books.enter result.1 call, result.2)

/-- An insertion costs no value that goes uncounted. -/
def CountsLosses (manager : CacheManager F) : CacheCall → Prop
  | .add _ _ _ => ¬manager.LosesEntry
  | _ => True

instance (manager : CacheManager F) (call : CacheCall) : Decidable (CountsLosses manager call) :=
  match call with
  | .get _ => isTrue trivial
  | .add _ _ _ => inferInstanceAs (Decidable (¬_))
  | .del _ => isTrue trivial

/-- The values inserted that are unaccounted for. -/
def Accounts.Missing (books : Accounts F) (lost : ℕ) : Prop :=
  books.adds = books.manager.held + books.removed + books.manager.evictionCount + lost

/-- A step loses one more value exactly when it evicts one that goes uncounted. -/
theorem accountStep_missing {books after : Accounts F} {lost : ℕ}
    (htended : Tended books.manager) (hmissing : books.Missing lost)
    (hstep : accountStep books call = some (after, answer)) :
    cacheStep books.manager call = some (after.manager, answer) ∧ Tended after.manager ∧
      after.Missing (lost + if CountsLosses books.manager call then 0 else 1) := by
  obtain ⟨⟨final, given⟩, hfinal, heq⟩ := Option.map_eq_some_iff.1 hstep
  simp only [Prod.mk.injEq] at heq
  obtain ⟨rfl, rfl⟩ := heq
  obtain ⟨-, hafter, hbooked⟩ := htended.step hfinal
  rw [Accounts.enter_manager]
  refine ⟨hfinal, hafter, ?_⟩
  unfold Accounts.Missing at hmissing ⊢
  cases call with
  | get key =>
      obtain ⟨hcount, hheld⟩ := hbooked
      rw [if_pos (show CountsLosses books.manager (.get key) from trivial)]
      simp only [Accounts.enter, hcount, hheld]
      omega
  | add alloc key value =>
      simp only [Booked] at hbooked
      simp only [Accounts.enter]
      by_cases hloses : books.manager.LosesEntry
      · simp only [CountsLosses, hloses, not_true_eq_false, if_false, if_true] at hbooked ⊢
        omega
      · simp only [CountsLosses, hloses, not_false_eq_true, if_false, if_true] at hbooked ⊢
        omega
  | del key =>
      obtain ⟨hcount, hheld⟩ := hbooked
      rw [if_pos (show CountsLosses books.manager (.del key) from trivial)]
      simp only [Accounts.enter, hcount]
      omega

/-- Losses are never made up for, so the books balance at the end of a run exactly when no
step lost a value. -/
theorem balanced_iff_along {books final : Accounts F} {calls : List CacheCall}
    {answers : List CacheAnswer} {lost : ℕ} (htended : Tended books.manager)
    (hmissing : books.Missing lost) (hrun : run accountStep books calls = some (final, answers)) :
    final.Balanced ↔ lost = 0 ∧ Along cacheStep CountsLosses books.manager calls := by
  induction calls generalizing books answers lost with
  | nil =>
      simp only [run, Option.some.injEq, Prod.mk.injEq] at hrun
      obtain ⟨rfl, -⟩ := hrun
      simp only [Accounts.Balanced, Accounts.Missing, Along, and_true] at hmissing ⊢
      omega
  | cons call calls ih =>
      obtain ⟨after, answer, rest, hstep, hrest, -⟩ := run_eq_some_cons hrun
      obtain ⟨hcache, hafter, hmore⟩ := accountStep_missing htended hmissing hstep
      have hnext : Along cacheStep CountsLosses books.manager (call :: calls) ↔
          CountsLosses books.manager call ∧ Along cacheStep CountsLosses after.manager calls := by
        simp [Along, hcache]
      rw [ih hafter hmore hrest, hnext]
      by_cases hcounts : CountsLosses books.manager call
      · simp [hcounts]
      · simp [hcounts]

theorem run_accountStep_isSome {books : Accounts F} {calls : List CacheCall} :
    (run accountStep books calls).isSome = (run cacheStep books.manager calls).isSome := by
  induction calls generalizing books with
  | nil => rfl
  | cons call calls ih =>
      cases hstep : cacheStep books.manager call with
      | none => simp [run, accountStep, hstep]
      | some result =>
          have hbooks : accountStep books call = some (books.enter result.1 call, result.2) := by
            rw [accountStep, hstep]
            rfl
          rw [run_cons hstep, run_cons hbooks, Option.isSome_map, Option.isSome_map, ih,
            Accounts.enter_manager]

/-- Under each policy and in every run, the books balance at the end exactly when no
insertion evicted a value without counting it; while there is memory, every run has a
result. -/
theorem eviction_accounting_iff [CFloat F] (policy : Policy) (maxItems : ℤ)
    (calls : List CacheCall) :
    (∀ books answers,
      run accountStep (.opened (CacheManager.under F policy maxItems)) calls =
          some (books, answers) →
        (books.Balanced ↔
          Along cacheStep CountsLosses (CacheManager.under F policy maxItems) calls)) ∧
      ((∀ alloc key value, .add alloc key value ∈ calls → alloc = allocOk) →
        (run accountStep (.opened (CacheManager.under F policy maxItems)) calls).isSome) := by
  constructor
  · intro books answers hrun
    have hnone : (Accounts.opened (CacheManager.under F policy maxItems)).Missing 0 := by
      have hheld : (CacheManager.under F policy maxItems).held = 0 := by
        cases policy <;> rfl
      simp only [Accounts.Missing, Accounts.opened, hheld]
      rfl
    rw [balanced_iff_along (tended_under policy maxItems) hnone hrun, and_iff_right rfl]
    rfl
  · intro halloc
    obtain ⟨final, answers, hrun⟩ := exists_run_calls (F := F) policy maxItems halloc
    rw [run_accountStep_isSome]
    exact Option.isSome_iff_exists.2 ⟨_, hrun⟩

/-- Two insertions under the frequency policy into a cache for one entry. -/
def secondEvictsFirst : List CacheCall :=
  [.add allocOk (lit "a") (lit "v"), .add allocOk (lit "b") (lit "w")]

theorem eviction_uncounted :
    (run accountStep (.opened (CacheManager.under Float32 .lfu 1)) secondEvictsFirst).map
      (fun result => (result.1.adds, result.1.manager.held, result.1.removed,
        result.1.manager.evictionCount)) = some (2, 1, 0, 0) := by
  decide +kernel

end LiteMultiKV.Cache
