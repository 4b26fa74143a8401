import LiteMultiKV.Cache.Arc
import LiteMultiKV.Cache.Lfu
import LiteMultiKV.Core.CFloat

/-!
# The cache manager

One manager keeps the structures of all three policies alive and works on the
one whose policy is active.  The specifications below say what a lookup, an
insertion after a miss and a deletion do to the pairs the active structure
caches, whatever the policy, and that the two others are not touched.
-/

namespace LiteMultiKV.Cache

open List CText Dictionary Memory Numeric

/-- `EVICT_LRU`, `EVICT_LFU` and `EVICT_ARC`. -/
inductive Policy where
  | lru
  | lfu
  | arc
  deriving DecidableEq

instance : Fintype Policy where
  elems := {.lru, .lfu, .arc}
  complete := by
    intro policy
    cases policy <;> decide

inductive AccessPattern where
  | stable
  | bursty
  | periodic
  | random
  deriving DecidableEq

structure AIStats (F : Type) where
  hitRateHistory : ℕ → F
  historyIdx : ℕ
  historyCount : ℕ
  thresholdHitRate : F
  thresholdBurstRatio : F
  accessByMinute : ℕ → ℕ
  accessByHour : ℕ → ℕ
  predictedQps : F
  predictedHitRate : F
  detectedPattern : AccessPattern
  lastMinute : ℕ
  lastHour : ℕ

structure CacheManager (F : Type) where
  policy : Policy
  maxItems : ℕ
  lru : LRUCache
  lfu : LFUCache
  arc : ARCCache
  totalAccess : ℕ
  cacheHit : ℕ
  cacheMiss : ℕ
  evictionCount : ℕ
  policyChanges : ℕ
  accessBySecond : ℕ → ℕ
  lastUpdateTime : ℕ
  ai : AIStats F

def defaultMaxItems : ℕ := 1000

def kvsCacheInit (F : Type) [CFloat F] (maxItems : ℤ) : CacheManager F :=
  let maxItems := if 0 < maxItems then maxItems.toNat else defaultMaxItems
  { policy := .lru
    maxItems := maxItems
    lru := lruInit
    lfu := lfuInit maxItems
    arc := arcInit maxItems
    totalAccess := 0
    cacheHit := 0
    cacheMiss := 0
    evictionCount := 0
    policyChanges := 0
    accessBySecond := fun _ => 0
    lastUpdateTime := 0
    ai :=
      { hitRateHistory := fun _ => 0.0
        historyIdx := 0
        historyCount := 0
        thresholdHitRate := 50.0
        thresholdBurstRatio := 5.0
        accessByMinute := fun _ => 0
        accessByHour := fun _ => 0
        predictedQps := 0.0
        predictedHitRate := 0.0
        detectedPattern := .stable
        lastMinute := 0
        lastHour := 0 } }

section Operations

variable {F : Type}

def countHit (cache : CacheManager F) : CacheManager F :=
  { cache with cacheHit := cache.cacheHit + 1, totalAccess := cache.totalAccess + 1 }

def countMiss (cache : CacheManager F) : CacheManager F :=
  { cache with cacheMiss := cache.cacheMiss + 1, totalAccess := cache.totalAccess + 1 }

def kvsCacheGet (cache : CacheManager F) :
    Option CStr → Option (CacheManager F × Option CStr)
  | none => some (cache, none)
  | some key =>
      if cache.maxItems = 0 then some (cache, none)
      else
        match cache.policy with
        | .lru =>
            match lruFind cache.lru key with
            | some place =>
                some (countHit { cache with lru := lruTouch cache.lru place },
                  place.node.value)
            | none => some (countMiss cache, none)
        | .lfu =>
            match lfuFind cache.lfu key with
            | some idx => do
                let (lfu, value) ← lfuHit cache.lfu idx
                return (countHit { cache with lfu := lfu }, value)
            | none => some (countMiss cache, none)
        | .arc => do
            let (arc, value) ← arcGet cache.arc key
            let cache := { cache with arc := arc }
            return (if value.isSome then countHit cache else countMiss cache, value)

/-- The key of the victim, if there is one. -/
def kvsCacheLruEvictKey (cache : CacheManager F) : CacheManager F × Option CStr :=
  match lruEvict cache.lru with
  | (_, none) => (cache, none)
  | (lru, some victim) =>
      ({ cache with lru := lru, evictionCount := cache.evictionCount + 1 }, victim.key)

/-- The eviction loop of `kvs_cache_lru_add`; without a victim it would not
end. -/
def makeRoom : ℕ → CacheManager F → Option (CacheManager F)
  | 0, _ => none
  | fuel + 1, cache =>
      if (cache.maxItems : ℤ) ≤ cache.lru.size then
        makeRoom fuel (kvsCacheLruEvictKey cache).1
      else some cache

/-- The node, its key and its value are allocated without a check. -/
def kvsCacheLruAdd (alloc : Alloc) (cache : CacheManager F) (key value : CStr) :
    Option (CacheManager F) :=
  let node : EvictNode := { key := some key, value := some value, accessCount := 1 }
  match cache.policy with
  | .arc => (arcAdd alloc cache.arc key value).map fun arc => { cache with arc := arc }
  | .lru =>
      if alloc 0 && alloc 1 && alloc 2 then do
        let cache ← makeRoom (cache.lru.nodes.length + 1) cache
        return { cache with lru := lruAddFront cache.lru node }
      else none
  | .lfu =>
      if alloc 0 && alloc 1 && alloc 2 then do
        let lfu ← lfuMakeRoom cache.lfu
        let lfu ← lfuAdd lfu node
        return { cache with lfu := lfu }
      else none

def kvsCacheDel (cache : CacheManager F) : Option CStr → Option (CacheManager F × ℤ)
  | none => some (cache, -1)
  | some key =>
      if cache.maxItems = 0 then some (cache, -1)
      else
        match cache.policy with
        | .lru =>
            match lruFind cache.lru key with
            | some place => some ({ cache with lru := lruRemove cache.lru place }, 0)
            | none => some (cache, -2)
        | .lfu =>
            match lfuFind cache.lfu key with
            | some idx => do
                let lfu ← lfuHeapifyDown (fillFromEnd cache.lfu idx) idx
                return ({ cache with lfu := lfu }, 0)
            | none => some (cache, -2)
        | .arc =>
            let (arc, code) := arcDel cache.arc key
            some ({ cache with arc := arc }, code)

def kvsCacheSetPolicy (cache : CacheManager F) (policy : Policy) : CacheManager F :=
  { cache with policy := policy, policyChanges := cache.policyChanges + 1 }

/-- A manager of the given capacity that follows a policy. -/
def CacheManager.under (F : Type) [CFloat F] (policy : Policy) (maxItems : ℤ) :
    CacheManager F :=
  kvsCacheSetPolicy (kvsCacheInit F maxItems) policy

/-- `kvs_cache_policy_name`. -/
def policyName : Policy → CStr
  | .lru => lit "LRU"
  | .lfu => lit "LFU"
  | .arc => lit "ARC"

/-- A call of `kvs_cache_get`, `kvs_cache_lru_add` or `kvs_cache_del`. -/
inductive CacheCall where
  | get (key : Option CStr)
  | add (alloc : Alloc) (key value : CStr)
  | del (key : Option CStr)

/-- There is memory for an insertion. -/
def CacheCall.HasMemory : CacheCall → Prop
  | .add alloc _ _ => alloc = allocOk
  | _ => True

inductive CacheAnswer where
  | value (text : Option CStr)
  | added
  | code (value : ℤ)
  deriving DecidableEq

def cacheStep (cache : CacheManager F) :
    CacheCall → Option (CacheManager F × CacheAnswer)
  | .get key => (kvsCacheGet cache key).map fun result => (result.1, .value result.2)
  | .add alloc key value => (kvsCacheLruAdd alloc cache key value).map fun after =>
      (after, .added)
  | .del key => (kvsCacheDel cache key).map fun result => (result.1, .code result.2)

/-! ## What is cached -/

/-- The nodes of the structure that belongs to a policy. -/
def CacheManager.nodesOf (cache : CacheManager F) : Policy → List EvictNode
  | .lru => cache.lru.nodes
  | .lfu => cache.lfu.residents
  | .arc => cache.arc.nodes

/-- The value a policy's structure caches for a key. -/
def CacheManager.peek (cache : CacheManager F) (policy : Policy) (key : CStr) :
    Option CStr :=
  denote (cachedOf (cache.nodesOf policy)) key

structure CacheManager.Valid (cache : CacheManager F) : Prop where
  maxItems_pos : 0 < cache.maxItems
  lru_valid : cache.lru.Valid
  lfu_valid : cache.lfu.Valid
  lfu_capacity : cache.lfu.capacity = cache.maxItems
  arc_valid : cache.arc.Valid
  arc_maxSize : cache.arc.maxSize = cache.maxItems

theorem kvsCacheInit_valid [CFloat F] (maxItems : ℤ) : (kvsCacheInit F maxItems).Valid where
  maxItems_pos := by
    simp only [kvsCacheInit, defaultMaxItems]
    split <;> omega
  lru_valid := lruInit_valid
  lfu_valid := lfuInit_valid _
  lfu_capacity := rfl
  arc_valid := arcInit_valid _
  arc_maxSize := rfl

theorem kvsCacheInit_nodesOf [CFloat F] (maxItems : ℤ) (policy : Policy) :
    (kvsCacheInit F maxItems).nodesOf policy = [] := by
  cases policy <;> rfl

variable {cache after : CacheManager F} {key : CStr}

theorem CacheManager.Valid.nodupKeys (hvalid : cache.Valid) (policy : Policy) :
    (cachedOf (cache.nodesOf policy)).NodupKeys := by
  cases policy with
  | lru => exact hvalid.lru_valid.resident.firstValued.nodupKeys
  | lfu => exact hvalid.lfu_valid.resident.firstValued.nodupKeys
  | arc =>
      rw [CacheManager.nodesOf, hvalid.arc_valid.cachedOf_nodes]
      exact hvalid.arc_valid.order.nodupKeys

/-- The node carries a value for the key. -/
def EvictNode.carries (key : CStr) (node : EvictNode) : Bool :=
  node.key = some key && node.value.isSome

theorem EvictNode.carries_iff {node : EvictNode} :
    node.carries key = true ↔ ∃ value, node.key = some key ∧ node.value = some value := by
  simp [EvictNode.carries, Option.isSome_iff_exists]

/-- A structure that caches one value for a key has one node that carries it. -/
theorem length_filter_carries {nodes : List EvictNode} (hnodup : (cachedOf nodes).NodupKeys)
    (key : CStr) : (nodes.filter (EvictNode.carries key)).length ≤ 1 := by
  induction nodes with
  | nil => simp
  | cons node nodes ih =>
      have hrest : (cachedOf nodes).NodupKeys := by
        refine hnodup.sublist ?_
        exact (sublist_cons_self node nodes).filterMap _
      by_cases hcarries : node.carries key = true
      · obtain ⟨value, hkey, hvalue⟩ := EvictNode.carries_iff.1 hcarries
        rw [cachedOf_cons_filled hkey hvalue, nodupKeys_cons] at hnodup
        have hnone : nodes.filter (EvictNode.carries key) = [] := by
          rw [filter_eq_nil_iff]
          intro other hother hcarried
          obtain ⟨text, hown, htext⟩ := EvictNode.carries_iff.1 hcarried
          have hmem : entry key text ∈ cachedOf nodes :=
            mem_cachedOf.2 ⟨other, hother, hown, htext⟩
          have hown : key ∈ (cachedOf nodes).keys := mem_keys_of_mem hmem
          exact hnodup.1 hown
        rw [filter_cons_of_pos hcarries, hnone]
        simp
      · rw [filter_cons_of_neg hcarries]
        exact ih hrest

/-- An operation that works on the active structure only. -/
structure Kept (before after : CacheManager F) : Prop where
  valid : after.Valid
  policy_eq : after.policy = before.policy
  maxItems_eq : after.maxItems = before.maxItems
  inactive : ∀ policy, policy ≠ before.policy → after.nodesOf policy = before.nodesOf policy

theorem Kept.refl (hvalid : cache.Valid) : Kept cache cache :=
  ⟨hvalid, rfl, rfl, fun _ _ => rfl⟩

theorem Kept.trans {first second third : CacheManager F} (hfirst : Kept first second)
    (hsecond : Kept second third) : Kept first third where
  valid := hsecond.valid
  policy_eq := hsecond.policy_eq.trans hfirst.policy_eq
  maxItems_eq := hsecond.maxItems_eq.trans hfirst.maxItems_eq
  inactive := by
    intro policy hother
    rw [hsecond.inactive policy (hfirst.policy_eq ▸ hother), hfirst.inactive policy hother]

theorem kept_lru (hvalid : cache.Valid) (hpolicy : cache.policy = .lru) {lru : LRUCache}
    (hlru : lru.Valid) (hafter : after.lru = lru) (hlfu : after.lfu = cache.lfu)
    (harc : after.arc = cache.arc) (hpolicyAfter : after.policy = cache.policy)
    (hmax : after.maxItems = cache.maxItems) : Kept cache after := by
  refine ⟨⟨hmax ▸ hvalid.maxItems_pos, hafter ▸ hlru, hlfu ▸ hvalid.lfu_valid, ?_,
    harc ▸ hvalid.arc_valid, ?_⟩, hpolicyAfter, hmax, fun policy hother => ?_⟩
  · rw [hlfu, hmax, hvalid.lfu_capacity]
  · rw [harc, hmax, hvalid.arc_maxSize]
  · rw [hpolicy] at hother
    cases policy with
    | lru => exact absurd rfl hother
    | lfu => simp only [CacheManager.nodesOf, hlfu]
    | arc => simp only [CacheManager.nodesOf, harc]

theorem kept_lfu (hvalid : cache.Valid) (hpolicy : cache.policy = .lfu) {lfu : LFUCache}
    (hlfu : lfu.Valid) (hcapacity : lfu.capacity = cache.lfu.capacity)
    (hafter : after.lfu = lfu) (hlru : after.lru = cache.lru) (harc : after.arc = cache.arc)
    (hpolicyAfter : after.policy = cache.policy) (hmax : after.maxItems = cache.maxItems) :
    Kept cache after := by
  refine ⟨⟨hmax ▸ hvalid.maxItems_pos, hlru ▸ hvalid.lru_valid, hafter ▸ hlfu, ?_,
    harc ▸ hvalid.arc_valid, ?_⟩, hpolicyAfter, hmax, fun policy hother => ?_⟩
  · rw [hafter, hcapacity, hmax, hvalid.lfu_capacity]
  · rw [harc, hmax, hvalid.arc_maxSize]
  · rw [hpolicy] at hother
    cases policy with
    | lru => simp only [CacheManager.nodesOf, hlru]
    | lfu => exact absurd rfl hother
    | arc => simp only [CacheManager.nodesOf, harc]

theorem kept_arc (hvalid : cache.Valid) (hpolicy : cache.policy = .arc) {arc : ARCCache}
    (harc : arc.Valid) (hmaxSize : arc.maxSize = cache.arc.maxSize)
    (hafter : after.arc = arc) (hlru : after.lru = cache.lru) (hlfu : after.lfu = cache.lfu)
    (hpolicyAfter : after.policy = cache.policy) (hmax : after.maxItems = cache.maxItems) :
    Kept cache after := by
  refine ⟨⟨hmax ▸ hvalid.maxItems_pos, hlru ▸ hvalid.lru_valid, hlfu ▸ hvalid.lfu_valid, ?_,
    hafter ▸ harc, ?_⟩, hpolicyAfter, hmax, fun policy hother => ?_⟩
  · rw [hlfu, hmax, hvalid.lfu_capacity]
  · rw [hafter, hmaxSize, hmax, hvalid.arc_maxSize]
  · rw [hpolicy] at hother
    cases policy with
    | lru => simp only [CacheManager.nodesOf, hlru]
    | lfu => simp only [CacheManager.nodesOf, hlfu]
    | arc => exact absurd rfl hother

/-! ## Lookup -/

/-- A lookup answers what is cached and keeps it. -/
theorem kvsCacheGet_spec (hvalid : cache.Valid) (key : CStr) :
    ∃ after, kvsCacheGet cache (some key) = some (after, cache.peek cache.policy key) ∧
      Kept cache after ∧
      (cachedOf (after.nodesOf cache.policy)).Perm (cachedOf (cache.nodesOf cache.policy)) := by
  have hmax : cache.maxItems ≠ 0 := hvalid.maxItems_pos.ne'
  cases hpolicy : cache.policy with
  | lru =>
      have hresident := hvalid.lru_valid.resident
      cases hfind : lruFind cache.lru key with
      | none =>
          have hnone : cache.peek .lru key = none :=
            denote_cachedOf_eq_none fun node hnode hown =>
              absurd hown (findPlace_eq_none.1 hfind node hnode)
          exact ⟨countMiss cache, by simp [kvsCacheGet, hmax, hpolicy, hfind, hnone],
            kept_lru hvalid hpolicy hvalid.lru_valid rfl rfl rfl rfl rfl, Perm.refl _⟩
      | some place =>
          have hplace := findPlace_eq_some hfind
          obtain ⟨htouched, hperm⟩ := lruTouch_valid hvalid.lru_valid hplace
          have hvalue : cache.peek .lru key = place.node.value :=
            hresident.firstValued.denote_found hplace
          exact ⟨countHit { cache with lru := lruTouch cache.lru place },
            by simp [kvsCacheGet, hmax, hpolicy, hfind, hvalue],
            kept_lru hvalid hpolicy htouched rfl rfl rfl rfl rfl, cachedOf_perm hperm⟩
  | lfu =>
      have hresident := hvalid.lfu_valid.resident
      cases hfind : lfuFind cache.lfu key with
      | none =>
          have hnone : cache.peek .lfu key = none :=
            denote_cachedOf_eq_none fun node hnode hown =>
              absurd hown (lfuFind_eq_none hfind node hnode)
          exact ⟨countMiss cache, by simp [kvsCacheGet, hmax, hpolicy, hfind, hnone],
            kept_lfu hvalid hpolicy hvalid.lfu_valid rfl rfl rfl rfl rfl rfl, Perm.refl _⟩
      | some idx =>
          obtain ⟨hidx, node, hnode, hown⟩ := lfuFind_eq_some hfind
          obtain ⟨lfu, hhit, hlfu, hcapacity, hperm⟩ := lfuHit_spec hvalid.lfu_valid hidx hnode
          have hmem : node ∈ cache.lfu.residents := LFUCache.mem_residents.2 ⟨idx, hidx, hnode⟩
          obtain ⟨own, value, -, hvalue⟩ := hresident.filled node hmem
          have hpeek : cache.peek .lfu key = node.value := by
            rw [hvalue, CacheManager.peek, denote_eq_some_iff (hvalid.nodupKeys .lfu)]
            exact mem_cachedOf.2 ⟨node, hmem, hown, hvalue⟩
          exact ⟨countHit { cache with lfu := lfu },
            by simp [kvsCacheGet, hmax, hpolicy, hfind, hhit, hpeek],
            kept_lfu hvalid hpolicy hlfu hcapacity rfl rfl rfl rfl rfl, hperm⟩
  | arc =>
      obtain ⟨arc, hget, harc, hmaxSize, hperm⟩ := arcGet_spec hvalid.arc_valid key
      rw [← hvalid.arc_valid.cachedOf_nodes] at hget hperm
      rw [← harc.cachedOf_nodes] at hperm
      refine ⟨if (cache.peek .arc key).isSome then countHit { cache with arc := arc }
          else countMiss { cache with arc := arc }, ?_, ?_, ?_⟩
      · simp [kvsCacheGet, hmax, hpolicy, hget, CacheManager.peek, CacheManager.nodesOf]
      · split <;> exact kept_arc hvalid hpolicy harc hmaxSize rfl rfl rfl rfl rfl
      · split <;> exact hperm

/-! ## Insertion -/

/-- The eviction loop keeps the most recent nodes that leave room for one more. -/
theorem makeRoom_take : ∀ (fuel : ℕ) (cache : CacheManager F), 0 < cache.maxItems →
    cache.lru.Sized → cache.lru.nodes.length < fuel →
    makeRoom fuel cache = some { cache with
      lru :=
        { nodes := cache.lru.nodes.take (cache.maxItems - 1)
          size := (cache.lru.nodes.take (cache.maxItems - 1)).length }
      evictionCount :=
        cache.evictionCount + (cache.lru.nodes.length - (cache.maxItems - 1)) }
  | 0, _, _, _, hfuel => absurd hfuel (Nat.not_lt_zero _)
  | fuel + 1, cache, hmax, hsized, hfuel => by
      by_cases hfull : (cache.maxItems : ℤ) ≤ cache.lru.size
      · rw [hsized] at hfull
        cases htail : lruTail cache.lru with
        | none =>
            rw [lruTail_eq_none.1 htail, length_nil] at hfull
            omega
        | some victim =>
            obtain ⟨hnodes, hback⟩ := lruTail_eq_some htail
            have hlength : cache.lru.nodes.length = victim.front.length + 1 := by
              rw [hnodes, length_append, length_singleton]
            have hremoved : lruRemove cache.lru victim =
                { nodes := victim.front, size := victim.front.length } := by
              rw [lruRemove, hback, append_nil, hsized, hlength]
              congr 1
              omega
            have hstep : (kvsCacheLruEvictKey cache).1 =
                { cache with
                  lru := { nodes := victim.front, size := victim.front.length }
                  evictionCount := cache.evictionCount + 1 } := by
              simp [kvsCacheLruEvictKey, lruEvict, htail, hremoved]
            have hkept : cache.lru.nodes.take (cache.maxItems - 1) =
                victim.front.take (cache.maxItems - 1) := by
              rw [hnodes, take_append_of_le_length (by omega)]
            have hcount : cache.evictionCount + 1 + (victim.front.length - (cache.maxItems - 1)) =
                cache.evictionCount + (cache.lru.nodes.length - (cache.maxItems - 1)) := by
              omega
            have hrest := makeRoom_take fuel (kvsCacheLruEvictKey cache).1
              (by rw [hstep]; exact hmax) (by rw [hstep]; rfl)
              (by rw [hstep]; change victim.front.length < fuel; omega)
            rw [hstep] at hrest
            rw [makeRoom, if_pos (by rw [hsized]; exact hfull), hstep, hrest]
            simp only [hkept, hcount]
      · have hkept : cache.lru.nodes.take (cache.maxItems - 1) = cache.lru.nodes := by
          rw [hsized] at hfull
          exact take_of_length_le (by omega)
        have hcount : cache.lru.nodes.length - (cache.maxItems - 1) = 0 := by
          rw [hsized] at hfull
          omega
        rw [makeRoom, if_neg hfull, hkept, hcount, ← hsized]
        rfl

/-- An insertion under the LRU policy, whatever key it is of. -/
theorem kvsCacheLruAdd_take (hpolicy : cache.policy = .lru) (hmax : 0 < cache.maxItems)
    (hsized : cache.lru.Sized) (key value : CStr) :
    kvsCacheLruAdd allocOk cache key value = some { cache with
      lru := lruAddFront
        { nodes := cache.lru.nodes.take (cache.maxItems - 1)
          size := (cache.lru.nodes.take (cache.maxItems - 1)).length }
        { key := some key, value := some value, accessCount := 1 }
      evictionCount :=
        cache.evictionCount + (cache.lru.nodes.length - (cache.maxItems - 1)) } := by
  simp [kvsCacheLruAdd, hpolicy, makeRoom_take _ cache hmax hsized (Nat.lt_succ_self _)]

theorem makeRoom_spec {cache : CacheManager F} (hmax : 0 < cache.maxItems)
    (hvalid : cache.lru.Valid) :
    ∃ lru evicted, makeRoom (cache.lru.nodes.length + 1) cache =
        some { cache with lru := lru, evictionCount := cache.evictionCount + evicted } ∧
      lru.Valid ∧ lru.nodes.Sublist cache.lru.nodes := by
  have hsublist := take_sublist (cache.maxItems - 1) cache.lru.nodes
  exact ⟨_, _, makeRoom_take _ cache hmax hvalid.size_eq (Nat.lt_succ_self _),
    ⟨rfl, hvalid.resident.subperm hsublist.subperm⟩, hsublist⟩

/-- Insertion after a miss adds one pair; eviction may cost others. -/
theorem kvsCacheLruAdd_spec (hvalid : cache.Valid) (hmiss : cache.peek cache.policy key = none)
    (value : CStr) :
    ∃ after kept, kvsCacheLruAdd allocOk cache key value = some after ∧ Kept cache after ∧
      kept.Subperm (cachedOf (cache.nodesOf cache.policy)) ∧
      (cachedOf (after.nodesOf cache.policy)).Perm (entry key value :: kept) := by
  let node : EvictNode := { key := some key, value := some value, accessCount := 1 }
  cases hpolicy : cache.policy with
  | lru =>
      rw [hpolicy] at hmiss
      obtain ⟨lru, evicted, hroom, hlru, hsublist⟩ :=
        makeRoom_spec hvalid.maxItems_pos hvalid.lru_valid
      have hkept : (cachedOf lru.nodes).Sublist (cachedOf cache.lru.nodes) :=
        hsublist.filterMap _
      have hfresh : denote (cachedOf lru.nodes) key = none :=
        denote_eq_none_of_subset hkept.subset hmiss
      have hadded : (lruAddFront lru node).Valid := by
        refine ⟨?_, hlru.resident.cons rfl rfl hfresh⟩
        simp only [lruAddFront, hlru.size_eq, length_cons]
        omega
      exact ⟨{ cache with
          lru := lruAddFront lru node
          evictionCount := cache.evictionCount + evicted }, cachedOf lru.nodes,
        by simp [kvsCacheLruAdd, hpolicy, hroom, node],
        kept_lru hvalid hpolicy hadded rfl rfl rfl rfl rfl, hkept.subperm,
        Perm.of_eq (cachedOf_cons_filled rfl rfl _)⟩
  | lfu =>
      rw [hpolicy] at hmiss
      have hpositive : 0 < cache.lfu.capacity := by
        rw [hvalid.lfu_capacity]
        exact hvalid.maxItems_pos
      obtain ⟨lfu, hroom, hlfu, hsize, hcapacity, hsubperm⟩ :=
        lfuMakeRoom_spec hvalid.lfu_valid hpositive
      have hkept : (cachedOf lfu.residents).Subperm (cachedOf cache.lfu.residents) := by
        obtain ⟨middle, hperm, hsublist⟩ := hsubperm
        exact ⟨cachedOf middle, cachedOf_perm hperm, hsublist.filterMap _⟩
      have hfresh : denote (cachedOf lfu.residents) key = none :=
        denote_eq_none_of_subset hkept.subset hmiss
      obtain ⟨added, hadd, hadded, -, hcap, hperm⟩ :=
        lfuAdd_spec hlfu hsize node rfl rfl hfresh
      refine ⟨{ cache with lfu := added }, cachedOf lfu.residents, ?_,
        kept_lfu hvalid hpolicy hadded (hcap.trans hcapacity) rfl rfl rfl rfl rfl, hkept, ?_⟩
      · simp only [node] at hadd
        simp [kvsCacheLruAdd, hpolicy, hroom, hadd]
      · exact (cachedOf_perm hperm).trans (Perm.of_eq (cachedOf_cons_filled rfl rfl _))
  | arc =>
      rw [hpolicy, CacheManager.peek, CacheManager.nodesOf,
        hvalid.arc_valid.cachedOf_nodes] at hmiss
      obtain ⟨arc, hadd⟩ :=
        arcAdd_granted hvalid.arc_valid.b1_sized hvalid.arc_valid.b2_sized key value
      obtain ⟨harc, hmaxSize, kept, hsublist, hcached⟩ :=
        arcAdd_kept hvalid.arc_valid hmiss hadd
      refine ⟨{ cache with arc := arc }, kept, by simp [kvsCacheLruAdd, hpolicy, hadd],
        kept_arc hvalid hpolicy harc hmaxSize rfl rfl rfl rfl rfl, ?_, ?_⟩
      · rw [CacheManager.nodesOf, hvalid.arc_valid.cachedOf_nodes]
        exact hsublist.subperm
      · rw [CacheManager.nodesOf, harc.cachedOf_nodes, hcached rfl]

/-- Whatever allocations fail, an insertion that returns keeps the cache valid. -/
theorem kvsCacheLruAdd_kept (hvalid : cache.Valid) (hmiss : cache.peek cache.policy key = none)
    {alloc : Alloc} {value : CStr} (hadd : kvsCacheLruAdd alloc cache key value = some after) :
    Kept cache after := by
  by_cases hpolicy : cache.policy = .arc
  · rw [hpolicy, CacheManager.peek, CacheManager.nodesOf,
      hvalid.arc_valid.cachedOf_nodes] at hmiss
    simp only [kvsCacheLruAdd, hpolicy, Option.map_eq_some_iff] at hadd
    obtain ⟨arc, hadd, rfl⟩ := hadd
    obtain ⟨harc, hmaxSize, -⟩ := arcAdd_kept hvalid.arc_valid hmiss hadd
    exact kept_arc hvalid hpolicy harc hmaxSize rfl rfl rfl hpolicy.symm rfl
  · -- the other two policies use what they allocate
    have hused : kvsCacheLruAdd alloc cache key value =
        if alloc 0 && alloc 1 && alloc 2 then kvsCacheLruAdd allocOk cache key value
        else none := by
      cases hother : cache.policy with
      | arc => exact absurd hother hpolicy
      | lru =>
          simp only [kvsCacheLruAdd, hother]
          rfl
      | lfu =>
          simp only [kvsCacheLruAdd, hother]
          rfl
    rw [hused] at hadd
    split at hadd
    · obtain ⟨expected, -, hgranted, hkept, -⟩ := kvsCacheLruAdd_spec hvalid hmiss value
      obtain rfl : expected = after := Option.some.inj (hgranted.symm.trans hadd)
      exact hkept
    · cases hadd

/-! ## Deletion -/

/-- Removing a node with a value from a structure without ghosts. -/
theorem Resident.cleared {nodes rest : List EvictNode} (hresident : Resident nodes)
    {node : EvictNode} (hkey : node.key = some key) (hperm : nodes.Perm (node :: rest)) :
    Cleared key nodes rest := by
  have hmem : node ∈ nodes := hperm.mem_iff.2 mem_cons_self
  obtain ⟨own, contents, -, hcontents⟩ := hresident.filled node hmem
  have hdenote : denote (cachedOf nodes) key = some contents := by
    rw [denote_eq_some_iff hresident.firstValued.nodupKeys]
    exact mem_cachedOf.2 ⟨node, hmem, hkey, hcontents⟩
  constructor
  · intro value hvalue
    exact ⟨node, hkey, hcontents.trans (hdenote.symm.trans hvalue), hperm⟩
  · intro hnone
    rw [hdenote] at hnone
    cases hnone

theorem cleared_of_absent {nodes : List EvictNode}
    (habsent : ∀ node ∈ nodes, node.key ≠ some key) : Cleared key nodes nodes := by
  refine ⟨fun value hvalue => ?_, fun _ => Perm.refl _⟩
  rw [denote_cachedOf_eq_none fun node hnode hown => absurd hown (habsent node hnode)] at hvalue
  cases hvalue

/-- A deletion removes the node that carries the value of the key. -/
theorem kvsCacheDel_spec (hvalid : cache.Valid) (key : CStr) :
    ∃ after code, kvsCacheDel cache (some key) = some (after, code) ∧ Kept cache after ∧
      Cleared key (cache.nodesOf cache.policy) (after.nodesOf cache.policy) ∧
      (cache.peek cache.policy key ≠ none → code = 0) := by
  have hmax : cache.maxItems ≠ 0 := hvalid.maxItems_pos.ne'
  cases hpolicy : cache.policy with
  | lru =>
      have hresident := hvalid.lru_valid.resident
      cases hfind : lruFind cache.lru key with
      | none =>
          have habsent := findPlace_eq_none.1 hfind
          refine ⟨cache, -2, by simp [kvsCacheDel, hmax, hpolicy, hfind],
            kept_lru hvalid hpolicy hvalid.lru_valid rfl rfl rfl rfl rfl,
            cleared_of_absent habsent, fun hne => absurd ?_ hne⟩
          exact denote_cachedOf_eq_none fun node hnode hown => absurd hown (habsent node hnode)
      | some place =>
          have hplace := findPlace_eq_some hfind
          exact ⟨{ cache with lru := lruRemove cache.lru place }, 0,
            by simp [kvsCacheDel, hmax, hpolicy, hfind],
            kept_lru hvalid hpolicy (lruRemove_valid hvalid.lru_valid hplace.split)
              rfl rfl rfl rfl rfl,
            hresident.cleared hplace.key_eq hplace.perm, fun _ => rfl⟩
  | lfu =>
      have hresident := hvalid.lfu_valid.resident
      cases hfind : lfuFind cache.lfu key with
      | none =>
          have habsent := lfuFind_eq_none hfind
          refine ⟨cache, -2, by simp [kvsCacheDel, hmax, hpolicy, hfind],
            kept_lfu hvalid hpolicy hvalid.lfu_valid rfl rfl rfl rfl rfl rfl,
            cleared_of_absent habsent, fun hne => absurd ?_ hne⟩
          exact denote_cachedOf_eq_none fun node hnode hown => absurd hown (habsent node hnode)
      | some idx =>
          obtain ⟨hidx, node, hnode, hown⟩ := lfuFind_eq_some hfind
          obtain ⟨lfu, hdrop, hlfu, -, hcapacity, hperm⟩ :=
            lfuDrop_spec hvalid.lfu_valid hidx hnode
          exact ⟨{ cache with lfu := lfu }, 0,
            by simp [kvsCacheDel, hmax, hpolicy, hfind, hdrop],
            kept_lfu hvalid hpolicy hlfu hcapacity rfl rfl rfl rfl rfl,
            hresident.cleared hown hperm, fun _ => rfl⟩
  | arc =>
      obtain ⟨harc, hmaxSize, hcleared, hcode⟩ := arcDel_spec hvalid.arc_valid key
      exact ⟨{ cache with arc := (arcDel cache.arc key).1 }, (arcDel cache.arc key).2,
        by simp [kvsCacheDel, hmax, hpolicy],
        kept_arc hvalid hpolicy harc hmaxSize rfl rfl rfl rfl rfl, hcleared, hcode⟩

/-- The node that carries a value for the key is the one a deletion removes. -/
theorem kvsCacheDel_removes (hvalid : cache.Valid) {node : EvictNode}
    (hnode : node ∈ cache.nodesOf cache.policy) (hcarries : node.carries key = true) :
    ∃ after, kvsCacheDel cache (some key) = some (after, 0) ∧ Kept cache after ∧
      (cache.nodesOf cache.policy).Perm (node :: after.nodesOf cache.policy) := by
  obtain ⟨value, hkey, hvalue⟩ := EvictNode.carries_iff.1 hcarries
  have hpeek : cache.peek cache.policy key = some value := by
    rw [CacheManager.peek, denote_eq_some_iff (hvalid.nodupKeys _)]
    exact mem_cachedOf.2 ⟨node, hnode, hkey, hvalue⟩
  obtain ⟨after, code, hdel, hkept, hcleared, hcode⟩ := kvsCacheDel_spec hvalid key
  obtain ⟨gone, hgoneKey, hgoneValue, hperm⟩ := hcleared.present value hpeek
  have hgone : gone.carries key = true := EvictNode.carries_iff.2 ⟨value, hgoneKey, hgoneValue⟩
  -- both nodes pass the filter, which keeps one node at most
  have hsame : gone = node := by
    have hlength := length_filter_carries (hvalid.nodupKeys cache.policy) key
    have hfirst : gone ∈ (cache.nodesOf cache.policy).filter (EvictNode.carries key) :=
      mem_filter.2 ⟨hperm.mem_iff.2 mem_cons_self, hgone⟩
    have hsecond := mem_filter.2 ⟨hnode, hcarries⟩
    match hfilter : (cache.nodesOf cache.policy).filter (EvictNode.carries key) with
    | [] => simp [hfilter] at hfirst
    | [only] =>
        rw [hfilter, mem_singleton] at hfirst hsecond
        rw [hfirst, hsecond]
    | _ :: _ :: _ => simp [hfilter] at hlength
  subst hsame
  rw [hcode (by simp [hpeek])] at hdel
  exact ⟨after, hdel, hkept, hperm⟩

/-! ## The same in terms of lookups -/

theorem Kept.peek_inactive (hkept : Kept cache after) {policy : Policy}
    (hother : policy ≠ cache.policy) : after.peek policy = cache.peek policy := by
  funext key
  rw [CacheManager.peek, hkept.inactive policy hother, CacheManager.peek]

theorem kvsCacheGet_peek (hvalid : cache.Valid) (key : CStr) :
    ∃ after, kvsCacheGet cache (some key) = some (after, cache.peek cache.policy key) ∧
      Kept cache after ∧ ∀ policy, after.peek policy = cache.peek policy := by
  obtain ⟨after, hget, hkept, hperm⟩ := kvsCacheGet_spec hvalid key
  refine ⟨after, hget, hkept, fun policy => ?_⟩
  by_cases hactive : policy = cache.policy
  · subst hactive
    exact (denote_perm (hvalid.nodupKeys _) hperm.symm).symm
  · exact hkept.peek_inactive hactive

theorem kvsCacheLruAdd_peek (hvalid : cache.Valid) (hmiss : cache.peek cache.policy key = none)
    (value : CStr) :
    ∃ after, kvsCacheLruAdd allocOk cache key value = some after ∧ Kept cache after ∧
      after.peek cache.policy key = some value ∧
      ∀ other text, other ≠ key → after.peek cache.policy other = some text →
        cache.peek cache.policy other = some text := by
  obtain ⟨after, kept, hadd, hkept, hsubperm, hperm⟩ := kvsCacheLruAdd_spec hvalid hmiss value
  have hnodup := hkept.valid.nodupKeys cache.policy
  refine ⟨after, hadd, hkept, ?_, fun other text hother htext => ?_⟩
  · rw [CacheManager.peek, denote_eq_some_iff hnodup]
    exact hperm.mem_iff.2 mem_cons_self
  · rw [CacheManager.peek, denote_eq_some_iff hnodup, hperm.mem_iff, mem_cons] at htext
    rw [CacheManager.peek, denote_eq_some_iff (hvalid.nodupKeys _)]
    rcases htext with heq | hmem
    · simp only [Sigma.mk.injEq] at heq
      exact absurd heq.1 hother
    · exact hsubperm.subset hmem

theorem Cleared.denote_eq {before rest : List EvictNode} (hcleared : Cleared key before rest)
    (hnodup : (cachedOf before).NodupKeys) :
    denote (cachedOf rest) = Function.update (denote (cachedOf before)) key none := by
  cases hdenote : denote (cachedOf before) key with
  | none =>
      rw [denote_perm hnodup (hcleared.absent hdenote).symm]
      exact (Function.update_eq_self_iff.2 (by
        rw [← denote_perm hnodup (hcleared.absent hdenote).symm, hdenote])).symm
  | some value =>
      obtain ⟨node, hkey, hvalue, hperm⟩ := hcleared.present value hdenote
      have hcached := cachedOf_perm hperm
      rw [cachedOf_cons_filled hkey hvalue] at hcached
      have hfresh := (nodupKeys_cons.1 ((perm_nodupKeys hcached).1 hnodup)).1
      rw [denote_perm hnodup hcached, denote_cons, Function.update_idem]
      exact (Function.update_eq_self_iff.2 (denote_eq_none_iff.2 hfresh).symm).symm

theorem kvsCacheDel_peek (hvalid : cache.Valid) (key : CStr) :
    ∃ after code, kvsCacheDel cache (some key) = some (after, code) ∧ Kept cache after ∧
      after.peek cache.policy = Function.update (cache.peek cache.policy) key none := by
  obtain ⟨after, code, hdel, hkept, hcleared, -⟩ := kvsCacheDel_spec hvalid key
  exact ⟨after, code, hdel, hkept, hcleared.denote_eq (hvalid.nodupKeys _)⟩

theorem kvsCacheSetPolicy_valid (hvalid : cache.Valid) (policy : Policy) :
    (kvsCacheSetPolicy cache policy).Valid :=
  ⟨hvalid.maxItems_pos, hvalid.lru_valid, hvalid.lfu_valid, hvalid.lfu_capacity,
    hvalid.arc_valid, hvalid.arc_maxSize⟩

end Operations

end LiteMultiKV.Cache
