import LiteMultiKV.Cache.Manager
import LiteMultiKV.Core.Run

/-!
# The adaptive cache over whole runs

A client of the cache looks a key up and inserts it when the lookup found no
value; it also deletes keys.  A lookup that hits a ghost puts the ghost back
into `t2`, so the number of resident nodes grows by one before the insertion,
which evicts one node at most, and the insertion then adds a second node of the
same key.  This file says exactly which runs stay within the capacity and which
runs keep every key in one place.
-/

namespace LiteMultiKV.Cache

open List CText Memory Numeric Run

/-! ## What the operations can do -/

/-- The outcomes of `arc_get`: the state left and the value found. -/
inductive Lookup (cache : ARCCache) (key : CStr) : ARCCache → Option CStr → Prop
  | hitT1 (place : Place) (hplace : lruFind cache.t1 key = some place) :
      Lookup cache key { cache with
        t1 := lruRemove cache.t1 place
        t2 := lruAddFront cache.t2 place.node } place.node.value
  | hitT2 (place : Place) (ht1 : lruFind cache.t1 key = none)
      (hplace : lruFind cache.t2 key = some place) :
      Lookup cache key { cache with
        t2 := lruAddFront (lruRemove cache.t2 place) place.node } place.node.value
  | hitB1 (place : Place) (target : ℤ) (ht1 : lruFind cache.t1 key = none)
      (ht2 : lruFind cache.t2 key = none) (hplace : lruFind cache.b1 key = some place) :
      Lookup cache key { cache with
        targetSize := target
        b1 := lruRemove cache.b1 place
        t2 := lruAddFront cache.t2 place.node } none
  | hitB2 (place : Place) (target : ℤ) (ht1 : lruFind cache.t1 key = none)
      (ht2 : lruFind cache.t2 key = none) (hb1 : lruFind cache.b1 key = none)
      (hplace : lruFind cache.b2 key = some place) :
      Lookup cache key { cache with
        targetSize := target
        b2 := lruRemove cache.b2 place
        t2 := lruAddFront cache.t2 place.node } none
  | miss (ht1 : lruFind cache.t1 key = none) (ht2 : lruFind cache.t2 key = none)
      (hb1 : lruFind cache.b1 key = none) (hb2 : lruFind cache.b2 key = none) :
      Lookup cache key cache none

variable {alloc : Alloc} {cache after got room : ARCCache} {key value : CStr}
variable {cached : Option CStr}

theorem lruFind_addFront {node : EvictNode} (hkey : node.key = some key) (cache : LRUCache) :
    lruFind (lruAddFront cache node) key = some ⟨[], node, cache.nodes⟩ :=
  findPlace_head hkey cache.nodes

theorem lookup_of_arcGet (hget : arcGet cache key = some (after, cached)) :
    Lookup cache key after cached := by
  cases ht1 : lruFind cache.t1 key with
  | some place =>
      have hfront := lruFind_addFront (findPlace_eq_some ht1).key_eq cache.t2
      simp [arcGet, arcAccess, ht1, hfront] at hget
      obtain ⟨rfl, rfl⟩ := hget
      exact .hitT1 place ht1
  | none =>
      cases ht2 : lruFind cache.t2 key with
      | some place =>
          have hfront := lruFind_addFront (findPlace_eq_some ht2).key_eq
            (lruRemove cache.t2 place)
          simp [arcGet, arcAccess, ht1, ht2, hfront] at hget
          obtain ⟨rfl, rfl⟩ := hget
          exact .hitT2 place ht1 ht2
      | none =>
          cases hb1 : lruFind cache.b1 key with
          | some place =>
              cases hdelta : arcDelta cache.b2.size cache.b1.size with
              | none => simp [arcGet, arcAccess, ht1, ht2, hb1, hdelta] at hget
              | some delta =>
                  simp [arcGet, arcAccess, ht1, ht2, hb1, hdelta] at hget
                  obtain ⟨rfl, rfl⟩ := hget
                  exact .hitB1 place _ ht1 ht2 hb1
          | none =>
              cases hb2 : lruFind cache.b2 key with
              | some place =>
                  cases hdelta : arcDelta cache.b1.size cache.b2.size with
                  | none => simp [arcGet, arcAccess, ht1, ht2, hb1, hb2, hdelta] at hget
                  | some delta =>
                      simp [arcGet, arcAccess, ht1, ht2, hb1, hb2, hdelta] at hget
                      obtain ⟨rfl, rfl⟩ := hget
                      exact .hitB2 place _ ht1 ht2 hb1 hb2
              | none =>
                  simp [arcGet, arcAccess, ht1, ht2, hb1, hb2] at hget
                  obtain ⟨rfl, rfl⟩ := hget
                  exact .miss ht1 ht2 hb1 hb2

/-! ## Sizes -/

/-- The size fields agree with the lists and every node of `t1` carries a value. -/
structure ARCCache.Counted (cache : ARCCache) : Prop where
  t1_sized : cache.t1.Sized
  t2_sized : cache.t2.Sized
  b1_sized : cache.b1.Sized
  b2_sized : cache.b2.Sized
  t1_valued : ∀ node ∈ cache.t1.nodes, node.value ≠ none
  maxSize_pos : 0 < cache.maxSize

theorem arcInit_counted {maxSize : ℕ} (hpos : 0 < maxSize) : (arcInit maxSize).Counted :=
  ⟨rfl, rfl, rfl, rfl, by simp [arcInit, lruInit], hpos⟩

/-- The number of resident entries. -/
def ARCCache.residentCount (cache : ARCCache) : ℤ :=
  cache.t1.size + cache.t2.size

def ARCCache.Within (cache : ARCCache) : Prop :=
  cache.residentCount ≤ cache.maxSize

/-- A full cache has a node that `arc_evict` takes out. -/
def ARCCache.CanEvict (cache : ARCCache) : Prop :=
  cache.targetSize < cache.t1.size ∨ 0 < cache.t2.size

instance (cache : ARCCache) : Decidable cache.CanEvict :=
  inferInstanceAs (Decidable (_ ∨ _))

theorem LRUCache.Sized.size_pos {list : LRUCache} (hsized : list.Sized) {place : Place}
    (hsplit : list.nodes = place.front ++ place.node :: place.back) : 0 < list.size := by
  rw [hsized, hsplit, length_append, length_cons]
  omega

theorem LRUCache.Sized.tail_none {list : LRUCache} (hsized : list.Sized)
    (htail : lruTail list = none) : list.size = 0 := by
  rw [hsized, lruTail_eq_none.1 htail, length_nil, Nat.cast_zero]

theorem hasKey_congr {node other : EvictNode} (hkey : node.key = other.key) :
    node.hasKey key = other.hasKey key := by
  rw [EvictNode.hasKey, EvictNode.hasKey, hkey]

theorem hasKey_null {node : EvictNode} (hkey : node.key = none) : node.hasKey key = false := by
  rw [EvictNode.hasKey, hkey]

/-- What became of a ghost list to which a victim was added. -/
structure Recorded (victim : EvictNode) (before after : LRUCache) : Prop where
  sized : after.Sized
  valueless : (∀ node ∈ before.nodes, node.value = none) →
    ∀ node ∈ after.nodes, node.value = none
  count_le : ∀ key, after.nodes.countP (EvictNode.hasKey key) ≤
    (victim :: before.nodes).countP (EvictNode.hasKey key)

theorem recorded_of_recordGhost {maxSize : ℕ} {victim : EvictNode} {before after : LRUCache}
    (hsized : before.Sized) (hrecord : recordGhost alloc maxSize victim before = some after) :
    Recorded victim before after ∧ (alloc = allocOk → 0 < maxSize → ∀ key,
      [victim].countP (EvictNode.hasKey key) ≤ after.nodes.countP (EvictNode.hasKey key)) := by
  obtain ⟨ghost, hghost, -⟩ := Option.bind_eq_some_iff.1 hrecord
  obtain ⟨same, hsame, hsizedAfter, htake⟩ := recordGhost_of_ghost maxSize hghost hsized
  obtain rfl : same = after := by simpa [hrecord] using hsame.symm
  have hform : ghost.value = none ∧ (ghost.key = victim.key ∨ ghost.key = none) ∧
      (alloc = allocOk → ghost.key = victim.key) := by
    unfold arcGhost at hghost
    split at hghost
    · simp only [Option.some.injEq] at hghost
      subst hghost
      refine ⟨rfl, ?_, ?_⟩
      · by_cases hkey : alloc 1 = true <;> simp [hkey]
      · rintro rfl
        rfl
    · cases hghost
  obtain ⟨hvalue, hkey, hkeyOk⟩ := hform
  refine ⟨⟨hsizedAfter, ?_, ?_⟩, ?_⟩
  · intro hbefore node hnode
    rw [htake] at hnode
    rcases mem_cons.1 (take_subset _ _ hnode) with rfl | hnode
    · exact hvalue
    · exact hbefore node hnode
  · intro key
    rw [htake]
    refine ((take_sublist _ _).countP_le).trans ?_
    rw [countP_cons, countP_cons]
    rcases hkey with hkey | hkey
    · rw [hasKey_congr hkey]
    · simp [hasKey_null hkey]
  · intro halloc hpos key
    obtain ⟨maxSize, rfl⟩ := Nat.exists_eq_add_one_of_ne_zero hpos.ne'
    rw [htake, take_succ_cons, countP_cons, countP_cons, countP_nil,
      hasKey_congr (hkeyOk halloc)]
    omega

theorem Lookup.counted (hlookup : Lookup cache key got cached) (hcounted : cache.Counted) :
    got.Counted := by
  obtain ⟨ht1, ht2, hb1, hb2, hvalued, hpos⟩ := hcounted
  cases hlookup with
  | hitT1 place hplace =>
      have hsplit := (findPlace_eq_some hplace).split
      exact ⟨ht1.remove hsplit, ht2.addFront _, hb1, hb2,
        fun node hnode => hvalued node ((lruRemove_sublist hsplit).subset hnode), hpos⟩
  | hitT2 place _ hplace =>
      have hsplit := (findPlace_eq_some hplace).split
      exact ⟨ht1, (ht2.remove hsplit).addFront _, hb1, hb2, hvalued, hpos⟩
  | hitB1 place target _ _ hplace =>
      have hsplit := (findPlace_eq_some hplace).split
      exact ⟨ht1, ht2.addFront _, hb1.remove hsplit, hb2, hvalued, hpos⟩
  | hitB2 place target _ _ _ hplace =>
      have hsplit := (findPlace_eq_some hplace).split
      exact ⟨ht1, ht2.addFront _, hb1, hb2.remove hsplit, hvalued, hpos⟩
  | miss => exact ⟨ht1, ht2, hb1, hb2, hvalued, hpos⟩

theorem Eviction.counted (heviction : Eviction alloc cache room) (hcounted : cache.Counted) :
    room.Counted ∧ room.maxSize = cache.maxSize := by
  obtain ⟨ht1, ht2, hb1, hb2, hvalued, hpos⟩ := hcounted
  cases heviction with
  | room => exact ⟨⟨ht1, ht2, hb1, hb2, hvalued, hpos⟩, rfl⟩
  | declined => exact ⟨⟨ht1, ht2, hb1, hb2, hvalued, hpos⟩, rfl⟩
  | fromT1 victim ghosts _ _ htail hghosts =>
      have hsplit := lruTail_split htail
      have hrecorded := (recorded_of_recordGhost hb1 hghosts).1
      exact ⟨⟨ht1.remove hsplit, ht2, hrecorded.sized, hb2,
        fun node hnode => hvalued node ((lruRemove_sublist hsplit).subset hnode), hpos⟩, rfl⟩
  | fromT2 victim ghosts _ htail hghosts =>
      have hrecorded := (recorded_of_recordGhost hb2 hghosts).1
      exact ⟨⟨ht1, ht2.remove (lruTail_split htail), hb1, hrecorded.sized, hvalued, hpos⟩, rfl⟩

theorem Eviction.residentCount (heviction : Eviction alloc cache room)
    (hcounted : cache.Counted) :
    room.residentCount = if cache.residentCount < cache.maxSize ∨ ¬cache.CanEvict
      then cache.residentCount else cache.residentCount - 1 := by
  have hpos := hcounted.maxSize_pos
  cases heviction with
  | room hroom => rw [if_pos (.inl hroom)]
  | declined hfull ht1 ht2 =>
      have hempty := hcounted.t2_sized.tail_none ht2
      rcases ht1 with ht1 | ht1
      · rw [if_pos]
        simp only [ARCCache.CanEvict]
        omega
      · have := hcounted.t1_sized.tail_none ht1
        omega
  | fromT1 victim ghosts hfull htarget htail _ =>
      rw [if_neg (by simp only [ARCCache.residentCount, ARCCache.CanEvict]; omega)]
      simp only [ARCCache.residentCount, lruRemove]
      omega
  | fromT2 victim ghosts hfull htail _ =>
      have hsize := hcounted.t2_sized.size_pos (lruTail_split htail)
      rw [if_neg (by simp only [ARCCache.residentCount, ARCCache.CanEvict]; omega)]
      simp only [ARCCache.residentCount, lruRemove]
      omega

/-- An insertion lets a cache grow that has room or nothing to evict. -/
theorem arcAdd_residentCount (hcounted : cache.Counted)
    (hadd : arcAdd alloc cache key value = some after) :
    after.Counted ∧ after.maxSize = cache.maxSize ∧
      after.residentCount = if cache.residentCount < cache.maxSize ∨ ¬cache.CanEvict
        then cache.residentCount + 1 else cache.residentCount := by
  obtain ⟨room, -, named, -, heviction, -, -, rfl⟩ := insertion_of_arcAdd hadd
  obtain ⟨⟨ht1, ht2, hb1, hb2, hvalued, hpos⟩, hmax⟩ := heviction.counted hcounted
  have hcount := heviction.residentCount hcounted
  refine ⟨⟨ht1.addFront _, ht2, hb1, hb2, ?_, hpos⟩, hmax, ?_⟩
  · intro node hnode
    rcases mem_cons.1 hnode with rfl | hnode
    · simp
    · exact hvalued node hnode
  · rw [show ARCCache.residentCount _ = room.residentCount + 1 by
      simp only [ARCCache.residentCount, lruAddFront]; omega]
    by_cases hgrows : cache.residentCount < cache.maxSize ∨ ¬cache.CanEvict
    · rw [if_pos hgrows] at hcount ⊢
      omega
    · rw [if_neg hgrows] at hcount ⊢
      omega

/-! ## Results -/

theorem exists_arcGet (hcounted : cache.Counted) (key : CStr) :
    ∃ got cached, arcGet cache key = some (got, cached) := by
  have haccess : ∃ result, arcAccess cache key = some result := by
    unfold arcAccess
    split
    case h_1 place hplace => exact ⟨_, rfl⟩
    case h_2 =>
        split
        case h_1 place hplace => exact ⟨_, rfl⟩
        case h_2 =>
            split
            case h_1 place hplace =>
                obtain ⟨delta, hdelta⟩ := arcDelta_eq_some cache.b2.size hcounted.b1_sized
                  (findPlace_eq_some hplace)
                rw [hdelta]
                exact ⟨_, rfl⟩
            case h_2 =>
                split
                case h_1 place hplace =>
                    obtain ⟨delta, hdelta⟩ := arcDelta_eq_some cache.b1.size
                      hcounted.b2_sized (findPlace_eq_some hplace)
                    rw [hdelta]
                    exact ⟨_, rfl⟩
                case h_2 => exact ⟨_, rfl⟩
  obtain ⟨⟨got, hit⟩, haccess⟩ := haccess
  rw [arcGet, haccess, Option.bind_eq_bind, Option.bind_some]
  dsimp only
  split
  · exact ⟨_, _, rfl⟩
  · exact ⟨_, _, rfl⟩

theorem exists_arcAdd (hcounted : cache.Counted) (key value : CStr) :
    ∃ after, arcAdd allocOk cache key value = some after :=
  arcAdd_granted hcounted.b1_sized hcounted.b2_sized key value

/-! ## Deletion -/

/-- Each list has lost some of its nodes. -/
structure Shrinks (before after : ARCCache) : Prop where
  counted : after.Counted
  t1_sublist : after.t1.nodes.Sublist before.t1.nodes
  t2_sublist : after.t2.nodes.Sublist before.t2.nodes
  b1_sublist : after.b1.nodes.Sublist before.b1.nodes
  b2_sublist : after.b2.nodes.Sublist before.b2.nodes
  maxSize_eq : after.maxSize = before.maxSize

theorem arcDel_shrinks (hcounted : cache.Counted) (key : CStr) :
    Shrinks cache (arcDel cache key).1 := by
  obtain ⟨ht1, ht2, hb1, hb2, hvalued, hpos⟩ := hcounted
  unfold arcDel
  split
  case h_1 place hplace =>
      have hsplit := (findPlace_eq_some hplace).split
      have hkept := lruRemove_sublist hsplit
      exact ⟨⟨ht1.remove hsplit, ht2, hb1, hb2,
        fun node hnode => hvalued node (hkept.subset hnode), hpos⟩,
        hkept, .refl _, .refl _, .refl _, rfl⟩
  case h_2 =>
      split
      case h_1 place hplace =>
          have hsplit := (findPlace_eq_some hplace).split
          exact ⟨⟨ht1, ht2.remove hsplit, hb1, hb2, hvalued, hpos⟩,
            .refl _, lruRemove_sublist hsplit, .refl _, .refl _, rfl⟩
      case h_2 =>
          split
          case h_1 place hplace =>
              have hsplit := (findPlace_eq_some hplace).split
              exact ⟨⟨ht1, ht2, hb1.remove hsplit, hb2, hvalued, hpos⟩,
                .refl _, .refl _, lruRemove_sublist hsplit, .refl _, rfl⟩
          case h_2 =>
              split
              case h_1 place hplace =>
                  have hsplit := (findPlace_eq_some hplace).split
                  exact ⟨⟨ht1, ht2, hb1, hb2.remove hsplit, hvalued, hpos⟩,
                    .refl _, .refl _, .refl _, lruRemove_sublist hsplit, rfl⟩
              case h_2 =>
                  exact ⟨⟨ht1, ht2, hb1, hb2, hvalued, hpos⟩,
                    .refl _, .refl _, .refl _, .refl _, rfl⟩

theorem Shrinks.within (hshrinks : Shrinks cache after) (hcounted : cache.Counted)
    (hwithin : cache.Within) : after.Within := by
  have ht1 := hshrinks.t1_sublist.length_le
  have ht2 := hshrinks.t2_sublist.length_le
  simp only [ARCCache.Within, ARCCache.residentCount, hshrinks.maxSize_eq] at hwithin ⊢
  rw [hcounted.t1_sized, hcounted.t2_sized] at hwithin
  rw [hshrinks.counted.t1_sized, hshrinks.counted.t2_sized]
  omega

/-! ## The use of the cache -/

/-- A client looks a key up, and inserts it when no value was found, or deletes it. -/
inductive CacheUse where
  | look (alloc : Alloc) (key value : CStr)
  | drop (key : Option CStr)

def useStep {F : Type} (manager : CacheManager F) :
    CacheUse → Option (CacheManager F × CacheAnswer)
  | .look alloc key value => do
      let (manager, cached) ← kvsCacheGet manager (some key)
      match cached with
      | some text => return (manager, .value (some text))
      | none =>
          let manager ← kvsCacheLruAdd alloc manager key value
          return (manager, .added)
  | .drop key => (kvsCacheDel manager key).map fun result => (result.1, .code result.2)

/-- What one use does to the lists. -/
inductive Used (cache : ARCCache) : CacheUse → ARCCache → Prop
  | found {alloc : Alloc} {key value text : CStr} {after : ARCCache}
      (hlookup : Lookup cache key after (some text)) : Used cache (.look alloc key value) after
  | inserted {alloc : Alloc} {key value : CStr} {got after : ARCCache}
      (hlookup : Lookup cache key got none) (hadd : arcAdd alloc got key value = some after) :
      Used cache (.look alloc key value) after
  | dropped (key : CStr) : Used cache (.drop (some key)) (arcDel cache key).1
  | ignored : Used cache (.drop none) cache

variable {use : CacheUse}

theorem Used.counted (hused : Used cache use after) (hcounted : cache.Counted) :
    after.Counted := by
  cases hused with
  | found hlookup => exact hlookup.counted hcounted
  | inserted hlookup hadd => exact (arcAdd_residentCount (hlookup.counted hcounted) hadd).1
  | dropped key => exact (arcDel_shrinks hcounted key).counted
  | ignored => exact hcounted

section Runs

variable {F : Type} {manager final : CacheManager F} {answer : CacheAnswer}

/-- The ARC policy is active. -/
structure ArcKept (manager : CacheManager F) : Prop where
  policy_eq : manager.policy = .arc
  maxItems_ne : manager.maxItems ≠ 0
  counted : manager.arc.Counted

theorem ArcKept.used (hkept : ArcKept manager)
    (hstep : useStep manager use = some (final, answer)) :
    ArcKept final ∧ Used manager.arc use final.arc := by
  obtain ⟨hpolicy, hmax, hcounted⟩ := hkept
  suffices hform : Used manager.arc use final.arc ∧ final.policy = .arc ∧
      final.maxItems = manager.maxItems from
    ⟨⟨hform.2.1, hform.2.2 ▸ hmax, hform.1.counted hcounted⟩, hform.1⟩
  cases use with
  | look alloc key value =>
      cases hget : arcGet manager.arc key with
      | none => simp [useStep, kvsCacheGet, hmax, hpolicy, hget] at hstep
      | some result =>
          obtain ⟨got, cached⟩ := result
          have hlookup := lookup_of_arcGet hget
          cases cached with
          | some text =>
              simp [useStep, kvsCacheGet, hmax, hpolicy, hget, countHit] at hstep
              obtain ⟨rfl, rfl⟩ := hstep
              exact ⟨.found hlookup, rfl, rfl⟩
          | none =>
              cases hadd : arcAdd alloc got key value with
              | none =>
                  simp [useStep, kvsCacheGet, kvsCacheLruAdd, hmax, hpolicy, hget, countMiss,
                    hadd] at hstep
              | some after =>
                  simp [useStep, kvsCacheGet, kvsCacheLruAdd, hmax, hpolicy, hget, countMiss,
                    hadd] at hstep
                  obtain ⟨rfl, rfl⟩ := hstep
                  exact ⟨.inserted hlookup hadd, rfl, rfl⟩
  | drop key =>
      cases key with
      | none =>
          simp [useStep, kvsCacheDel] at hstep
          obtain ⟨rfl, rfl⟩ := hstep
          exact ⟨.ignored, hpolicy, rfl⟩
      | some key =>
          simp [useStep, kvsCacheDel, hmax, hpolicy] at hstep
          obtain ⟨rfl, rfl⟩ := hstep
          exact ⟨.dropped key, rfl, rfl⟩

/-- With memory at hand, every use has a result. -/
theorem ArcKept.exists_use (hkept : ArcKept manager)
    (halloc : ∀ alloc key value, use = .look alloc key value → alloc = allocOk) :
    ∃ final answer, useStep manager use = some (final, answer) := by
  obtain ⟨hpolicy, hmax, hcounted⟩ := hkept
  cases use with
  | look alloc key value =>
      obtain rfl := halloc alloc key value rfl
      obtain ⟨got, cached, hget⟩ := exists_arcGet hcounted key
      cases cached with
      | some text =>
          exact ⟨_, _, by simp [useStep, kvsCacheGet, hmax, hpolicy, hget]; exact ⟨rfl, rfl⟩⟩
      | none =>
          obtain ⟨after, hadd⟩ :=
            exists_arcAdd ((lookup_of_arcGet hget).counted hcounted) key value
          exact ⟨_, _, by
            simp [useStep, kvsCacheGet, kvsCacheLruAdd, hmax, hpolicy, hget, countMiss, hadd]
            exact ⟨rfl, rfl⟩⟩
  | drop key =>
      cases key with
      | none => exact ⟨_, _, rfl⟩
      | some key => exact ⟨_, _, by simp [useStep, kvsCacheDel, hmax, hpolicy]; exact ⟨rfl, rfl⟩⟩

variable [CFloat F] {maxItems : ℤ} {uses : List CacheUse}

theorem arcKept_under (hmax : 0 < maxItems) : ArcKept (CacheManager.under F .arc maxItems) := by
  have hpos : 0 < maxItems.toNat := by omega
  refine ⟨rfl, ?_, ?_⟩
  · simp only [CacheManager.under, kvsCacheSetPolicy, kvsCacheInit, hmax, if_true]
    omega
  · simp only [CacheManager.under, kvsCacheSetPolicy, kvsCacheInit, hmax, if_true]
    exact arcInit_counted hpos

/-- With memory at hand, every run has a result. -/
theorem exists_run_uses (hmax : 0 < maxItems)
    (halloc : ∀ alloc key value, .look alloc key value ∈ uses → alloc = allocOk) :
    ∃ final answers,
      run useStep (CacheManager.under F .arc maxItems) uses = some (final, answers) := by
  have hstep : ∀ (manager : CacheManager F) (use : CacheUse), ArcKept manager →
      (∀ alloc key value, use = .look alloc key value → alloc = allocOk) →
      ∃ after answer, useStep manager use = some (after, answer) ∧ ArcKept after ∧ True := by
    intro manager use hkept halloc
    obtain ⟨after, answer, hanswer⟩ := hkept.exists_use halloc
    exact ⟨after, answer, hanswer, (hkept.used hanswer).1, trivial⟩
  have hadmitted : Along (useStep (F := F)) (fun _ use => ∀ alloc key value,
      use = .look alloc key value → alloc = allocOk) (CacheManager.under F .arc maxItems) uses :=
    along_of_forall (by rintro - use huse alloc key value rfl; exact halloc _ _ _ huse) _
  obtain ⟨⟨final, answers, hrun, -⟩, -⟩ :=
    run_invariant ArcKept hstep (arcKept_under hmax) hadmitted
  exact ⟨final, answers, hrun⟩

end Runs

/-! ## The capacity -/

/-- A lookup of a resident key, a lookup with room to spare, or one of an unknown key
when a node can be evicted. -/
def ARCCache.RoomFor (cache : ARCCache) : CacheUse → Prop
  | .look _ key _ =>
      (lruFind cache.t1 key).isSome ∨ (lruFind cache.t2 key).isSome ∨
        cache.residentCount < cache.maxSize ∨
        ((lruFind cache.b1 key).isNone ∧ (lruFind cache.b2 key).isNone ∧ cache.CanEvict)
  | .drop _ => True

instance (cache : ARCCache) (use : CacheUse) : Decidable (cache.RoomFor use) :=
  match use with
  | .look _ _ _ => inferInstanceAs (Decidable (_ ∨ _ ∨ _ ∨ _))
  | .drop _ => isTrue trivial

theorem arcAdd_within_iff (hcounted : cache.Counted)
    (hadd : arcAdd alloc cache key value = some after) :
    after.Within ↔ cache.residentCount < cache.maxSize ∨
      cache.residentCount = cache.maxSize ∧ cache.CanEvict := by
  obtain ⟨-, hmax, hcount⟩ := arcAdd_residentCount hcounted hadd
  rw [ARCCache.Within, hmax, hcount]
  by_cases hevict : cache.CanEvict
  · by_cases hroom : cache.residentCount < cache.maxSize
    · rw [if_pos (.inl hroom)]
      exact iff_of_true (by omega) (.inl hroom)
    · rw [if_neg (by tauto), and_iff_left hevict]
      omega
  · rw [if_pos (.inr hevict)]
    simp only [hevict, and_false, or_false]
    omega

/-- A lookup that inserts stays within the capacity in exactly these cases. -/
theorem Lookup.within_iff (hlookup : Lookup cache key got none) (hcounted : cache.Counted)
    (hwithin : cache.Within) (hadd : arcAdd alloc got key value = some after) :
    after.Within ↔ cache.RoomFor (.look alloc key value) := by
  rw [arcAdd_within_iff (hlookup.counted hcounted) hadd]
  have ht2Size : 0 ≤ cache.t2.size := by
    rw [hcounted.t2_sized]
    omega
  simp only [ARCCache.Within, ARCCache.RoomFor, ARCCache.residentCount, ARCCache.CanEvict]
    at hwithin ⊢
  generalize hnone : (none : Option CStr) = cached at hlookup
  cases hlookup with
  | hitT1 place hplace =>
      have hmem : place.node ∈ cache.t1.nodes := by simp [(findPlace_eq_some hplace).split]
      exact absurd hnone.symm (hcounted.t1_valued _ hmem)
  | hitT2 place ht1 hplace =>
      have hsize := hcounted.t2_sized.size_pos (findPlace_eq_some hplace).split
      simp only [hplace, lruAddFront, lruRemove, Option.isSome_some, true_or, or_true, iff_true]
      omega
  | hitB1 place target ht1 ht2 hplace =>
      simp only [ht1, ht2, hplace, lruAddFront, Option.isSome_none, Option.isNone_some,
        Bool.false_eq_true, false_or, false_and, or_false]
      omega
  | hitB2 place target ht1 ht2 hb1 hplace =>
      simp only [ht1, ht2, hplace, lruAddFront, Option.isSome_none, Option.isNone_some,
        Bool.false_eq_true, false_or, false_and, and_false, or_false]
      omega
  | miss ht1 ht2 hb1 hb2 =>
      simp only [ht1, ht2, hb1, hb2, Option.isSome_none, Option.isNone_none,
        Bool.false_eq_true, false_or, true_and]
      omega

theorem Used.within_iff (hused : Used cache use after) (hcounted : cache.Counted)
    (hwithin : cache.Within) : after.Within ↔ cache.RoomFor use := by
  cases hused with
  | found hlookup =>
      generalize hsome : some _ = cached at hlookup
      cases hlookup with
      | hitT1 place hplace =>
          refine iff_of_true ?_ (.inl (by rw [hplace]; rfl))
          simp only [ARCCache.Within, ARCCache.residentCount, lruRemove, lruAddFront] at hwithin ⊢
          omega
      | hitT2 place ht1 hplace =>
          refine iff_of_true ?_ (.inr (.inl (by rw [hplace]; rfl)))
          simp only [ARCCache.Within, ARCCache.residentCount, lruRemove, lruAddFront] at hwithin ⊢
          omega
      | hitB1 => cases hsome
      | hitB2 => cases hsome
      | miss => cases hsome
  | inserted hlookup hadd => exact hlookup.within_iff hcounted hwithin hadd
  | dropped key => exact iff_of_true ((arcDel_shrinks hcounted key).within hcounted hwithin) trivial
  | ignored => exact iff_of_true hwithin trivial

/-- A run that has room for each of its lookups stays within the capacity, and, while
there is memory, no other run does. -/
theorem arc_within_iff {F : Type} [CFloat F] {maxItems : ℤ} (hmax : 0 < maxItems)
    (uses : List CacheUse) :
    (Along useStep (fun manager use => manager.arc.RoomFor use)
        (CacheManager.under F .arc maxItems) uses →
      Throughout useStep (fun manager => manager.arc.Within)
        (CacheManager.under F .arc maxItems) uses) ∧
    ((∀ alloc key value, .look alloc key value ∈ uses → alloc = allocOk) →
      (∃ final answers,
        run useStep (CacheManager.under F .arc maxItems) uses = some (final, answers)) ∧
      (Throughout useStep (fun manager => manager.arc.Within)
          (CacheManager.under F .arc maxItems) uses →
        Along useStep (fun manager use => manager.arc.RoomFor use)
          (CacheManager.under F .arc maxItems) uses)) := by
  have hstart : ArcKept (CacheManager.under F .arc maxItems) := arcKept_under hmax
  refine ⟨fun halong => ?_, fun halloc => ⟨exists_run_uses hmax halloc, fun hwithin => ?_⟩⟩
  · have hempty : (CacheManager.under F .arc maxItems).arc.Within := Int.natCast_nonneg _
    refine throughout_of_along ?_ hstart hempty halong
    intro manager use after answer hkept hwithin hroom hstep
    obtain ⟨hafter, hused⟩ := hkept.used hstep
    exact ⟨hafter, (hused.within_iff hkept.counted hwithin).2 hroom⟩
  · refine along_of_throughout
      (fun use => ∀ alloc key value, use = .look alloc key value → alloc = allocOk)
      ?_ hstart (by rintro use huse alloc key value rfl; exact halloc _ _ _ huse) hwithin
    intro manager use hkept hwithin hadmitted
    obtain ⟨after, answer, hstep⟩ := hkept.exists_use hadmitted
    obtain ⟨hafter, hused⟩ := hkept.used hstep
    exact ⟨after, answer, hstep, hafter, (hused.within_iff hkept.counted hwithin).1⟩

/-- A look at a key whose value is a fixed text. -/
def lookAt (key : String) : CacheUse :=
  .look allocOk (lit key) (lit "v")

/-- The ghost of `a` is hit after a deletion has made room for it. -/
def ghostWithRoom : List CacheUse :=
  [lookAt "a", lookAt "b", lookAt "a", lookAt "c", .drop (some (lit "b")), lookAt "a"]

theorem arc_within_iff_ghostWithRoom :
    Throughout useStep (fun manager => manager.arc.Within)
      (CacheManager.under Float32 .arc 2) ghostWithRoom :=
  (arc_within_iff (by decide) ghostWithRoom).1 (by decide +kernel)

/-- The ghost of `a` is hit while `b` fills the cache. -/
def ghostWhenFull : List CacheUse :=
  [lookAt "a", lookAt "b", lookAt "a"]

theorem ghost_hit_exceeds_capacity :
    (run useStep (CacheManager.under Float32 .arc 1) ghostWhenFull).map (fun result =>
      (result.1.arc.t1.size + result.1.arc.t2.size, result.1.arc.maxSize)) = some (2, 1) := by
  decide +kernel

/-! ## One place for each key -/

/-- How often a key occurs. -/
def occurrences (key : CStr) (nodes : List EvictNode) : ℕ :=
  nodes.countP (EvictNode.hasKey key)

@[simp]
theorem occurrences_append (left right : List EvictNode) :
    occurrences key (left ++ right) = occurrences key left + occurrences key right :=
  countP_append

theorem occurrences_cons (key : CStr) (node : EvictNode) (nodes : List EvictNode) :
    occurrences key (node :: nodes) = occurrences key nodes + occurrences key [node] := by
  simp [occurrences, countP_cons]

theorem occurrences_pos_of_lruFind {list : LRUCache} {place : Place}
    (hplace : lruFind list key = some place) : 0 < occurrences key list.nodes := by
  have hfirst := findPlace_eq_some hplace
  refine countP_pos_iff.2 ⟨place.node, by simp [hfirst.split], ?_⟩
  exact EvictNode.hasKey_iff.2 hfirst.key_eq

theorem lruFind_isNone_iff {list : LRUCache} :
    (lruFind list key).isNone ↔ occurrences key list.nodes = 0 := by
  rw [Option.isNone_iff_eq_none, lruFind, findPlace_eq_none, occurrences, countP_eq_zero]
  simp only [EvictNode.hasKey_iff, ne_eq]

theorem occurrences_remove {list : LRUCache} {place : Place}
    (hsplit : list.nodes = place.front ++ place.node :: place.back) (key : CStr) :
    occurrences key (lruRemove list place).nodes + occurrences key [place.node] =
      occurrences key list.nodes := by
  rw [hsplit, lruRemove, occurrences_append, occurrences_append,
    occurrences_cons key place.node place.back]
  omega

/-- A victim that moves from a list to the ghosts is not counted twice. -/
theorem Recorded.occurrences_le {list before ghosts : LRUCache} {place : Place}
    (hrecorded : Recorded place.node before ghosts)
    (hsplit : list.nodes = place.front ++ place.node :: place.back) (key : CStr) :
    occurrences key (lruRemove list place).nodes + occurrences key ghosts.nodes ≤
      occurrences key list.nodes + occurrences key before.nodes := by
  have hremoved := occurrences_remove hsplit key
  have hadded := hrecorded.count_le key
  rw [← occurrences, ← occurrences, occurrences_cons] at hadded
  omega

/-- Every key occurs at most once in the four lists together, the resident nodes carry
values and the ghosts do not. -/
structure ARCCache.Partitioned (cache : ARCCache) : Prop where
  once : ∀ key, occurrences key cache.t1.nodes + occurrences key cache.t2.nodes +
    occurrences key cache.b1.nodes + occurrences key cache.b2.nodes ≤ 1
  valued : ∀ node ∈ cache.residents, node.value ≠ none
  valueless : ∀ node ∈ cache.ghosts, node.value = none

/-- No lookup hits a ghost. -/
def ARCCache.NoGhost (cache : ARCCache) : CacheUse → Prop
  | .look _ key _ => (lruFind cache.b1 key).isNone ∧ (lruFind cache.b2 key).isNone
  | .drop _ => True

instance (cache : ARCCache) (use : CacheUse) : Decidable (cache.NoGhost use) :=
  match use with
  | .look _ _ _ => inferInstanceAs (Decidable (_ ∧ _))
  | .drop _ => isTrue trivial

theorem Shrinks.partitioned (hshrinks : Shrinks cache after) (hcache : cache.Partitioned) :
    after.Partitioned := by
  obtain ⟨honce, hvalued, hvalueless⟩ := hcache
  refine ⟨fun key => ?_, fun node hnode => hvalued node ?_, fun node hnode => hvalueless node ?_⟩
  · have ht1 := hshrinks.t1_sublist.countP_le (p := EvictNode.hasKey key)
    have ht2 := hshrinks.t2_sublist.countP_le (p := EvictNode.hasKey key)
    have hb1 := hshrinks.b1_sublist.countP_le (p := EvictNode.hasKey key)
    have hb2 := hshrinks.b2_sublist.countP_le (p := EvictNode.hasKey key)
    have := honce key
    simp only [occurrences] at this ⊢
    omega
  · exact (hshrinks.t1_sublist.append hshrinks.t2_sublist).subset hnode
  · exact (hshrinks.b1_sublist.append hshrinks.b2_sublist).subset hnode

/-- An eviction does not add a node of any key. -/
theorem Eviction.partitioned (heviction : Eviction alloc cache room) (hcounted : cache.Counted)
    (hcache : cache.Partitioned) : room.Partitioned ∧ ∀ key,
      occurrences key room.t1.nodes + occurrences key room.t2.nodes +
        occurrences key room.b1.nodes + occurrences key room.b2.nodes ≤
      occurrences key cache.t1.nodes + occurrences key cache.t2.nodes +
        occurrences key cache.b1.nodes + occurrences key cache.b2.nodes := by
  obtain ⟨honce, hvalued, hvalueless⟩ := hcache
  cases heviction with
  | room => exact ⟨⟨honce, hvalued, hvalueless⟩, fun _ => le_rfl⟩
  | declined => exact ⟨⟨honce, hvalued, hvalueless⟩, fun _ => le_rfl⟩
  | fromT1 victim ghosts _ _ htail hghosts =>
      have hsplit := lruTail_split htail
      have hrecorded := (recorded_of_recordGhost hcounted.b1_sized hghosts).1
      have hle := hrecorded.occurrences_le hsplit
      refine ⟨⟨fun key => ?_, fun node hnode => hvalued node ?_, fun node hnode => ?_⟩,
        fun key => ?_⟩
      · have := hle key
        have := honce key
        dsimp only
        omega
      · exact ((lruRemove_sublist hsplit).append_right _).subset hnode
      · rcases mem_append.1 hnode with hnode | hnode
        · exact hrecorded.valueless (fun node hnode => hvalueless node (mem_append_left _ hnode))
            node hnode
        · exact hvalueless node (mem_append_right _ hnode)
      · have := hle key
        dsimp only
        omega
  | fromT2 victim ghosts _ htail hghosts =>
      have hsplit := lruTail_split htail
      have hrecorded := (recorded_of_recordGhost hcounted.b2_sized hghosts).1
      have hle := hrecorded.occurrences_le hsplit
      refine ⟨⟨fun key => ?_, fun node hnode => hvalued node ?_, fun node hnode => ?_⟩,
        fun key => ?_⟩
      · have := hle key
        have := honce key
        dsimp only
        omega
      · exact ((lruRemove_sublist hsplit).append_left _).subset hnode
      · rcases mem_append.1 hnode with hnode | hnode
        · exact hvalueless node (mem_append_left _ hnode)
        · exact hrecorded.valueless
            (fun node hnode => hvalueless node (mem_append_right _ hnode)) node hnode
      · have := hle key
        dsimp only
        omega

/-- With memory at hand, an eviction loses no key of a resident node. -/
theorem Eviction.occurrences_residents (heviction : Eviction allocOk cache room)
    (hcounted : cache.Counted) (key : CStr) :
    occurrences key cache.t1.nodes + occurrences key cache.t2.nodes ≤
      occurrences key room.t1.nodes + occurrences key room.t2.nodes +
        occurrences key room.b1.nodes + occurrences key room.b2.nodes := by
  cases heviction with
  | room => omega
  | declined => omega
  | fromT1 victim ghosts _ _ htail hghosts =>
      have hremoved := occurrences_remove (lruTail_split htail) key
      have hkept : occurrences key [victim.node] ≤ occurrences key ghosts.nodes :=
        (recorded_of_recordGhost hcounted.b1_sized hghosts).2 rfl hcounted.maxSize_pos key
      dsimp only
      omega
  | fromT2 victim ghosts _ htail hghosts =>
      have hremoved := occurrences_remove (lruTail_split htail) key
      have hkept : occurrences key [victim.node] ≤ occurrences key ghosts.nodes :=
        (recorded_of_recordGhost hcounted.b2_sized hghosts).2 rfl hcounted.maxSize_pos key
      dsimp only
      omega

/-- Moving a resident node to the front of `t2` keeps every key in its place. -/
theorem Lookup.partitioned {text : CStr} (hlookup : Lookup cache key got (some text))
    (hcache : cache.Partitioned) : got.Partitioned := by
  obtain ⟨honce, hvalued, hvalueless⟩ := hcache
  generalize hsome : some text = cached at hlookup
  cases hlookup with
  | hitT1 place hplace =>
      have hsplit := (findPlace_eq_some hplace).split
      refine ⟨fun other => ?_, fun node hnode => hvalued node ?_, hvalueless⟩
      · have hremoved := occurrences_remove hsplit other
        have hadded := occurrences_cons other place.node cache.t2.nodes
        have := honce other
        simp only [lruAddFront]
        omega
      · simp only [ARCCache.residents, lruRemove, lruAddFront, hsplit, mem_append, mem_cons]
          at hnode ⊢
        tauto
  | hitT2 place ht1 hplace =>
      have hsplit := (findPlace_eq_some hplace).split
      refine ⟨fun other => ?_, fun node hnode => hvalued node ?_, hvalueless⟩
      · have hremoved := occurrences_remove hsplit other
        have hadded := occurrences_cons other place.node (lruRemove cache.t2 place).nodes
        have := honce other
        simp only [lruAddFront]
        omega
      · simp only [ARCCache.residents, lruRemove, lruAddFront, hsplit, mem_append, mem_cons]
          at hnode ⊢
        tauto
  | hitB1 => cases hsome
  | hitB2 => cases hsome
  | miss => cases hsome

/-- Inserting a key that occurs nowhere keeps every key in one place. -/
theorem arcAdd_partitioned (hcounted : cache.Counted) (hcache : cache.Partitioned)
    (hfresh : occurrences key cache.t1.nodes + occurrences key cache.t2.nodes +
      occurrences key cache.b1.nodes + occurrences key cache.b2.nodes = 0)
    (hadd : arcAdd alloc cache key value = some after) : after.Partitioned := by
  obtain ⟨room, -, named, -, heviction, hnamed, -, rfl⟩ := insertion_of_arcAdd hadd
  obtain ⟨⟨honce, hvalued, hvalueless⟩, hle⟩ := heviction.partitioned hcounted hcache
  refine ⟨fun other => ?_, fun node hnode => ?_, hvalueless⟩
  · have hroom := honce other
    have hadded := occurrences_cons other
      { key := named, value := some value, accessCount := 1 } room.t1.nodes
    simp only [lruAddFront]
    by_cases hsame : named = some other
    · have hkey : other = key := by
        rcases hnamed with hkey | hnull
        · exact Option.some.inj (hsame.symm.trans hkey)
        · rw [hnull] at hsame
          cases hsame
      have hone : occurrences other [⟨named, some value, 1⟩] ≤ 1 := countP_le_length
      have hnone := hle key
      rw [← hkey] at hnone hfresh
      omega
    · have hnone : occurrences other [⟨named, some value, 1⟩] = 0 := by
        rw [occurrences, countP_eq_zero]
        simpa [EvictNode.hasKey_iff] using hsame
      omega
  · rcases mem_cons.1 hnode with rfl | hnode
    · simp
    · exact hvalued node hnode

/-- Inserting a key that a resident node has puts it in two places. -/
theorem arcAdd_not_partitioned (hcounted : cache.Counted)
    (hpresent : 0 < occurrences key cache.t2.nodes)
    (hadd : arcAdd allocOk cache key value = some after) : ¬after.Partitioned := by
  rintro ⟨honce, -, -⟩
  obtain ⟨room, -, named, -, heviction, -, hnamed, rfl⟩ := insertion_of_arcAdd hadd
  obtain rfl := hnamed rfl
  have hkept := heviction.occurrences_residents hcounted key
  have hadded := occurrences_cons key
    { key := some key, value := some value, accessCount := 1 } room.t1.nodes
  have hone : occurrences key [⟨some key, some value, 1⟩] = 1 := by
    simp [occurrences, EvictNode.hasKey_iff]
  have htwice := honce key
  simp only [lruAddFront] at htwice
  omega

/-- Where every resident node carries a value, a lookup that finds none has hit a ghost or
missed all lists. -/
theorem Lookup.ghost_or_miss (hlookup : Lookup cache key got none) (hcache : cache.Partitioned) :
    (0 < occurrences key got.t2.nodes ∧
        0 < occurrences key cache.b1.nodes + occurrences key cache.b2.nodes) ∨
      (got = cache ∧ occurrences key cache.t1.nodes + occurrences key cache.t2.nodes +
        occurrences key cache.b1.nodes + occurrences key cache.b2.nodes = 0) := by
  have hfront : ∀ {list : LRUCache} {place : Place}, lruFind list key = some place →
      0 < occurrences key (lruAddFront cache.t2 place.node).nodes := by
    intro list place hplace
    have hkey := EvictNode.hasKey_iff.2 (findPlace_eq_some hplace).key_eq
    exact countP_pos_iff.2 ⟨place.node, mem_cons_self, hkey⟩
  generalize hnone : (none : Option CStr) = cached at hlookup
  cases hlookup with
  | hitT1 place hplace =>
      have hmem : place.node ∈ cache.residents := by
        simp [ARCCache.residents, (findPlace_eq_some hplace).split]
      exact absurd hnone.symm (hcache.valued _ hmem)
  | hitT2 place ht1 hplace =>
      have hmem : place.node ∈ cache.residents := by
        simp [ARCCache.residents, (findPlace_eq_some hplace).split]
      exact absurd hnone.symm (hcache.valued _ hmem)
  | hitB1 place target ht1 ht2 hplace =>
      have hghost := occurrences_pos_of_lruFind hplace
      exact .inl ⟨hfront hplace, by omega⟩
  | hitB2 place target ht1 ht2 hb1 hplace =>
      have hghost := occurrences_pos_of_lruFind hplace
      exact .inl ⟨hfront hplace, by omega⟩
  | miss ht1 ht2 hb1 hb2 =>
      rw [← Option.isNone_iff_eq_none, lruFind_isNone_iff] at ht1 ht2 hb1 hb2
      exact .inr ⟨rfl, by omega⟩

theorem noGhost_look_iff :
    cache.NoGhost (.look alloc key value) ↔
      occurrences key cache.b1.nodes + occurrences key cache.b2.nodes = 0 := by
  rw [ARCCache.NoGhost, lruFind_isNone_iff, lruFind_isNone_iff]
  omega

theorem Used.partitioned (hused : Used cache use after) (hcounted : cache.Counted)
    (hcache : cache.Partitioned) (hghost : cache.NoGhost use) : after.Partitioned := by
  cases hused with
  | found hlookup => exact hlookup.partitioned hcache
  | inserted hlookup hadd =>
      rcases hlookup.ghost_or_miss hcache with ⟨-, hhit⟩ | ⟨rfl, hfresh⟩
      · exact absurd (noGhost_look_iff.1 hghost) hhit.ne'
      · exact arcAdd_partitioned hcounted hcache hfresh hadd
  | dropped key => exact (arcDel_shrinks hcounted key).partitioned hcache
  | ignored => exact hcache

/-- A lookup that hits a ghost leaves its key in two places. -/
theorem Used.noGhost (hused : Used cache use after) (hcounted : cache.Counted)
    (hcache : cache.Partitioned)
    (halloc : ∀ alloc key value, use = .look alloc key value → alloc = allocOk)
    (hafter : after.Partitioned) : cache.NoGhost use := by
  cases hused with
  | @found alloc key value text after hlookup =>
      have honce := hcache.once key
      rw [noGhost_look_iff]
      generalize hsome : some text = cached at hlookup
      cases hlookup with
      | hitT1 place hplace =>
          have := occurrences_pos_of_lruFind hplace
          omega
      | hitT2 place ht1 hplace =>
          have := occurrences_pos_of_lruFind hplace
          omega
      | hitB1 => cases hsome
      | hitB2 => cases hsome
      | miss => cases hsome
  | @inserted alloc key value got after hlookup hadd =>
      obtain rfl := halloc alloc key value rfl
      rcases hlookup.ghost_or_miss hcache with ⟨hpromoted, -⟩ | ⟨-, hfresh⟩
      · have hgot := hlookup.counted hcounted
        exact absurd hafter (arcAdd_not_partitioned hgot hpromoted hadd)
      · exact noGhost_look_iff.2 (by omega)
  | dropped key => trivial
  | ignored => trivial

/-- A run without ghost hits keeps every key in one place, and, while there is memory, no
other run does. -/
theorem arc_partitioned_iff {F : Type} [CFloat F] {maxItems : ℤ} (hmax : 0 < maxItems)
    (uses : List CacheUse) :
    (Along useStep (fun manager use => manager.arc.NoGhost use)
        (CacheManager.under F .arc maxItems) uses →
      Throughout useStep (fun manager => manager.arc.Partitioned)
        (CacheManager.under F .arc maxItems) uses) ∧
    ((∀ alloc key value, .look alloc key value ∈ uses → alloc = allocOk) →
      (∃ final answers,
        run useStep (CacheManager.under F .arc maxItems) uses = some (final, answers)) ∧
      (Throughout useStep (fun manager => manager.arc.Partitioned)
          (CacheManager.under F .arc maxItems) uses →
        Along useStep (fun manager use => manager.arc.NoGhost use)
          (CacheManager.under F .arc maxItems) uses)) := by
  have hstart : ArcKept (CacheManager.under F .arc maxItems) := arcKept_under hmax
  refine ⟨fun halong => ?_, fun halloc => ⟨exists_run_uses hmax halloc, fun hplaces => ?_⟩⟩
  · have hempty : (CacheManager.under F .arc maxItems).arc.Partitioned :=
      ⟨fun _ => Nat.zero_le 1, fun _ hnode => absurd hnode not_mem_nil,
        fun _ hnode => absurd hnode not_mem_nil⟩
    refine throughout_of_along ?_ hstart hempty halong
    intro manager use after answer hkept hplaces hghost hstep
    obtain ⟨hafter, hused⟩ := hkept.used hstep
    exact ⟨hafter, hused.partitioned hkept.counted hplaces hghost⟩
  · refine along_of_throughout
      (fun use => ∀ alloc key value, use = .look alloc key value → alloc = allocOk)
      ?_ hstart (by rintro use huse alloc key value rfl; exact halloc _ _ _ huse) hplaces
    intro manager use hkept hplaces hadmitted
    obtain ⟨after, answer, hstep⟩ := hkept.exists_use hadmitted
    obtain ⟨hafter, hused⟩ := hkept.used hstep
    exact ⟨after, answer, hstep, hafter, hused.noGhost hkept.counted hplaces hadmitted⟩

/-- `a` is evicted, and its ghost is deleted before it is looked up again. -/
def ghostDeleted : List CacheUse :=
  [lookAt "a", lookAt "b", lookAt "b", .drop (some (lit "a")), lookAt "a"]

theorem arc_partitioned_iff_ghostDeleted :
    Throughout useStep (fun manager => manager.arc.Partitioned)
      (CacheManager.under Float32 .arc 1) ghostDeleted :=
  (arc_partitioned_iff (by decide) ghostDeleted).1 (by decide +kernel)

/-- The key is resident and has a ghost as well. -/
theorem ghost_hit_doubles_key :
    (run useStep (CacheManager.under Float32 .arc 1) ghostWhenFull).map (fun result =>
      (occurrences (lit "a") result.1.arc.t1.nodes, occurrences (lit "a") result.1.arc.b2.nodes)) =
      some (1, 1) := by
  decide +kernel

end LiteMultiKV.Cache
