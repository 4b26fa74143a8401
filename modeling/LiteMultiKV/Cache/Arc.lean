import LiteMultiKV.Cache.Lru

/-!
# The adaptive cache

The ARC policy keeps two lists of cached nodes, `t1` for keys seen once and
`t2` for keys seen again, and two lists of ghosts, `b1` and `b2`, for keys that
were evicted from them.  A ghost hit moves the ghost itself, without a value,
to the front of `t2`, and the insertion that follows puts a second node with
the same key into `t1`.  The invariant below orders `t1` before `t2` and
demands that a node with a value is the first of its key.
-/

namespace LiteMultiKV.Cache

open List CText Dictionary Memory

structure ARCCache where
  t1 : LRUCache
  t2 : LRUCache
  b1 : LRUCache
  b2 : LRUCache
  targetSize : ℤ
  maxSize : ℕ
  deriving DecidableEq

def arcInit (maxSize : ℕ) : ARCCache where
  t1 := lruInit
  t2 := lruInit
  b1 := lruInit
  b2 := lruInit
  targetSize := (maxSize / 2 : ℕ)
  maxSize := maxSize

/-- `ARC_MISS`, `ARC_HIT_T1`, `ARC_HIT_T2`, `ARC_HIT_B1` and `ARC_HIT_B2`. -/
inductive ArcHit where
  | miss
  | hitT1
  | hitT2
  | hitB1
  | hitB2
  deriving DecidableEq

/-- The step by which a hit in the ghost list of size `own` moves the target;
a division by zero has no result. -/
def arcDelta (other own : ℤ) : Option ℤ :=
  if 0 < other then
    if own = 0 then none
    else some (max 1 (other.tdiv own))
  else some 1

def arcAccess (cache : ARCCache) (key : CStr) : Option (ARCCache × ArcHit) :=
  match lruFind cache.t1 key with
  | some place =>
      some ({ cache with
        t1 := lruRemove cache.t1 place
        t2 := lruAddFront cache.t2 place.node }, .hitT1)
  | none =>
      match lruFind cache.t2 key with
      | some place =>
          some ({ cache with t2 := lruAddFront (lruRemove cache.t2 place) place.node }, .hitT2)
      | none =>
          match lruFind cache.b1 key with
          | some place => do
              let delta ← arcDelta cache.b2.size cache.b1.size
              return ({ cache with
                targetSize := min (cache.targetSize + delta) cache.maxSize
                b1 := lruRemove cache.b1 place
                t2 := lruAddFront cache.t2 place.node }, .hitB1)
          | none =>
              match lruFind cache.b2 key with
              | some place => do
                  let delta ← arcDelta cache.b1.size cache.b2.size
                  return ({ cache with
                    targetSize := max (cache.targetSize - delta) 0
                    b2 := lruRemove cache.b2 place
                    t2 := lruAddFront cache.t2 place.node }, .hitB2)
              | none => some (cache, .miss)

/-- The ghost of an evicted node.  The allocation of the ghost is not checked,
that of its key is not needed. -/
def arcGhost (alloc : Alloc) (victim : EvictNode) : Option EvictNode :=
  if alloc 0 then
    some { victim with
      key := if alloc 1 then victim.key else none
      value := none }
  else none

/-- The loop that drops the oldest ghosts. -/
def trimGhosts (maxSize : ℕ) : ℕ → LRUCache → Option LRUCache
  | 0, _ => none
  | fuel + 1, ghosts =>
      if (maxSize : ℤ) < ghosts.size then do
        let oldest ← lruTail ghosts
        trimGhosts maxSize fuel (lruRemove ghosts oldest)
      else some ghosts

/-- Add a ghost of the victim and drop those beyond the maximal size. -/
def recordGhost (alloc : Alloc) (maxSize : ℕ) (victim : EvictNode) (ghosts : LRUCache) :
    Option LRUCache := do
  let ghost ← arcGhost alloc victim
  trimGhosts maxSize (ghosts.nodes.length + 2) (lruAddFront ghosts ghost)

def arcEvict (alloc : Alloc) (cache : ARCCache) : Option (ARCCache × Option EvictNode) :=
  if cache.t1.size + cache.t2.size < cache.maxSize then some (cache, none)
  else
    match (if cache.targetSize < cache.t1.size then lruTail cache.t1 else none) with
    | some victim => do
        let ghosts ← recordGhost alloc cache.maxSize victim.node cache.b1
        return ({ cache with t1 := lruRemove cache.t1 victim, b1 := ghosts },
          some victim.node)
    | none =>
        match lruTail cache.t2 with
        | some victim => do
            let ghosts ← recordGhost alloc cache.maxSize victim.node cache.b2
            return ({ cache with t2 := lruRemove cache.t2 victim, b2 := ghosts },
              some victim.node)
        | none => some (cache, none)

/-- The node and its value are used unchecked; a key that could not be copied
stays null. -/
def arcAdd (alloc : Alloc) (cache : ARCCache) (key value : CStr) : Option ARCCache := do
  let (cache, victim) ← arcEvict alloc cache
  let used := if victim.isSome then 2 else 0
  if alloc used && alloc (used + 2) then
    return { cache with
      t1 := lruAddFront cache.t1
        { key := if alloc (used + 1) then some key else none
          value := some value
          accessCount := 1 } }
  else none

def arcGet (cache : ARCCache) (key : CStr) : Option (ARCCache × Option CStr) := do
  let (cache, hit) ← arcAccess cache key
  if hit = .hitT1 ∨ hit = .hitT2 then
    let place := (lruFind cache.t2 key).orElse fun _ => lruFind cache.t1 key
    return (cache, place.bind fun place => place.node.value)
  else return (cache, none)

def arcDel (cache : ARCCache) (key : CStr) : ARCCache × ℤ :=
  match lruFind cache.t1 key with
  | some place => ({ cache with t1 := lruRemove cache.t1 place }, 0)
  | none =>
      match lruFind cache.t2 key with
      | some place => ({ cache with t2 := lruRemove cache.t2 place }, 0)
      | none =>
          match lruFind cache.b1 key with
          | some place => ({ cache with b1 := lruRemove cache.b1 place }, 0)
          | none =>
              match lruFind cache.b2 key with
              | some place => ({ cache with b2 := lruRemove cache.b2 place }, 0)
              | none => (cache, -1)

/-! ## The invariant -/

/-- The size field agrees with the list. -/
def LRUCache.Sized (cache : LRUCache) : Prop :=
  cache.size = cache.nodes.length

theorem LRUCache.Sized.of_nodes (nodes : List EvictNode) :
    LRUCache.Sized { nodes := nodes, size := nodes.length } :=
  rfl

theorem LRUCache.Sized.addFront {cache : LRUCache} (hsized : cache.Sized)
    (node : EvictNode) : (lruAddFront cache node).Sized := by
  simp only [LRUCache.Sized, lruAddFront, length_cons] at hsized ⊢
  omega

theorem LRUCache.Sized.remove {cache : LRUCache} (hsized : cache.Sized) {place : Place}
    (hsplit : cache.nodes = place.front ++ place.node :: place.back) :
    (lruRemove cache place).Sized := by
  simp only [LRUCache.Sized, lruRemove, hsplit, length_append, length_cons] at hsized ⊢
  omega

/-- The nodes that may carry a value, `t1` before `t2`. -/
def ARCCache.residents (cache : ARCCache) : List EvictNode :=
  cache.t1.nodes ++ cache.t2.nodes

def ARCCache.ghosts (cache : ARCCache) : List EvictNode :=
  cache.b1.nodes ++ cache.b2.nodes

def ARCCache.nodes (cache : ARCCache) : List EvictNode :=
  cache.residents ++ cache.ghosts

structure ARCCache.Valid (cache : ARCCache) : Prop where
  t1_sized : cache.t1.Sized
  t2_sized : cache.t2.Sized
  b1_sized : cache.b1.Sized
  b2_sized : cache.b2.Sized
  t1_valued : ∀ node ∈ cache.t1.nodes, node.value ≠ none
  ghosts_valueless : ∀ node ∈ cache.ghosts, node.value = none
  order : FirstValued cache.residents

theorem arcInit_valid (maxSize : ℕ) : (arcInit maxSize).Valid :=
  ⟨rfl, rfl, rfl, rfl, by simp [arcInit, lruInit],
    by simp [ARCCache.ghosts, arcInit, lruInit], Pairwise.nil⟩

theorem ARCCache.Valid.cachedOf_nodes {cache : ARCCache} (hvalid : cache.Valid) :
    cachedOf cache.nodes = cachedOf cache.residents := by
  rw [ARCCache.nodes, cachedOf_append, cachedOf_eq_nil hvalid.ghosts_valueless, append_nil]

variable {cache : ARCCache} {key : CStr}

theorem FirstOf.append_left {left : List EvictNode} {place : Place}
    (hplace : FirstOf key left place) (right : List EvictNode) :
    FirstOf key (left ++ right) { place with back := place.back ++ right } :=
  ⟨by simp [hplace.split], hplace.key_eq, hplace.first⟩

theorem FirstOf.append_right {left right : List EvictNode} {place : Place}
    (hleft : ∀ node ∈ left, node.key ≠ some key) (hplace : FirstOf key right place) :
    FirstOf key (left ++ right) { place with front := left ++ place.front } := by
  refine ⟨by simp [hplace.split], hplace.key_eq, fun node hnode => ?_⟩
  rcases mem_append.1 hnode with hnode | hnode
  · exact hleft node hnode
  · exact hplace.first node hnode

/-- A hit in a ghost list finds that list non-empty, so it does not divide by
zero. -/
theorem arcDelta_eq_some (other : ℤ) {ghosts : LRUCache} (hsized : ghosts.Sized)
    {place : Place} (hplace : FirstOf key ghosts.nodes place) :
    ∃ delta, arcDelta other ghosts.size = some delta := by
  have hpositive : ghosts.size ≠ 0 := by
    rw [hsized, hplace.split]
    simp only [length_append, length_cons]
    omega
  unfold arcDelta
  split
  · exact ⟨_, rfl⟩
  · exact ⟨1, rfl⟩

/-! ## Access -/

/-- What `arc_access` leaves: the invariant, the cached pairs and, after a hit
in one of the two resident lists, the node at the front of `t2`. -/
structure Accessed (key : CStr) (before after : ARCCache) (hit : ArcHit) : Prop where
  valid : after.Valid
  maxSize_eq : after.maxSize = before.maxSize
  cached : (cachedOf after.residents).Perm (cachedOf before.residents)
  found : hit = .hitT1 ∨ hit = .hitT2 → ∃ node rest, after.t2.nodes = node :: rest ∧
    node.key = some key ∧ denote (cachedOf before.residents) key = node.value
  missed : ¬(hit = .hitT1 ∨ hit = .hitT2) → denote (cachedOf before.residents) key = none

theorem accessed_t1 (hvalid : cache.Valid) {place : Place}
    (hplace : FirstOf key cache.t1.nodes place) :
    Accessed key cache { cache with
      t1 := lruRemove cache.t1 place
      t2 := lruAddFront cache.t2 place.node } .hitT1 := by
  have hsplit := hplace.split
  have hvalued : place.node.value ≠ none :=
    hvalid.t1_valued _ (by rw [hsplit]; simp)
  have hperm : (place.front ++ place.back ++ place.node :: cache.t2.nodes).Perm
      cache.residents := by
    rw [ARCCache.residents, hsplit]
    refine perm_middle.trans ?_
    rw [append_assoc, append_assoc, cons_append]
    exact perm_middle.symm
  refine ⟨⟨hvalid.t1_sized.remove hsplit, hvalid.t2_sized.addFront _, hvalid.b1_sized,
    hvalid.b2_sized, ?_, hvalid.ghosts_valueless, ?_⟩, rfl, cachedOf_perm hperm, ?_, by simp⟩
  · intro node hnode
    apply hvalid.t1_valued
    rw [hsplit]
    simp only [lruRemove, mem_append, mem_cons] at hnode ⊢
    tauto
  · -- every other node of `t1` carries a value, so none shares the key
    have horder := hvalid.order
    rw [ARCCache.residents, hsplit, append_assoc, cons_append] at horder
    obtain ⟨hfront, hrest, hcross⟩ := pairwise_append.1 horder
    obtain ⟨hnode, hrest⟩ := pairwise_cons.1 hrest
    obtain ⟨hback, ht2, hbackCross⟩ := pairwise_append.1 hrest
    simp only [FirstValued, ARCCache.residents, lruRemove, lruAddFront]
    rw [append_assoc, pairwise_append, pairwise_append, pairwise_cons]
    refine ⟨hfront, ⟨hback, ⟨fun node hmem => hnode node (mem_append_right _ hmem), ht2⟩, ?_⟩,
      ?_⟩
    · intro earlier hearlier later hlater
      rcases mem_cons.1 hlater with rfl | hlater
      · intro _ hnamed hsame
        have hown : earlier.value ≠ none :=
          hvalid.t1_valued _ (by rw [hsplit]; simp [hearlier])
        exact hnode earlier (mem_append_left _ hearlier) hown (hsame ▸ hnamed) hsame.symm
      · exact hbackCross earlier hearlier later hlater
    · intro earlier hearlier later hlater
      apply hcross earlier hearlier later
      simp only [mem_append, mem_cons] at hlater ⊢
      tauto
  · intro _
    have hdenote := FirstValued.denote_found hvalid.order (hplace.append_left cache.t2.nodes)
    exact ⟨place.node, cache.t2.nodes, rfl, hplace.key_eq, hdenote⟩

theorem accessed_t2 (hvalid : cache.Valid)
    (ht1 : ∀ node ∈ cache.t1.nodes, node.key ≠ some key) {place : Place}
    (hplace : FirstOf key cache.t2.nodes place) :
    Accessed key cache
      { cache with t2 := lruAddFront (lruRemove cache.t2 place) place.node } .hitT2 := by
  have hwhole := FirstOf.append_right ht1 hplace
  have hperm : (cache.t1.nodes ++ place.node :: (place.front ++ place.back)).Perm
      cache.residents := hplace.perm.symm.append_left _
  refine ⟨⟨hvalid.t1_sized, (hvalid.t2_sized.remove hplace.split).addFront _,
    hvalid.b1_sized, hvalid.b2_sized, hvalid.t1_valued, hvalid.ghosts_valueless, ?_⟩, rfl,
    cachedOf_perm hperm, ?_, by simp⟩
  · have horder := hvalid.order
    obtain ⟨hleft, hright, hcross⟩ := pairwise_append.1 horder
    have hmoved := FirstValued.move_front hright hplace
    refine pairwise_append.2 ⟨hleft, hmoved, fun earlier hearlier later hlater => ?_⟩
    exact hcross earlier hearlier later (hplace.perm.mem_iff.2 hlater)
  · intro _
    have hdenote := FirstValued.denote_found hvalid.order hwhole
    exact ⟨place.node, _, rfl, hplace.key_eq, hdenote⟩

theorem denote_residents_eq_none (ht1 : ∀ node ∈ cache.t1.nodes, node.key ≠ some key)
    (ht2 : ∀ node ∈ cache.t2.nodes, node.key ≠ some key) :
    denote (cachedOf cache.residents) key = none := by
  apply denote_cachedOf_eq_none
  intro node hnode hkey
  rcases mem_append.1 hnode with hnode | hnode
  · exact absurd hkey (ht1 node hnode)
  · exact absurd hkey (ht2 node hnode)

/-- Both ghost hits put a node without a value in front of `t2`. -/
theorem accessed_ghost (hvalid : cache.Valid)
    (ht1 : ∀ node ∈ cache.t1.nodes, node.key ≠ some key)
    (ht2 : ∀ node ∈ cache.t2.nodes, node.key ≠ some key) {ghost : EvictNode}
    (hghost : ghost ∈ cache.ghosts) (hkey : ghost.key = some key) (after : ARCCache)
    (ht1After : after.t1 = cache.t1) (ht2After : after.t2 = lruAddFront cache.t2 ghost)
    (hb1 : after.b1.Sized) (hb2 : after.b2.Sized)
    (hghosts : ∀ node ∈ after.ghosts, node ∈ cache.ghosts)
    (hmax : after.maxSize = cache.maxSize) (hit : ArcHit)
    (hhit : ¬(hit = .hitT1 ∨ hit = .hitT2)) : Accessed key cache after hit := by
  have hvalueless := hvalid.ghosts_valueless ghost hghost
  have hresidents : after.residents =
      cache.t1.nodes ++ ghost :: cache.t2.nodes := by
    rw [ARCCache.residents, ht1After, ht2After]
    rfl
  refine ⟨⟨ht1After ▸ hvalid.t1_sized, ht2After ▸ hvalid.t2_sized.addFront _, hb1, hb2,
    ht1After ▸ hvalid.t1_valued,
    fun node hnode => hvalid.ghosts_valueless node (hghosts node hnode), ?_⟩, hmax, ?_,
    fun h => absurd h hhit, fun _ => denote_residents_eq_none ht1 ht2⟩
  · obtain ⟨hleft, hright, hcross⟩ := pairwise_append.1 hvalid.order
    have hfresh : ∀ other ∈ cache.t2.nodes, other.value ≠ none → other.key ≠ none →
        ghost.key ≠ other.key := by
      intro other hother _ _ hsame
      exact ht2 other hother (hsame ▸ hkey)
    rw [hresidents]
    refine pairwise_append.2 ⟨hleft, FirstValued.cons hright hfresh, ?_⟩
    intro earlier hearlier later hlater hvalued
    rcases mem_cons.1 hlater with rfl | hlater
    · exact absurd hvalueless hvalued
    · exact hcross earlier hearlier later hlater hvalued
  · rw [hresidents, cachedOf_append, cachedOf_cons_valueless hvalueless, ARCCache.residents,
      cachedOf_append]

theorem arcAccess_spec (hvalid : cache.Valid) (key : CStr) :
    ∃ after hit, arcAccess cache key = some (after, hit) ∧ Accessed key cache after hit := by
  cases ht1 : lruFind cache.t1 key with
  | some place =>
      exact ⟨_, .hitT1, by simp [arcAccess, ht1],
        accessed_t1 hvalid (findPlace_eq_some ht1)⟩
  | none =>
      have hfresh1 := findPlace_eq_none.1 ht1
      cases ht2 : lruFind cache.t2 key with
      | some place =>
          exact ⟨_, .hitT2, by simp [arcAccess, ht1, ht2],
            accessed_t2 hvalid hfresh1 (findPlace_eq_some ht2)⟩
      | none =>
          have hfresh2 := findPlace_eq_none.1 ht2
          cases hb1 : lruFind cache.b1 key with
          | some place =>
              have hplace := findPlace_eq_some hb1
              obtain ⟨delta, hdelta⟩ :=
                arcDelta_eq_some cache.b2.size hvalid.b1_sized hplace
              have hghost : place.node ∈ cache.ghosts := by
                simp [ARCCache.ghosts, hplace.split]
              let after : ARCCache := { cache with
                targetSize := min (cache.targetSize + delta) cache.maxSize
                b1 := lruRemove cache.b1 place
                t2 := lruAddFront cache.t2 place.node }
              have hkept : after.ghosts.Sublist cache.ghosts :=
                (lruRemove_sublist hplace.split).append_right _
              exact ⟨after, .hitB1, by simp [arcAccess, ht1, ht2, hb1, hdelta, after],
                accessed_ghost hvalid hfresh1 hfresh2 hghost hplace.key_eq after rfl rfl
                  (hvalid.b1_sized.remove hplace.split) hvalid.b2_sized
                  (fun node hnode => hkept.subset hnode) rfl .hitB1 (by simp)⟩
          | none =>
              cases hb2 : lruFind cache.b2 key with
              | some place =>
                  have hplace := findPlace_eq_some hb2
                  obtain ⟨delta, hdelta⟩ :=
                    arcDelta_eq_some cache.b1.size hvalid.b2_sized hplace
                  have hghost : place.node ∈ cache.ghosts := by
                    simp [ARCCache.ghosts, hplace.split]
                  let after : ARCCache := { cache with
                    targetSize := max (cache.targetSize - delta) 0
                    b2 := lruRemove cache.b2 place
                    t2 := lruAddFront cache.t2 place.node }
                  have hkept : after.ghosts.Sublist cache.ghosts :=
                    (lruRemove_sublist hplace.split).append_left _
                  exact ⟨after, .hitB2,
                    by simp [arcAccess, ht1, ht2, hb1, hb2, hdelta, after],
                    accessed_ghost hvalid hfresh1 hfresh2 hghost hplace.key_eq after rfl rfl
                      hvalid.b1_sized (hvalid.b2_sized.remove hplace.split)
                      (fun node hnode => hkept.subset hnode) rfl .hitB2 (by simp)⟩
              | none =>
                  exact ⟨cache, .miss, by simp [arcAccess, ht1, ht2, hb1, hb2],
                    hvalid, rfl, Perm.refl _, by simp,
                    fun _ => denote_residents_eq_none hfresh1 hfresh2⟩

theorem findPlace_head {node : EvictNode} (hkey : node.key = some key)
    (rest : List EvictNode) : findPlace key (node :: rest) = some ⟨[], node, rest⟩ := by
  simp [findPlace, hkey]

theorem arcGet_spec (hvalid : cache.Valid) (key : CStr) :
    ∃ after, arcGet cache key = some (after, denote (cachedOf cache.residents) key) ∧
      after.Valid ∧ after.maxSize = cache.maxSize ∧
      (cachedOf after.residents).Perm (cachedOf cache.residents) := by
  obtain ⟨after, hit, haccess, hspec⟩ := arcAccess_spec hvalid key
  refine ⟨after, ?_, hspec.valid, hspec.maxSize_eq, hspec.cached⟩
  by_cases hresident : hit = .hitT1 ∨ hit = .hitT2
  · obtain ⟨node, rest, hfront, hkey, hdenote⟩ := hspec.found hresident
    have hfind : lruFind after.t2 key = some ⟨[], node, rest⟩ := by
      rw [lruFind, hfront]
      exact findPlace_head hkey rest
    simp [arcGet, haccess, hresident, hfind, hdenote]
  · simp [arcGet, haccess, hresident, hspec.missed hresident]

/-! ## Eviction and insertion -/

theorem trimGhosts_spec (maxSize : ℕ) : ∀ (fuel : ℕ) (ghosts : LRUCache), ghosts.Sized →
    ghosts.nodes.length < fuel →
    ∃ after, trimGhosts maxSize fuel ghosts = some after ∧ after.Sized ∧
      after.nodes = ghosts.nodes.take maxSize
  | 0, _, _, hfuel => absurd hfuel (Nat.not_lt_zero _)
  | fuel + 1, ghosts, hsized, hfuel => by
      by_cases hover : (maxSize : ℤ) < ghosts.size
      · rw [hsized] at hover
        cases htail : lruTail ghosts with
        | none =>
            rw [lruTail_eq_none.1 htail] at hover
            simp only [length_nil] at hover
            omega
        | some oldest =>
            obtain ⟨hnodes, hback⟩ := lruTail_eq_some htail
            have hsplit : ghosts.nodes = oldest.front ++ oldest.node :: oldest.back := by
              rw [hnodes, hback]
            have hremoved : (lruRemove ghosts oldest).nodes = oldest.front := by
              simp [lruRemove, hback]
            have hlength : ghosts.nodes.length = oldest.front.length + 1 := by simp [hnodes]
            obtain ⟨after, hafter, hsizedAfter, htake⟩ :=
              trimGhosts_spec maxSize fuel _ (hsized.remove hsplit) (by rw [hremoved]; omega)
            refine ⟨after, ?_, hsizedAfter, ?_⟩
            · rw [trimGhosts, if_pos (hsized ▸ hover), htail]
              exact hafter
            · rw [htake, hremoved, hnodes, take_append_of_le_length (by omega)]
      · refine ⟨ghosts, by simp [trimGhosts, hover], hsized, ?_⟩
        rw [hsized] at hover
        exact (take_of_length_le (by omega)).symm

/-- The ghost of the victim comes first and the oldest ghosts are gone. -/
theorem recordGhost_of_ghost {alloc : Alloc} (maxSize : ℕ) {victim ghost : EvictNode}
    (hghost : arcGhost alloc victim = some ghost) {ghosts : LRUCache} (hsized : ghosts.Sized) :
    ∃ after, recordGhost alloc maxSize victim ghosts = some after ∧ after.Sized ∧
      after.nodes = (ghost :: ghosts.nodes).take maxSize := by
  obtain ⟨after, hafter, hsizedAfter, htake⟩ := trimGhosts_spec maxSize
    (ghosts.nodes.length + 2) (lruAddFront ghosts ghost) (hsized.addFront _)
    (by simp [lruAddFront])
  exact ⟨after, by simpa [recordGhost, hghost] using hafter, hsizedAfter, htake⟩

/-- A recorded ghost carries no value, with or without its key. -/
theorem recordGhost_kept {alloc : Alloc} {maxSize : ℕ} {victim : EvictNode}
    {ghosts after : LRUCache} (hsized : ghosts.Sized)
    (hvalueless : ∀ node ∈ ghosts.nodes, node.value = none)
    (hrecord : recordGhost alloc maxSize victim ghosts = some after) :
    after.Sized ∧ ∀ node ∈ after.nodes, node.value = none := by
  cases hghost : arcGhost alloc victim with
  | none => simp [recordGhost, hghost] at hrecord
  | some ghost =>
      obtain ⟨expected, hexpected, hsizedAfter, htake⟩ := recordGhost_of_ghost maxSize hghost hsized
      obtain rfl : expected = after := Option.some.inj (hexpected.symm.trans hrecord)
      have hnone : ghost.value = none := by
        rw [arcGhost] at hghost
        split at hghost
        · rw [← Option.some.inj hghost]
        · cases hghost
      refine ⟨hsizedAfter, fun node hnode => ?_⟩
      rw [htake] at hnode
      rcases mem_cons.1 (take_subset _ _ hnode) with rfl | hnode
      · exact hnone
      · exact hvalueless node hnode

/-- The outcomes of `arc_evict`. -/
inductive Eviction (alloc : Alloc) (cache : ARCCache) : ARCCache → Prop
  | room (hroom : cache.t1.size + cache.t2.size < cache.maxSize) : Eviction alloc cache cache
  | declined (hfull : cache.maxSize ≤ cache.t1.size + cache.t2.size)
      (ht1 : cache.t1.size ≤ cache.targetSize ∨ lruTail cache.t1 = none)
      (ht2 : lruTail cache.t2 = none) : Eviction alloc cache cache
  | fromT1 (victim : Place) (ghosts : LRUCache)
      (hfull : cache.maxSize ≤ cache.t1.size + cache.t2.size)
      (htarget : cache.targetSize < cache.t1.size) (htail : lruTail cache.t1 = some victim)
      (hghosts : recordGhost alloc cache.maxSize victim.node cache.b1 = some ghosts) :
      Eviction alloc cache { cache with t1 := lruRemove cache.t1 victim, b1 := ghosts }
  | fromT2 (victim : Place) (ghosts : LRUCache)
      (hfull : cache.maxSize ≤ cache.t1.size + cache.t2.size)
      (htail : lruTail cache.t2 = some victim)
      (hghosts : recordGhost alloc cache.maxSize victim.node cache.b2 = some ghosts) :
      Eviction alloc cache { cache with t2 := lruRemove cache.t2 victim, b2 := ghosts }

variable {alloc : Alloc} {after room : ARCCache} {value : CStr}

theorem eviction_of_arcEvict {victim : Option EvictNode}
    (hevict : arcEvict alloc cache = some (after, victim)) : Eviction alloc cache after := by
  unfold arcEvict at hevict
  split at hevict
  case isTrue hroom =>
      simp only [Option.some.injEq, Prod.mk.injEq] at hevict
      exact hevict.1 ▸ .room hroom
  case isFalse hfull =>
      rw [not_lt] at hfull
      split at hevict
      case h_1 place hchoice =>
          obtain ⟨ghosts, hghosts, heq⟩ := Option.bind_eq_some_iff.1 hevict
          simp only [Option.pure_def, Option.some.injEq, Prod.mk.injEq] at heq
          obtain ⟨htarget, htail⟩ : cache.targetSize < cache.t1.size ∧
              lruTail cache.t1 = some place := by
            split at hchoice
            · exact ⟨by assumption, hchoice⟩
            · cases hchoice
          exact heq.1 ▸ .fromT1 place ghosts hfull htarget htail hghosts
      case h_2 hchoice =>
          split at hevict
          case h_1 place htail =>
              obtain ⟨ghosts, hghosts, heq⟩ := Option.bind_eq_some_iff.1 hevict
              simp only [Option.pure_def, Option.some.injEq, Prod.mk.injEq] at heq
              exact heq.1 ▸ .fromT2 place ghosts hfull htail hghosts
          case h_2 htail =>
              simp only [Option.some.injEq, Prod.mk.injEq] at hevict
              refine hevict.1 ▸ .declined hfull ?_ htail
              split at hchoice
              · exact .inr hchoice
              · exact .inl (by omega)

/-- An insertion evicts and then puts a node with the value into `t1`; its key is null
when there was no memory for it. -/
theorem insertion_of_arcAdd (hadd : arcAdd alloc cache key value = some after) :
    ∃ room victim named, arcEvict alloc cache = some (room, victim) ∧
      Eviction alloc cache room ∧ (named = some key ∨ named = none) ∧
      (alloc = allocOk → named = some key) ∧
      after = { room with
        t1 := lruAddFront room.t1 { key := named, value := some value, accessCount := 1 } } := by
  obtain ⟨⟨room, victim⟩, hevict, hrest⟩ := Option.bind_eq_some_iff.1 hadd
  simp only [Option.pure_def] at hrest
  generalize (if victim.isSome = true then 2 else 0) = used at hrest
  split at hrest
  · simp only [Option.some.injEq] at hrest
    refine ⟨room, victim, _, hevict, eviction_of_arcEvict hevict, ?_, ?_, hrest.symm⟩
    · split
      · exact .inl rfl
      · exact .inr rfl
    · rintro rfl
      rfl
  · cases hrest

/-- An eviction takes a resident out, whatever is left of it as a ghost. -/
theorem Eviction.kept (heviction : Eviction alloc cache room) (hvalid : cache.Valid) :
    room.Valid ∧ room.maxSize = cache.maxSize ∧ room.residents.Sublist cache.residents := by
  have hb1 : ∀ node ∈ cache.b1.nodes, node.value = none := fun node hnode =>
    hvalid.ghosts_valueless node (mem_append_left _ hnode)
  have hb2 : ∀ node ∈ cache.b2.nodes, node.value = none := fun node hnode =>
    hvalid.ghosts_valueless node (mem_append_right _ hnode)
  cases heviction with
  | room => exact ⟨hvalid, rfl, Sublist.refl _⟩
  | declined => exact ⟨hvalid, rfl, Sublist.refl _⟩
  | fromT1 victim ghosts hfull htarget htail hghosts =>
      have hsplit := lruTail_split htail
      have hkept := lruRemove_sublist hsplit
      have hsublist := hkept.append_right cache.t2.nodes
      obtain ⟨hsized, hvalueless⟩ := recordGhost_kept hvalid.b1_sized hb1 hghosts
      refine ⟨⟨hvalid.t1_sized.remove hsplit, hvalid.t2_sized, hsized, hvalid.b2_sized,
        fun node hnode => hvalid.t1_valued node (hkept.subset hnode), fun node hnode => ?_,
        hvalid.order.sublist hsublist⟩, rfl, hsublist⟩
      exact (mem_append.1 hnode).elim (hvalueless node) (hb2 node)
  | fromT2 victim ghosts hfull htail hghosts =>
      have hsplit := lruTail_split htail
      have hsublist := (lruRemove_sublist hsplit).append_left cache.t1.nodes
      obtain ⟨hsized, hvalueless⟩ := recordGhost_kept hvalid.b2_sized hb2 hghosts
      refine ⟨⟨hvalid.t1_sized, hvalid.t2_sized.remove hsplit, hvalid.b1_sized, hsized,
        hvalid.t1_valued, fun node hnode => ?_, hvalid.order.sublist hsublist⟩, rfl, hsublist⟩
      exact (mem_append.1 hnode).elim (hb1 node) (hvalueless node)

/-- Insertion after a miss adds one pair, unless its key could not be copied; eviction may
cost others. -/
theorem arcAdd_kept (hvalid : cache.Valid)
    (hmiss : denote (cachedOf cache.residents) key = none)
    (hadd : arcAdd alloc cache key value = some after) :
    after.Valid ∧ after.maxSize = cache.maxSize ∧
      ∃ kept, kept.Sublist (cachedOf cache.residents) ∧
        (alloc = allocOk → cachedOf after.residents = entry key value :: kept) := by
  obtain ⟨room, victim, named, -, heviction, hnamed, hkey, rfl⟩ := insertion_of_arcAdd hadd
  obtain ⟨hroom, hmax, hsublist⟩ := heviction.kept hvalid
  let node : EvictNode := { key := named, value := some value, accessCount := 1 }
  have hfresh : ∀ other ∈ room.residents, other.value ≠ none → other.key ≠ none →
      node.key ≠ other.key := by
    intro other hother hvalued hother' hsame
    obtain ⟨contents, hcontents⟩ := Option.ne_none_iff_exists'.1 hvalued
    rcases hnamed with rfl | rfl
    · have hmem : entry key contents ∈ cachedOf cache.residents :=
        mem_cachedOf.2 ⟨other, hsublist.subset hother, hsame.symm, hcontents⟩
      exact denote_eq_none_iff.1 hmiss (mem_keys_of_mem hmem)
    · exact hother' hsame.symm
  refine ⟨⟨hroom.t1_sized.addFront _, hroom.t2_sized, hroom.b1_sized, hroom.b2_sized, ?_,
    hroom.ghosts_valueless, hroom.order.cons hfresh⟩, hmax, cachedOf room.residents,
    hsublist.filterMap _, fun halloc => cachedOf_cons_filled (hkey halloc) rfl _⟩
  intro other hother
  rcases mem_cons.1 hother with rfl | hother
  · simp
  · exact hroom.t1_valued other hother

theorem arcAdd_granted (hb1 : cache.b1.Sized) (hb2 : cache.b2.Sized) (key value : CStr) :
    ∃ after, arcAdd allocOk cache key value = some after := by
  have hrecord : ∀ (victim : EvictNode) {ghosts : LRUCache}, ghosts.Sized →
      ∃ after, recordGhost allocOk cache.maxSize victim ghosts = some after := by
    intro victim ghosts hsized
    obtain ⟨after, hafter, -⟩ := recordGhost_of_ghost cache.maxSize
      (show arcGhost allocOk victim = some { victim with value := none } from rfl) hsized
    exact ⟨after, hafter⟩
  have hevict : ∃ result, arcEvict allocOk cache = some result := by
    unfold arcEvict
    split
    case isTrue => exact ⟨_, rfl⟩
    case isFalse =>
        split
        case h_1 victim hvictim =>
            obtain ⟨ghosts, hghosts⟩ := hrecord victim.node hb1
            rw [hghosts]
            exact ⟨_, rfl⟩
        case h_2 =>
            split
            case h_1 victim hvictim =>
                obtain ⟨ghosts, hghosts⟩ := hrecord victim.node hb2
                rw [hghosts]
                exact ⟨_, rfl⟩
            case h_2 => exact ⟨_, rfl⟩
  obtain ⟨⟨room, victim⟩, hevict⟩ := hevict
  exact ⟨_, by simp [arcAdd, hevict]; rfl⟩

/-! ## Deletion -/

/-- The node that carries the value of `key` is gone and no other node; without
such a node the cached pairs stay. -/
structure Cleared (key : CStr) (before after : List EvictNode) : Prop where
  present : ∀ value, denote (cachedOf before) key = some value →
    ∃ node, node.key = some key ∧ node.value = some value ∧ before.Perm (node :: after)
  absent : denote (cachedOf before) key = none → (cachedOf after).Perm (cachedOf before)

/-- Removing the first node of a key from the part of a structure that holds all
its values. -/
theorem FirstValued.cleared {nodes : List EvictNode} (hfirst : FirstValued nodes)
    {place : Place} (hplace : FirstOf key nodes place) (others : List EvictNode)
    (hothers : cachedOf others = []) :
    Cleared key (nodes ++ others) (place.front ++ place.back ++ others) := by
  have hperm : (nodes ++ others).Perm
      (place.node :: (place.front ++ place.back ++ others)) :=
    hplace.perm.append_right others
  have hdenote : denote (cachedOf (nodes ++ others)) key = place.node.value := by
    rw [cachedOf_append, hothers, append_nil]
    exact hfirst.denote_found hplace
  constructor
  · intro value hvalue
    exact ⟨place.node, hplace.key_eq, hdenote ▸ hvalue, hperm⟩
  · intro hnone
    rw [hdenote] at hnone
    have hcached := cachedOf_perm hperm
    rw [cachedOf_cons_valueless hnone] at hcached
    exact hcached.symm

/-- Ghosts may be forgotten. -/
theorem ARCCache.Valid.forget (hvalid : cache.Valid) {b1 b2 : LRUCache} (hb1 : b1.Sized)
    (hb2 : b2.Sized) (hsubset : b1.nodes ++ b2.nodes ⊆ cache.ghosts) :
    ({ cache with b1 := b1, b2 := b2 } : ARCCache).Valid :=
  { hvalid with
    b1_sized := hb1
    b2_sized := hb2
    ghosts_valueless := fun node hnode => hvalid.ghosts_valueless node (hsubset hnode) }

/-- Forgetting ghosts clears a key that is not cached. -/
theorem ARCCache.Valid.cleared_forget (hvalid : cache.Valid)
    (hnone : denote (cachedOf cache.nodes) key = none) {b1 b2 : LRUCache}
    (hsubset : b1.nodes ++ b2.nodes ⊆ cache.ghosts) :
    Cleared key cache.nodes ({ cache with b1 := b1, b2 := b2 } : ARCCache).nodes := by
  refine ⟨fun value hvalue => absurd (hnone.symm.trans hvalue) (by simp), fun _ => ?_⟩
  have hvalueless : ∀ node ∈ b1.nodes ++ b2.nodes, node.value = none :=
    fun node hnode => hvalid.ghosts_valueless node (hsubset hnode)
  rw [hvalid.cachedOf_nodes, ARCCache.nodes, cachedOf_append]
  simp only [ARCCache.ghosts, cachedOf_eq_nil hvalueless, append_nil]
  rfl

theorem arcDel_spec (hvalid : cache.Valid) (key : CStr) :
    (arcDel cache key).1.Valid ∧ (arcDel cache key).1.maxSize = cache.maxSize ∧
      Cleared key cache.nodes (arcDel cache key).1.nodes ∧
      (denote (cachedOf cache.nodes) key ≠ none → (arcDel cache key).2 = 0) := by
  have hghosts := cachedOf_eq_nil hvalid.ghosts_valueless
  cases ht1 : lruFind cache.t1 key with
  | some place =>
      have hplace := findPlace_eq_some ht1
      have hkept := lruRemove_sublist hplace.split
      have hcleared := hvalid.order.cleared
        (hplace.append_left cache.t2.nodes) cache.ghosts hghosts
      simp only [arcDel, ht1]
      refine ⟨⟨hvalid.t1_sized.remove hplace.split, hvalid.t2_sized, hvalid.b1_sized,
        hvalid.b2_sized, fun node hnode => hvalid.t1_valued node (hkept.subset hnode),
        hvalid.ghosts_valueless, hvalid.order.sublist (hkept.append_right _)⟩, trivial, ?_,
        fun _ => trivial⟩
      simpa [ARCCache.nodes, ARCCache.residents, ARCCache.ghosts, lruRemove] using hcleared
  | none =>
      have hfresh1 := findPlace_eq_none.1 ht1
      cases ht2 : lruFind cache.t2 key with
      | some place =>
          have hplace := findPlace_eq_some ht2
          have hkept := lruRemove_sublist hplace.split
          have hcleared := hvalid.order.cleared
            (FirstOf.append_right hfresh1 hplace) cache.ghosts hghosts
          simp only [arcDel, ht1, ht2]
          refine ⟨⟨hvalid.t1_sized, hvalid.t2_sized.remove hplace.split, hvalid.b1_sized,
            hvalid.b2_sized, hvalid.t1_valued, hvalid.ghosts_valueless,
            hvalid.order.sublist (hkept.append_left _)⟩, trivial, ?_, fun _ => trivial⟩
          simpa [ARCCache.nodes, ARCCache.residents, ARCCache.ghosts, lruRemove]
            using hcleared
      | none =>
          -- only ghosts are left to remove, and they are not cached
          have hnone := denote_residents_eq_none hfresh1 (findPlace_eq_none.1 ht2)
          rw [← hvalid.cachedOf_nodes] at hnone
          cases hb1 : lruFind cache.b1 key with
          | some place =>
              have hsplit := (findPlace_eq_some hb1).split
              have hsubset := ((lruRemove_sublist hsplit).append_right cache.b2.nodes).subset
              simp only [arcDel, ht1, ht2, hb1]
              exact ⟨hvalid.forget (hvalid.b1_sized.remove hsplit) hvalid.b2_sized hsubset,
                trivial, hvalid.cleared_forget hnone hsubset, fun _ => trivial⟩
          | none =>
              cases hb2 : lruFind cache.b2 key with
              | some place =>
                  have hsplit := (findPlace_eq_some hb2).split
                  have hsubset := ((lruRemove_sublist hsplit).append_left cache.b1.nodes).subset
                  simp only [arcDel, ht1, ht2, hb1, hb2]
                  exact ⟨hvalid.forget hvalid.b1_sized (hvalid.b2_sized.remove hsplit) hsubset,
                    trivial, hvalid.cleared_forget hnone hsubset, fun _ => trivial⟩
              | none =>
                  simp only [arcDel, ht1, ht2, hb1, hb2]
                  exact ⟨hvalid, trivial, hvalid.cleared_forget hnone (Subset.refl cache.ghosts),
                    fun hne => absurd hnone hne⟩

end LiteMultiKV.Cache
