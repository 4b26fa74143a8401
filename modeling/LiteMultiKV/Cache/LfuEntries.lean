import LiteMultiKV.Cache.Manager
import LiteMultiKV.Core.Run

/-!
# The entries of the frequency heap

Whatever order the heap is in, it neither loses nor doubles an entry.  A client
that watches the calls and their answers can keep, for each key, the value it
added last and the number of accesses since; the heap holds each cached key in
one cell, with that value and that number.  Which keys are cached changes by
one insertion, one deletion, or one eviction from a full heap.
-/

namespace LiteMultiKV.Cache

open List CText Memory Numeric Run

variable {F : Type}

/-- The value added last for each key, and one more than its hits since then. -/
abbrev Usage := CStr → Option (CStr × ℕ)

/-- What a client notes about a call and its answer; an eviction does not show. -/
def noteUsage (usage : Usage) : CacheCall → CacheAnswer → Usage
  | .get (some key), .value (some _) =>
      Function.update usage key ((usage key).map fun entry => (entry.1, entry.2 + 1))
  | .add _ key value, _ => Function.update usage key (some (value, 1))
  | .del (some key), .code code =>
      if code = 0 then Function.update usage key none else usage
  | _, _ => usage

/-- The key is in one of the occupied cells. -/
def LFUCache.Caches (cache : LFUCache) (key : CStr) : Prop :=
  ∃ idx node, cache.Occupied idx ∧ cache.nodes idx = some node ∧ node.key = some key

/-- An insertion is of a key that is not cached. -/
def AddsMissed (manager : CacheManager F) : CacheCall → Prop
  | .add _ key _ => ¬manager.lfu.Caches key
  | _ => True

/-- The occupied cells hold each cached key once, as the client noted it. -/
structure LFUCache.Holds (cache : LFUCache) (usage : Usage) : Prop where
  size_le : cache.size ≤ cache.capacity
  noted : ∀ idx, cache.Occupied idx → ∃ node key value, cache.nodes idx = some node ∧
    node.key = some key ∧ node.value = some value ∧ usage key = some (value, node.accessCount)
  once : ∀ i j node other, cache.Occupied i → cache.Occupied j → cache.nodes i = some node →
    cache.nodes j = some other → node.key = other.key → i = j

/-- What a call does to the set of cached keys, and what it answers. -/
def LfuServes (manager : CacheManager F) (usage : Usage) (call : CacheCall)
    (final : CacheManager F) (answer : CacheAnswer) : Prop :=
  match call with
  | .get none => answer = .value none ∧ final.lfu = manager.lfu
  | .get (some key) => (∀ other, final.lfu.Caches other ↔ manager.lfu.Caches other) ∧
      (manager.lfu.Caches key → answer = .value ((usage key).map Prod.fst)) ∧
      (¬manager.lfu.Caches key → answer = .value none)
  | .add _ key _ => (∃ room, lfuMakeRoom manager.lfu = some room ∧ room.size < room.capacity) ∧
      if manager.lfu.size < manager.lfu.capacity then
        ∀ other, final.lfu.Caches other ↔ other = key ∨ manager.lfu.Caches other
      else ∃ gone, manager.lfu.Caches gone ∧ ∀ other, final.lfu.Caches other ↔
        other = key ∨ manager.lfu.Caches other ∧ other ≠ gone
  | .del none => answer = .code (-1) ∧ final.lfu = manager.lfu
  | .del (some key) => (manager.lfu.Caches key → answer = .code 0) ∧
      (¬manager.lfu.Caches key → answer = .code (-2)) ∧
      ∀ other, final.lfu.Caches other ↔ manager.lfu.Caches other ∧ other ≠ key

/-! ## The list of occupied cells -/

theorem LFUCache.caches_iff {cache : LFUCache} {key : CStr} :
    cache.Caches key ↔ ∃ node ∈ cache.residents, node.key = some key := by
  simp only [LFUCache.Caches, LFUCache.mem_residents]
  constructor
  · rintro ⟨idx, node, hidx, hnode, hkey⟩
    exact ⟨node, ⟨idx, hidx, hnode⟩, hkey⟩
  · rintro ⟨node, ⟨idx, hidx, hnode⟩, hkey⟩
    exact ⟨idx, node, hidx, hnode, hkey⟩

theorem lfuFind_isSome_iff {cache : LFUCache} {key : CStr} :
    (lfuFind cache key).isSome ↔ cache.Caches key := by
  cases hfind : lfuFind cache key with
  | none =>
      have hnone := lfuFind_eq_none hfind
      simp only [Option.isSome_none, Bool.false_eq_true, false_iff, LFUCache.caches_iff]
      rintro ⟨node, hnode, hkey⟩
      exact hnone node hnode hkey
  | some idx =>
      obtain ⟨hidx, node, hnode, hkey⟩ := lfuFind_eq_some hfind
      simp only [Option.isSome_some, true_iff]
      exact ⟨idx, node, hidx, hnode, hkey⟩

instance (manager : CacheManager F) (call : CacheCall) : Decidable (AddsMissed manager call) :=
  match call with
  | .get _ => isTrue trivial
  | .add _ key _ => decidable_of_iff (¬(lfuFind manager.lfu key).isSome)
      (not_congr lfuFind_isSome_iff)
  | .del _ => isTrue trivial

/-- The node is as the client noted it. -/
def NotedAs (usage : Usage) (node : EvictNode) : Prop :=
  ∃ key value, node.key = some key ∧ node.value = some value ∧
    usage key = some (value, node.accessCount)

/-- Notes about other keys do not matter. -/
theorem NotedAs.update {usage : Usage} {node : EvictNode} (hnoted : NotedAs usage node)
    {key : CStr} (hkey : node.key ≠ some key) (entry : Option (CStr × ℕ)) :
    NotedAs (Function.update usage key entry) node := by
  obtain ⟨own, value, hown, hvalue, husage⟩ := hnoted
  have hother : own ≠ key := by
    rintro rfl
    exact hkey hown
  exact ⟨own, value, hown, hvalue, by rw [Function.update_of_ne hother, husage]⟩

/-- The nodes of a heap as the client noted them, no key twice. -/
structure Tracked (usage : Usage) (nodes : List EvictNode) : Prop where
  noted : ∀ node ∈ nodes, NotedAs usage node
  distinct : nodes.Pairwise fun left right => left.key ≠ right.key

variable {usage : Usage} {nodes rest : List EvictNode} {node : EvictNode} {key value : CStr}

theorem Tracked.perm (htracked : Tracked usage nodes) (hperm : nodes.Perm rest) :
    Tracked usage rest :=
  ⟨fun node hnode => htracked.noted node (hperm.mem_iff.2 hnode),
    (hperm.pairwise_iff fun hne => hne.symm).1 htracked.distinct⟩

theorem Tracked.tail (htracked : Tracked usage (node :: rest)) : Tracked usage rest :=
  ⟨fun other hother => htracked.noted other (mem_cons_of_mem _ hother),
    (pairwise_cons.1 htracked.distinct).2⟩

theorem Tracked.tail_ne (htracked : Tracked usage (node :: rest)) (hkey : node.key = some key) :
    ∀ other ∈ rest, other.key ≠ some key := by
  intro other hother heq
  exact (pairwise_cons.1 htracked.distinct).1 other hother (hkey.trans heq.symm)

/-- A node takes the place that the client noted for its key. -/
theorem Tracked.cons (htracked : Tracked usage rest) (hrest : ∀ other ∈ rest, other.key ≠ some key)
    (hkey : node.key = some key) (hvalue : node.value = some value) :
    Tracked (Function.update usage key (some (value, node.accessCount))) (node :: rest) := by
  refine ⟨fun other hother => ?_, pairwise_cons.2 ⟨fun other hother heq => ?_,
    htracked.distinct⟩⟩
  · rcases mem_cons.1 hother with rfl | hother
    · exact ⟨key, value, hkey, hvalue, Function.update_self key _ usage⟩
    · exact (htracked.noted other hother).update (hrest other hother) _
  · exact hrest other hother (heq ▸ hkey)

theorem Tracked.forget (htracked : Tracked usage rest)
    (hrest : ∀ other ∈ rest, other.key ≠ some key) :
    Tracked (Function.update usage key none) rest :=
  ⟨fun other hother => (htracked.noted other hother).update (hrest other hother) _,
    htracked.distinct⟩

/-- The frequency policy is active and its heap is as the client noted it. -/
structure LfuTracked (manager : CacheManager F) (usage : Usage) : Prop where
  policy_eq : manager.policy = .lfu
  maxItems_pos : 0 < manager.maxItems
  sound : manager.lfu.Sound
  capacity_eq : manager.lfu.capacity = manager.maxItems
  tracked : Tracked usage manager.lfu.residents

theorem caches_of_perm {cache : LFUCache} (hperm : cache.residents.Perm (node :: rest))
    (hkey : node.key = some key) (other : CStr) :
    cache.Caches other ↔ other = key ∨ ∃ member ∈ rest, member.key = some other := by
  rw [LFUCache.caches_iff]
  constructor
  · rintro ⟨member, hmember, hother⟩
    rcases mem_cons.1 (hperm.mem_iff.1 hmember) with rfl | hmember
    · exact .inl (Option.some.inj (hother.symm.trans hkey))
    · exact .inr ⟨member, hmember, hother⟩
  · rintro (rfl | ⟨member, hmember, hother⟩)
    · exact ⟨node, hperm.mem_iff.2 mem_cons_self, hkey⟩
    · exact ⟨member, hperm.mem_iff.2 (mem_cons_of_mem _ hmember), hother⟩

/-! ## One call -/

section Step

variable {manager : CacheManager F}

theorem LfuTracked.get (hkept : LfuTracked manager usage) (key : CStr) :
    ∃ final answer, cacheStep manager (.get (some key)) = some (final, answer) ∧
      LfuTracked final (noteUsage usage (.get (some key)) answer) ∧
      LfuServes manager usage (.get (some key)) final answer := by
  obtain ⟨hpolicy, hpos, hsound, hcapacity, htracked⟩ := hkept
  have hfound : (lfuFind manager.lfu key).isSome ↔ manager.lfu.Caches key := lfuFind_isSome_iff
  cases hfind : lfuFind manager.lfu key with
  | none =>
      rw [hfind] at hfound
      refine ⟨countMiss manager, .value none,
        by simp [cacheStep, kvsCacheGet, hpos.ne', hpolicy, hfind],
        ⟨hpolicy, hpos, hsound, hcapacity, htracked⟩, fun _ => Iff.rfl, fun hcaches => ?_,
        fun _ => rfl⟩
      exact absurd (hfound.2 hcaches) (by simp)
  | some idx =>
      obtain ⟨hidx, node, hnode, hkey⟩ := lfuFind_eq_some hfind
      obtain ⟨lfu, rest, hhit, hafter, -, hsame, hbefore, hperm⟩ := lfuHit_perm hsound hidx hnode
      have hbeforeTracked := htracked.perm hbefore
      obtain ⟨own, value, hown, hvalue, husage⟩ := hbeforeTracked.noted node mem_cons_self
      obtain rfl : own = key := by simpa [hkey] using hown.symm
      have hcaches : manager.lfu.Caches own := ⟨idx, node, hidx, hnode, hkey⟩
      refine ⟨countHit { manager with lfu := lfu }, .value node.value,
        by simp [cacheStep, kvsCacheGet, hpos.ne', hpolicy, hfind, hhit],
        ⟨hpolicy, hpos, hafter, hsame.trans hcapacity, ?_⟩, fun other => ?_, fun _ => ?_,
        fun hmiss => absurd hcaches hmiss⟩
      · simp only [hvalue, noteUsage, husage, Option.map_some]
        refine Tracked.perm ?_ hperm.symm
        exact hbeforeTracked.tail.cons (hbeforeTracked.tail_ne hkey)
          (show node.accessed.key = some own from hkey)
          (show node.accessed.value = some value from hvalue)
      · have hnow : node.accessed.key = some own := hkey
        exact (caches_of_perm hperm hnow other).trans (caches_of_perm hbefore hkey other).symm
      · rw [husage, hvalue]
        rfl

theorem LfuTracked.add (hkept : LfuTracked manager usage) (hmiss : ¬manager.lfu.Caches key)
    (value : CStr) :
    ∃ final answer, cacheStep manager (.add allocOk key value) = some (final, answer) ∧
      LfuTracked final (noteUsage usage (.add allocOk key value) answer) ∧
      LfuServes manager usage (.add allocOk key value) final answer := by
  obtain ⟨hpolicy, hpos, hsound, hcapacity, htracked⟩ := hkept
  let node : EvictNode := { key := some key, value := some value, accessCount := 1 }
  obtain ⟨room, hroom, hroomSound, hspace, hsame, hloss⟩ :=
    lfuMakeRoom_perm hsound (by rw [hcapacity]; exact hpos)
  obtain ⟨lfu, hadd, hlfu, -, hlfuCapacity, hperm⟩ := lfuAdd_perm hroomSound hspace node
  have hadded : lfuAdd room { key := some key, value := some value, accessCount := 1 } =
      some lfu := hadd
  have hcaches := caches_of_perm hperm (show node.key = some key from rfl)
  -- what is left of the old nodes
  have hleft : Tracked usage room.residents ∧ ∀ other ∈ room.residents, other.key ≠ some key := by
    have habsent : ∀ other ∈ manager.lfu.residents, other.key ≠ some key := fun other hother heq =>
      hmiss (LFUCache.caches_iff.2 ⟨other, hother, heq⟩)
    split at hloss
    · rw [hloss]
      exact ⟨htracked, habsent⟩
    · obtain ⟨victim, hvictim⟩ := hloss
      exact ⟨(htracked.perm hvictim).tail, fun other hother =>
        habsent other (hvictim.mem_iff.2 (mem_cons_of_mem _ hother))⟩
  refine ⟨{ manager with lfu := lfu }, .added,
    by simp [cacheStep, kvsCacheLruAdd, hpolicy, hroom, hadded],
    ⟨hpolicy, hpos, hlfu, hlfuCapacity.trans (hsame.trans hcapacity), ?_⟩,
    ⟨room, hroom, hspace⟩, ?_⟩
  · have hnew := hleft.1.cons hleft.2 (show node.key = some key from rfl)
      (show node.value = some value from rfl)
    exact hnew.perm hperm.symm
  · split at hloss
    case isTrue hspare =>
        rw [if_pos hspare]
        intro other
        rw [hcaches, hloss, LFUCache.caches_iff]
    case isFalse hfull =>
        rw [if_neg hfull]
        obtain ⟨victim, hvictim⟩ := hloss
        have hbefore := htracked.perm hvictim
        obtain ⟨gone, -, hgone, -, -⟩ := hbefore.noted victim mem_cons_self
        refine ⟨gone, (caches_of_perm hvictim hgone gone).2 (.inl rfl), fun other => ?_⟩
        rw [hcaches, caches_of_perm hvictim hgone other]
        have hrest := hbefore.tail_ne hgone
        constructor
        · rintro (heq | ⟨member, hmember, hother⟩)
          · exact .inl heq
          · refine .inr ⟨.inr ⟨member, hmember, hother⟩, ?_⟩
            rintro rfl
            exact hrest member hmember hother
        · rintro (heq | ⟨heq | hmember, hne⟩)
          · exact .inl heq
          · exact absurd heq hne
          · exact .inr hmember

theorem LfuTracked.del (hkept : LfuTracked manager usage) (key : CStr) :
    ∃ final answer, cacheStep manager (.del (some key)) = some (final, answer) ∧
      LfuTracked final (noteUsage usage (.del (some key)) answer) ∧
      LfuServes manager usage (.del (some key)) final answer := by
  obtain ⟨hpolicy, hpos, hsound, hcapacity, htracked⟩ := hkept
  have hfound : (lfuFind manager.lfu key).isSome ↔ manager.lfu.Caches key := lfuFind_isSome_iff
  cases hfind : lfuFind manager.lfu key with
  | none =>
      rw [hfind] at hfound
      have hmiss : ¬manager.lfu.Caches key := fun hcaches => by simpa using hfound.2 hcaches
      refine ⟨manager, .code (-2), by simp [cacheStep, kvsCacheDel, hpos.ne', hpolicy, hfind],
        ⟨hpolicy, hpos, hsound, hcapacity, by simpa [noteUsage] using htracked⟩,
        fun hcaches => absurd hcaches hmiss, fun _ => rfl,
        fun other => ⟨fun hcaches => ⟨hcaches, ?_⟩, And.left⟩⟩
      rintro rfl
      exact hmiss hcaches
  | some idx =>
      obtain ⟨hidx, node, hnode, hkey⟩ := lfuFind_eq_some hfind
      obtain ⟨lfu, hdrop, hlfu, -, hsame, hperm⟩ := lfuDrop_perm hsound hidx hnode
      have hbefore := htracked.perm hperm
      have hrest := hbefore.tail_ne hkey
      refine ⟨{ manager with lfu := lfu }, .code 0,
        by simp [cacheStep, kvsCacheDel, hpos.ne', hpolicy, hfind, hdrop],
        ⟨hpolicy, hpos, hlfu, hsame.trans hcapacity, ?_⟩, fun _ => rfl,
        fun hmiss => absurd ⟨idx, node, hidx, hnode, hkey⟩ hmiss, fun other => ?_⟩
      · simp only [noteUsage, if_true]
        exact hbefore.tail.forget hrest
      · rw [caches_of_perm hperm hkey other, LFUCache.caches_iff]
        constructor
        · rintro ⟨member, hmember, hother⟩
          refine ⟨.inr ⟨member, hmember, hother⟩, ?_⟩
          rintro rfl
          exact hrest member hmember hother
        · rintro ⟨heq | hmember, hne⟩
          · exact absurd heq hne
          · exact hmember

/-- What each admitted call does. -/
theorem LfuTracked.step (hkept : LfuTracked manager usage) {call : CacheCall}
    (hmissed : AddsMissed manager call) (hmemory : call.HasMemory) :
    ∃ final answer, cacheStep manager call = some (final, answer) ∧
      LfuTracked final (noteUsage usage call answer) ∧
      LfuServes manager usage call final answer := by
  cases call with
  | get key =>
      cases key with
      | none => exact ⟨manager, .value none, rfl, hkept, rfl, rfl⟩
      | some key => exact hkept.get key
  | add alloc key value =>
      obtain rfl : alloc = allocOk := hmemory
      exact hkept.add hmissed value
  | del key =>
      cases key with
      | none => exact ⟨manager, .code (-1), rfl, hkept, rfl, rfl⟩
      | some key => exact hkept.del key

end Step

/-! ## Runs -/

theorem LfuTracked.holds {manager : CacheManager F} (hkept : LfuTracked manager usage) :
    manager.lfu.Holds usage := by
  obtain ⟨-, -, hsound, -, htracked⟩ := hkept
  refine ⟨hsound.size_le, fun idx hidx => ?_, fun i j node other hi hj hnode hother heq => ?_⟩
  · obtain ⟨node, hnode⟩ := hsound.filled idx hidx
    obtain ⟨key, value, hkey, hvalue, husage⟩ :=
      htracked.noted node (LFUCache.mem_residents.2 ⟨idx, hidx, hnode⟩)
    exact ⟨node, key, value, hnode, hkey, hvalue, husage⟩
  · by_contra hne
    have hbefore := htracked.perm (fillFromEnd_perm hsound.filled hi hnode).2
    -- the second cell is still there after the first one was taken out
    have hmem : other ∈ (fillFromEnd manager.lfu i).residents := by
      have hiLast := hi.2
      have hjLast := hj.2
      rw [LFUCache.mem_residents]
      by_cases hlast : j = manager.lfu.size
      · refine ⟨i, ⟨hi.1, ?_⟩, ?_⟩
        · simp only [fillFromEnd]
          omega
        · simp [fillFromEnd, ← hlast, hother]
      · refine ⟨j, ⟨hj.1, ?_⟩, ?_⟩
        · simp only [fillFromEnd]
          omega
        · simp [fillFromEnd, Function.update_of_ne (Ne.symm hne), hother]
    exact (pairwise_cons.1 hbefore.distinct).1 other hmem heq

theorem lfuTracked_under [CFloat F] (maxItems : ℤ) :
    LfuTracked (CacheManager.under F .lfu maxItems) fun _ => none where
  policy_eq := rfl
  maxItems_pos := (kvsCacheInit_valid (F := F) maxItems).maxItems_pos
  sound := (lfuInit_valid _).sound
  capacity_eq := rfl
  tracked := ⟨fun _ hnode => absurd hnode not_mem_nil, Pairwise.nil⟩

/-- In every run in which insertions follow a miss, the heap holds what the client noted,
each key in one cell; and from every state so reached, each further call serves the client
as it should and changes the set of cached keys by that key alone, apart from one eviction
when the heap was full. -/
theorem lfu_entries_kept [CFloat F] (maxItems : ℤ) (calls : List CacheCall)
    (hmissed : Along cacheStep AddsMissed (CacheManager.under F .lfu maxItems) calls)
    (hmemory : ∀ call ∈ calls, call.HasMemory) :
    ∃ final answers,
      run cacheStep (CacheManager.under F .lfu maxItems) calls = some (final, answers) ∧
      final.lfu.Holds (observed noteUsage (fun _ => none) calls answers) ∧
      ∀ call, AddsMissed final call → call.HasMemory → ∃ after answer,
        cacheStep final call = some (after, answer) ∧
        LfuServes final (observed noteUsage (fun _ => none) calls answers) call after answer := by
  have hstep : ∀ (manager : CacheManager F) usage call, LfuTracked manager usage →
      (AddsMissed manager call ∧ call.HasMemory) →
      ∃ after answer, cacheStep manager call = some (after, answer) ∧
        LfuTracked after (noteUsage usage call answer) := by
    intro manager usage call hkept hadmitted
    obtain ⟨after, answer, hanswer, hafter, -⟩ := hkept.step hadmitted.1 hadmitted.2
    exact ⟨after, answer, hanswer, hafter⟩
  obtain ⟨final, answers, hrun, hfinal⟩ := run_observed hstep (lfuTracked_under maxItems)
    (hmissed.and_forall hmemory)
  refine ⟨final, answers, hrun, hfinal.holds, fun call hmissed hmemory => ?_⟩
  obtain ⟨after, answer, hanswer, -, hserves⟩ := hfinal.step hmissed hmemory
  exact ⟨after, answer, hanswer, hserves⟩

/-- Hits, an eviction and a deletion in a heap for two entries. -/
def twoEntryRun : List CacheCall :=
  [.get (some (lit "a")), .add allocOk (lit "a") (lit "1"), .get (some (lit "a")),
    .add allocOk (lit "b") (lit "2"), .add allocOk (lit "c") (lit "3"), .del (some (lit "a")),
    .get (some (lit "c")), .add allocOk (lit "a") (lit "4")]

theorem lfu_entries_kept_twoEntryRun :
    ∃ final answers,
      run cacheStep (CacheManager.under Float32 .lfu 2) twoEntryRun = some (final, answers) ∧
      final.lfu.Holds (observed noteUsage (fun _ => none) twoEntryRun answers) := by
  obtain ⟨final, answers, hrun, hholds, -⟩ := lfu_entries_kept (F := Float32) 2 twoEntryRun
    (by decide +kernel) (by simp [twoEntryRun, CacheCall.HasMemory])
  exact ⟨final, answers, hrun, hholds⟩

end LiteMultiKV.Cache
