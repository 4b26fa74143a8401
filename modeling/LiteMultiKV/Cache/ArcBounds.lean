import LiteMultiKV.Cache.ArcRuns

/-!
# The arithmetic of the adaptive cache

The four lists of the adaptive cache carry size fields, by which `arc_access`
divides when it moves the target.  This file shows that the fields agree with
the lists in every run, in whatever order the calls come, that the ghosts and
the target stay within their bounds, and that no division is by zero.
-/

namespace LiteMultiKV.Cache

open List CText Memory Numeric Run

variable {F : Type}

/-! ## Calls under the adaptive policy -/

/-- What a call does to the adaptive cache. -/
inductive ArcEffect (cache : ARCCache) : CacheCall → ARCCache → Prop
  | ignoredGet (key : Option CStr) : ArcEffect cache (.get key) cache
  | ignoredDel (key : Option CStr) : ArcEffect cache (.del key) cache
  | got (key : CStr) {after : ARCCache} {cached : Option CStr}
      (hget : arcGet cache key = some (after, cached)) : ArcEffect cache (.get (some key)) after
  | added {alloc : Alloc} {key value : CStr} {after : ARCCache}
      (hadd : arcAdd alloc cache key value = some after) :
      ArcEffect cache (.add alloc key value) after
  | deleted (key : CStr) : ArcEffect cache (.del (some key)) (arcDel cache key).1

/-- What a call leaves as it is. -/
structure SameBooks (before after : CacheManager F) : Prop where
  policy_eq : after.policy = before.policy
  maxItems_eq : after.maxItems = before.maxItems
  evictionCount_eq : after.evictionCount = before.evictionCount

variable {manager final : CacheManager F} {call : CacheCall} {answer : CacheAnswer}

theorem arcEffect_of_cacheStep (hpolicy : manager.policy = .arc)
    (hstep : cacheStep manager call = some (final, answer)) :
    ArcEffect manager.arc call final.arc ∧ SameBooks manager final := by
  cases call with
  | get key =>
      obtain ⟨⟨after, cached⟩, hget, heq⟩ := Option.map_eq_some_iff.1 hstep
      obtain ⟨rfl, -⟩ := Prod.mk.inj heq
      cases key with
      | none =>
          obtain ⟨rfl, -⟩ : manager = after ∧ none = cached := by simpa [kvsCacheGet] using hget
          exact ⟨.ignoredGet none, rfl, rfl, rfl⟩
      | some key =>
          by_cases hzero : manager.maxItems = 0
          · obtain ⟨rfl, -⟩ : manager = after ∧ none = cached := by
              simpa [kvsCacheGet, hzero] using hget
            exact ⟨.ignoredGet (some key), rfl, rfl, rfl⟩
          · simp only [kvsCacheGet, hzero, hpolicy, if_false, Option.bind_eq_bind] at hget
            obtain ⟨⟨arc, value⟩, harc, heq⟩ := Option.bind_eq_some_iff.1 hget
            simp only [Option.pure_def, Option.some.injEq, Prod.mk.injEq] at heq
            obtain ⟨rfl, -⟩ := heq
            cases value with
            | none => exact ⟨.got key harc, hpolicy.symm, rfl, rfl⟩
            | some text => exact ⟨.got key harc, hpolicy.symm, rfl, rfl⟩
  | add alloc key value =>
      obtain ⟨after, hadd, heq⟩ := Option.map_eq_some_iff.1 hstep
      obtain ⟨rfl, -⟩ := Prod.mk.inj heq
      simp only [kvsCacheLruAdd, hpolicy, Option.map_eq_some_iff] at hadd
      obtain ⟨arc, harc, rfl⟩ := hadd
      exact ⟨.added harc, hpolicy.symm, rfl, rfl⟩
  | del key =>
      obtain ⟨⟨after, code⟩, hdel, heq⟩ := Option.map_eq_some_iff.1 hstep
      obtain ⟨rfl, -⟩ := Prod.mk.inj heq
      cases key with
      | none =>
          obtain ⟨rfl, -⟩ : manager = after ∧ -1 = code := by simpa [kvsCacheDel] using hdel
          exact ⟨.ignoredDel none, rfl, rfl, rfl⟩
      | some key =>
          by_cases hzero : manager.maxItems = 0
          · obtain ⟨rfl, -⟩ : manager = after ∧ -1 = code := by
              simpa [kvsCacheDel, hzero] using hdel
            exact ⟨.ignoredDel (some key), rfl, rfl, rfl⟩
          · simp only [kvsCacheDel, hzero, hpolicy, if_false, Option.some.injEq,
              Prod.mk.injEq] at hdel
            obtain ⟨rfl, -⟩ := hdel
            exact ⟨.deleted key, hpolicy.symm, rfl, rfl⟩

/-! ## The arithmetic of the adaptive policy -/

/-- The sizes agree with the lists, and the ghosts and the target are bounded. -/
structure ARCCache.Steady (cache : ARCCache) : Prop where
  counted : cache.Counted
  b1_le : cache.b1.size ≤ cache.maxSize
  b2_le : cache.b2.size ≤ cache.maxSize
  target_nonneg : 0 ≤ cache.targetSize
  target_le : cache.targetSize ≤ cache.maxSize

variable {alloc : Alloc} {cache after : ARCCache} {key value : CStr}

theorem arcInit_steady {maxSize : ℕ} (hpos : 0 < maxSize) : (arcInit maxSize).Steady where
  counted := arcInit_counted hpos
  b1_le := by simp [arcInit, lruInit]
  b2_le := by simp [arcInit, lruInit]
  target_nonneg := Int.natCast_nonneg _
  target_le := by
    simp only [arcInit]
    omega

theorem arcDelta_pos {other own delta : ℤ} (hdelta : arcDelta other own = some delta) :
    1 ≤ delta := by
  unfold arcDelta at hdelta
  split at hdelta
  · split at hdelta
    · cases hdelta
    · rw [Option.some.injEq] at hdelta
      exact hdelta ▸ le_max_left _ _
  · rw [Option.some.injEq] at hdelta
    omega

/-- An access moves the target within its bounds and takes ghosts out only. -/
theorem arcAccess_bounds {hit : ArcHit} (haccess : arcAccess cache key = some (after, hit))
    (hnonneg : 0 ≤ cache.targetSize) (hle : cache.targetSize ≤ cache.maxSize) :
    after.maxSize = cache.maxSize ∧ 0 ≤ after.targetSize ∧
      after.targetSize ≤ after.maxSize ∧ after.b1.size ≤ cache.b1.size ∧
      after.b2.size ≤ cache.b2.size := by
  unfold arcAccess at haccess
  split at haccess
  case h_1 place _ =>
      simp only [Option.some.injEq, Prod.mk.injEq] at haccess
      obtain ⟨rfl, -⟩ := haccess
      exact ⟨rfl, hnonneg, hle, le_rfl, le_rfl⟩
  case h_2 =>
      split at haccess
      case h_1 place _ =>
          simp only [Option.some.injEq, Prod.mk.injEq] at haccess
          obtain ⟨rfl, -⟩ := haccess
          exact ⟨rfl, hnonneg, hle, le_rfl, le_rfl⟩
      case h_2 =>
          split at haccess
          case h_1 place _ =>
              obtain ⟨delta, hdelta, heq⟩ := Option.bind_eq_some_iff.1 haccess
              simp only [Option.pure_def, Option.some.injEq, Prod.mk.injEq] at heq
              obtain ⟨rfl, -⟩ := heq
              have hpos := arcDelta_pos hdelta
              refine ⟨rfl, le_min (by omega) (by omega), min_le_right _ _, ?_, le_rfl⟩
              simp only [lruRemove]
              omega
          case h_2 =>
              split at haccess
              case h_1 place _ =>
                  obtain ⟨delta, hdelta, heq⟩ := Option.bind_eq_some_iff.1 haccess
                  simp only [Option.pure_def, Option.some.injEq, Prod.mk.injEq] at heq
                  obtain ⟨rfl, -⟩ := heq
                  have hpos := arcDelta_pos hdelta
                  refine ⟨rfl, le_max_right _ _, max_le (by simp only; omega) (by simp only; omega),
                    le_rfl, ?_⟩
                  simp only [lruRemove]
                  omega
              case h_2 =>
                  simp only [Option.some.injEq, Prod.mk.injEq] at haccess
                  obtain ⟨rfl, -⟩ := haccess
                  exact ⟨rfl, hnonneg, hle, le_rfl, le_rfl⟩

theorem arcAccess_of_arcGet {cached : Option CStr}
    (hget : arcGet cache key = some (after, cached)) :
    ∃ hit, arcAccess cache key = some (after, hit) := by
  obtain ⟨⟨got, hit⟩, haccess, hrest⟩ := Option.bind_eq_some_iff.1 hget
  dsimp only at hrest
  split at hrest
  · simp only [Option.pure_def, Option.some.injEq, Prod.mk.injEq] at hrest
    exact ⟨hit, hrest.1 ▸ haccess⟩
  · simp only [Option.pure_def, Option.some.injEq, Prod.mk.injEq] at hrest
    exact ⟨hit, hrest.1 ▸ haccess⟩

/-- The trimming loop leaves as many ghosts as the cache may hold nodes. -/
theorem recordGhost_size_le {maxSize : ℕ} {victim : EvictNode} {before ghosts : LRUCache}
    (hsized : before.Sized) (hrecord : recordGhost alloc maxSize victim before = some ghosts) :
    ghosts.size ≤ maxSize := by
  obtain ⟨ghost, hghost, -⟩ := Option.bind_eq_some_iff.1 hrecord
  obtain ⟨same, hsame, hsizedAfter, htake⟩ := recordGhost_of_ghost maxSize hghost hsized
  obtain rfl : same = ghosts := by simpa [hrecord] using hsame.symm
  rw [hsizedAfter, htake, length_take]
  omega

theorem Eviction.steady {room : ARCCache} (heviction : Eviction alloc cache room)
    (hsteady : cache.Steady) : room.Steady := by
  have hcounted := (heviction.counted hsteady.counted).1
  obtain ⟨hbefore, hb1, hb2, hnonneg, hle⟩ := hsteady
  cases heviction with
  | room => exact ⟨hcounted, hb1, hb2, hnonneg, hle⟩
  | declined => exact ⟨hcounted, hb1, hb2, hnonneg, hle⟩
  | fromT1 victim ghosts _ _ _ hghosts =>
      exact ⟨hcounted, recordGhost_size_le hbefore.b1_sized hghosts, hb2, hnonneg, hle⟩
  | fromT2 victim ghosts _ _ hghosts =>
      exact ⟨hcounted, hb1, recordGhost_size_le hbefore.b2_sized hghosts, hnonneg, hle⟩

theorem arcDel_targetSize (cache : ARCCache) (key : CStr) :
    (arcDel cache key).1.targetSize = cache.targetSize := by
  unfold arcDel
  repeat' split
  all_goals rfl

theorem ArcEffect.steady (heffect : ArcEffect cache call after) (hsteady : cache.Steady) :
    after.Steady := by
  cases heffect with
  | ignoredGet => exact hsteady
  | ignoredDel => exact hsteady
  | got key hget =>
      obtain ⟨hit, haccess⟩ := arcAccess_of_arcGet hget
      obtain ⟨hmax, hnonneg, hle, hb1, hb2⟩ :=
        arcAccess_bounds haccess hsteady.target_nonneg hsteady.target_le
      exact ⟨(lookup_of_arcGet hget).counted hsteady.counted, hmax ▸ hb1.trans hsteady.b1_le,
        hmax ▸ hb2.trans hsteady.b2_le, hnonneg, hle⟩
  | added hadd =>
      have hcounted := (arcAdd_residentCount hsteady.counted hadd).1
      obtain ⟨room, -, named, -, heviction, -, -, rfl⟩ := insertion_of_arcAdd hadd
      obtain ⟨-, hb1, hb2, hnonneg, hle⟩ := heviction.steady hsteady
      exact ⟨hcounted, hb1, hb2, hnonneg, hle⟩
  | deleted key =>
      have hshrinks := arcDel_shrinks hsteady.counted key
      have hb1 := hshrinks.b1_sublist.length_le
      have hb2 := hshrinks.b2_sublist.length_le
      have hb1Size := hsteady.b1_le
      have hb2Size := hsteady.b2_le
      rw [hsteady.counted.b1_sized] at hb1Size
      rw [hsteady.counted.b2_sized] at hb2Size
      refine ⟨hshrinks.counted, ?_, ?_, ?_, ?_⟩
      · rw [hshrinks.counted.b1_sized, hshrinks.maxSize_eq]
        omega
      · rw [hshrinks.counted.b2_sized, hshrinks.maxSize_eq]
        omega
      · rw [arcDel_targetSize]
        exact hsteady.target_nonneg
      · rw [arcDel_targetSize, hshrinks.maxSize_eq]
        exact hsteady.target_le

/-- The property in terms of the fields: four sizes, three bounds, and an access that
divides by no empty list. -/
structure ARCCache.ArithmeticSafe (cache : ARCCache) : Prop where
  t1_size : cache.t1.size = cache.t1.nodes.length
  t2_size : cache.t2.size = cache.t2.nodes.length
  b1_size : cache.b1.size = cache.b1.nodes.length
  b2_size : cache.b2.size = cache.b2.nodes.length
  b1_le : cache.b1.size ≤ cache.maxSize
  b2_le : cache.b2.size ≤ cache.maxSize
  target_nonneg : 0 ≤ cache.targetSize
  target_le : cache.targetSize ≤ cache.maxSize
  b1_divisor : ∀ key, (lruFind cache.b1 key).isSome → cache.b1.size ≠ 0
  b2_divisor : ∀ key, (lruFind cache.b2 key).isSome → cache.b2.size ≠ 0
  access : ∀ key, (arcAccess cache key).isSome

theorem LRUCache.Sized.divisor {list : LRUCache} (hsized : list.Sized) (key : CStr)
    (hfound : (lruFind list key).isSome) : list.size ≠ 0 := by
  obtain ⟨place, hplace⟩ := Option.isSome_iff_exists.1 hfound
  exact (hsized.size_pos (findPlace_eq_some hplace).split).ne'

theorem ARCCache.Steady.arithmeticSafe (hsteady : cache.Steady) : cache.ArithmeticSafe := by
  obtain ⟨hcounted, hb1, hb2, hnonneg, hle⟩ := hsteady
  refine ⟨hcounted.t1_sized, hcounted.t2_sized, hcounted.b1_sized, hcounted.b2_sized, hb1, hb2,
    hnonneg, hle, hcounted.b1_sized.divisor, hcounted.b2_sized.divisor, fun key => ?_⟩
  obtain ⟨got, cached, hget⟩ := exists_arcGet hcounted key
  obtain ⟨hit, haccess⟩ := arcAccess_of_arcGet hget
  rw [haccess]
  rfl

/-! ## Runs -/

/-- The adaptive policy is active and its arithmetic is safe. -/
structure ArcSteady (manager : CacheManager F) : Prop where
  policy_eq : manager.policy = .arc
  maxItems_pos : 0 < manager.maxItems
  steady : manager.arc.Steady

theorem ArcSteady.step (hkept : ArcSteady manager)
    (hstep : cacheStep manager call = some (final, answer)) : ArcSteady final := by
  obtain ⟨heffect, hpolicy, hmax, -⟩ := arcEffect_of_cacheStep hkept.policy_eq hstep
  exact ⟨hpolicy.trans hkept.policy_eq, hmax ▸ hkept.maxItems_pos, heffect.steady hkept.steady⟩

/-- With memory at hand, every call has a result. -/
theorem ArcSteady.exists_step (hkept : ArcSteady manager)
    (halloc : ∀ alloc key value, call = .add alloc key value → alloc = allocOk) :
    ∃ final answer, cacheStep manager call = some (final, answer) := by
  obtain ⟨hpolicy, hpos, hsteady⟩ := hkept
  cases call with
  | get key =>
      cases key with
      | none => exact ⟨manager, _, rfl⟩
      | some key =>
          obtain ⟨got, cached, hget⟩ := exists_arcGet hsteady.counted key
          exact ⟨_, _, by simp [cacheStep, kvsCacheGet, hpos.ne', hpolicy, hget]; exact ⟨rfl, rfl⟩⟩
  | add alloc key value =>
      obtain rfl := halloc alloc key value rfl
      obtain ⟨after, hadd⟩ := exists_arcAdd hsteady.counted key value
      exact ⟨_, _, by simp [cacheStep, kvsCacheLruAdd, hpolicy, hadd]; exact ⟨rfl, rfl⟩⟩
  | del key =>
      cases key with
      | none => exact ⟨manager, _, rfl⟩
      | some key =>
          exact ⟨_, _, by simp [cacheStep, kvsCacheDel, hpos.ne', hpolicy]; exact ⟨rfl, rfl⟩⟩

/-- The arithmetic of the adaptive policy is safe in every state that a run of calls
reaches, in any order and whatever memory there is; while there is memory, every run has
a result. -/
theorem arc_arithmetic_safe [CFloat F] (maxItems : ℤ) (calls : List CacheCall) :
    Throughout cacheStep (fun manager => manager.arc.ArithmeticSafe)
        (CacheManager.under F .arc maxItems) calls ∧
      ((∀ alloc key value, .add alloc key value ∈ calls → alloc = allocOk) →
        ∃ final answers,
          run cacheStep (CacheManager.under F .arc maxItems) calls = some (final, answers)) := by
  have hpos := (kvsCacheInit_valid (F := F) maxItems).maxItems_pos
  have hstart : ArcSteady (CacheManager.under F .arc maxItems) :=
    ⟨rfl, hpos, arcInit_steady hpos⟩
  constructor
  · have hstep : ∀ (manager : CacheManager F) call after answer, ArcSteady manager →
        manager.arc.ArithmeticSafe → True → cacheStep manager call = some (after, answer) →
        ArcSteady after ∧ after.arc.ArithmeticSafe := by
      intro manager call after answer hkept _ _ hanswer
      exact ⟨hkept.step hanswer, (hkept.step hanswer).steady.arithmeticSafe⟩
    exact throughout_of_along hstep hstart hstart.steady.arithmeticSafe
      (along_of_forall (fun _ _ _ => trivial) _)
  · intro halloc
    have hstep : ∀ (manager : CacheManager F) call, ArcSteady manager →
        (∀ alloc key value, call = .add alloc key value → alloc = allocOk) →
        ∃ after answer, cacheStep manager call = some (after, answer) ∧ ArcSteady after ∧
          True := by
      intro manager call hkept halloc
      obtain ⟨after, answer, hanswer⟩ := hkept.exists_step halloc
      exact ⟨after, answer, hanswer, hkept.step hanswer, trivial⟩
    obtain ⟨⟨final, answers, hrun, -⟩, -⟩ := run_invariant ArcSteady hstep hstart
      (along_of_forall (by rintro - call hcall alloc key value rfl; exact halloc _ _ _ hcall) _)
    exact ⟨final, answers, hrun⟩

end LiteMultiKV.Cache
