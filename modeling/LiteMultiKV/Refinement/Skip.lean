import LiteMultiKV.Refinement.Engines

/-!
# Runs of the skip-list engine

The chains of a reachable skip list, and the engine as a finite map, for every outcome of
the coin flips.
-/

namespace LiteMultiKV.Refinement

open List LiteMultiKV.Chain CText Dictionary Families Memory Run
open LiteMultiKV.Skip (Coins KvsSkip forwardAt kvsSkipDel kvsSkipMod kvsSkipSet lowerLevel
  maxLevel randomLevel tall)

/-- The highest level of a node. -/
def nodeLevel (skip : KvsSkip) (node : ℕ) : ℕ :=
  (skip.node node).forward.length - 1

/-- The chains from the header, one for each level. -/
structure SkipChains (skip : KvsSkip) (chain : ℕ → List ℕ) : Prop where
  level_le : skip.level ≤ maxLevel
  linked : ∀ i ≤ maxLevel, Linked (forwardAt skip i) skip.header (chain i)
  sorted : ∀ i ≤ maxLevel, (chain i).Pairwise fun left right =>
    strcmp (skip.node left).key (skip.node right).key < 0
  nested : ∀ i < maxLevel, chain (i + 1) = (chain i).filter fun node => i < nodeLevel skip node
  highest : skip.level = 0 ∨ chain skip.level ≠ []
  above : ∀ i ≤ maxLevel, skip.level < i → chain i = []

/-- The level of the list is not too high. -/
def Tight (skip : KvsSkip) : Prop :=
  skip.level = 0 ∨ ∃ node, forwardAt skip skip.level skip.header = some (some node)

variable {skip after : KvsSkip} {key value : CStr} {coins : Coins} {code : ℤ}

theorem skipChains_of_shape {order : List ℕ} (hshape : Skip.Shape skip order)
    (htight : Tight skip) : SkipChains skip fun i => tall skip i order where
  level_le := hshape.level_le
  linked := hshape.linked
  sorted := fun i _ => (hshape.sorted.sublist (Skip.tall_sublist skip i order)).imp
    strcmp_neg_iff.2
  nested := by
    intro i _
    rw [tall, tall, filter_filter]
    apply filter_congr
    intro node _
    rw [nodeLevel, ← Bool.decide_and, decide_eq_decide]
    omega
  highest := by
    refine htight.imp id ?_
    rintro ⟨node, hfirst⟩ hempty
    have hread := (hshape.linked skip.level hshape.level_le).read_start
    rw [hempty, hfirst] at hread
    cases hread
  above := by
    intro i _ hi
    rw [tall, filter_eq_nil_iff]
    intro node hnode
    have hbound := hshape.bounded node hnode
    rw [decide_eq_true_eq]
    omega

/-! ## The level of the list -/

theorem lowerLevel_tight {level lowered : ℕ} (hlower : lowerLevel skip level = some lowered) :
    lowered = 0 ∨ ∃ node, forwardAt skip lowered skip.header = some (some node) := by
  induction level with
  | zero =>
      rw [lowerLevel, Option.some.injEq] at hlower
      exact .inl hlower.symm
  | succ level ih =>
      cases hread : forwardAt skip (level + 1) skip.header with
      | none => simp [lowerLevel, hread] at hlower
      | some target =>
          cases target with
          | none =>
              simp only [lowerLevel, hread, Option.bind_eq_bind, Option.bind_some] at hlower
              exact ih hlower
          | some node =>
              simp only [lowerLevel, hread, Option.bind_eq_bind, Option.bind_some,
                Option.pure_def, Option.some.injEq] at hlower
              exact .inr ⟨node, hlower ▸ hread⟩

/-- The new node is on the top level if the old top level was lower. -/
theorem tight_set (hvalid : Skip.Valid skip) (htight : Tight skip)
    (hset : kvsSkipSet allocOk coins skip (some key) (some value) = some (after, code)) :
    Tight after := by
  cases hpresent : denote (Skip.entries skip) key with
  | some pointer =>
      rw [Skip.set_present hvalid (by simp [hpresent]), Option.some.injEq, Prod.mk.injEq] at hset
      exact hset.1 ▸ htight
  | none =>
      obtain ⟨order, hshape⟩ := hvalid
      obtain ⟨front, back, expected, rfl, hexpected, hinserted, -⟩ :=
        Skip.set_inserted hshape hpresent coins value
      rw [hset, Option.some.injEq, Prod.mk.injEq] at hexpected
      obtain ⟨rfl, -⟩ := hexpected
      have hraised : after.level = max skip.level (randomLevel coins) :=
        hinserted.rewired.level
      have hheader : after.header = skip.header := hinserted.rewired.header
      have hnext : skip.header ≠ skip.next := hshape.ne_next mem_cons_self
      have hold : ∀ i, forwardAt (Skip.withNode skip (randomLevel coins) key value) i
          skip.header = forwardAt skip i skip.header := by
        intro i
        rw [forwardAt, Skip.withNode_node_of_ne hnext, forwardAt]
      refine .inr ?_
      rw [hheader, hinserted.forward, if_neg (by simp [hnext]), hraised, hold]
      split
      next => exact ⟨_, rfl⟩
      next hother =>
        by_cases hlow : skip.level < randomLevel coins + 1
        · -- the predecessor of the new node on its top level is not the header
          have hmax : max skip.level (randomLevel coins) = randomLevel coins := by omega
          rw [hmax] at hother ⊢
          have hread := (hshape.linked _ (Skip.randomLevel_le coins)).read_start
          rw [Skip.tall_append] at hread
          cases hfront : tall skip (randomLevel coins) front with
          | nil => exact absurd ⟨Nat.lt_succ_self _, by rw [hfront, lastOf_nil]⟩ hother
          | cons first rest =>
              rw [hfront, cons_append, head?_cons] at hread
              exact ⟨first, hread⟩
        · have hmax : max skip.level (randomLevel coins) = skip.level := by omega
          rw [hmax]
          exact htight.resolve_left (by omega)

theorem tight_mod (htight : Tight skip)
    (hmod : kvsSkipMod allocOk skip (some key) (some value) = some (after, code)) :
    Tight after := by
  simp only [kvsSkipMod, Option.bind_eq_bind, Option.bind_eq_some_iff, Prod.exists] at hmod
  obtain ⟨last, update, -, found, -, hresult⟩ := hmod
  cases found with
  | none =>
      rw [Option.pure_def, Option.some.injEq, Prod.mk.injEq] at hresult
      exact hresult.1 ▸ htight
  | some node =>
      simp only [allocOk_apply, if_true, Option.pure_def, Option.some.injEq,
        Prod.mk.injEq] at hresult
      obtain ⟨rfl, -⟩ := hresult
      refine htight.imp id ?_
      rintro ⟨first, hfirst⟩
      exact ⟨first, by rwa [forwardAt, Skip.forward_setValue]⟩

theorem tight_del (htight : Tight skip)
    (hdel : kvsSkipDel skip (some key) = some (after, code)) : Tight after := by
  simp only [kvsSkipDel, Option.bind_eq_bind, Option.bind_eq_some_iff, Prod.exists] at hdel
  obtain ⟨last, update, -, found, -, hresult⟩ := hdel
  cases found with
  | none =>
      rw [Option.pure_def, Option.some.injEq, Prod.mk.injEq] at hresult
      exact hresult.1 ▸ htight
  | some node =>
      simp only [Option.bind_eq_some_iff] at hresult
      obtain ⟨middle, -, lowered, hlower, hresult⟩ := hresult
      rw [Option.pure_def, Option.some.injEq, Prod.mk.injEq] at hresult
      obtain ⟨rfl, -⟩ := hresult
      have hlowered := lowerLevel_tight hlower
      exact hlowered

/-! ## Runs -/

variable {engines final : Engines} {input : CoinCall} {answer : Answer}

theorem familyStep_tight (hsound : Sound engines) (htight : Tight engines.skip)
    (hstep : familyStep .skip engines input = some (final, answer)) : Tight final.skip := by
  obtain ⟨coins, call⟩ := input
  cases call with
  | set key value =>
      simp only [familyStep, callStep, engineCall, engineSet, Option.map_eq_some_iff,
        Prod.mk.injEq, exists_exists_and_eq_and] at hstep
      obtain ⟨⟨skip, code⟩, hset, rfl, -⟩ := hstep
      exact tight_set (hsound.valid .skip) htight hset
  | get key =>
      simp only [familyStep, callStep, engineCall, Option.map_eq_some_iff,
        Prod.mk.injEq] at hstep
      obtain ⟨-, -, rfl, -⟩ := hstep
      exact htight
  | mod key value =>
      simp only [familyStep, callStep, engineCall, engineMod, Option.map_eq_some_iff,
        Prod.mk.injEq, exists_exists_and_eq_and] at hstep
      obtain ⟨⟨skip, code⟩, hmod, rfl, -⟩ := hstep
      exact tight_mod htight hmod
  | del key =>
      simp only [familyStep, callStep, engineCall, engineDel, Option.map_eq_some_iff,
        Prod.mk.injEq, exists_exists_and_eq_and] at hstep
      obtain ⟨⟨skip, code⟩, hdel, rfl, -⟩ := hstep
      exact tight_del htight hdel
  | exist key =>
      simp only [familyStep, callStep, engineCall, Option.map_eq_some_iff,
        Prod.mk.injEq] at hstep
      obtain ⟨-, -, rfl, -⟩ := hstep
      exact htight

/-- Whatever the coin flips, every run of calls is answered as by a finite map and ends
with nested ascending chains. -/
theorem skip_refines_map (inputs : List CoinCall) :
    ∃ texts engines answers chain, run mapStep emptyMap inputs = some (texts, answers) ∧
      run (familyStep .skip) Engines.create inputs = some (engines, answers) ∧
      SkipChains engines.skip chain := by
  have hstep : ∀ texts engines (input : CoinCall),
      Related .skip texts engines ∧ Tight engines.skip → True →
      ∃ after twinAfter output, mapStep texts input = some (after, output) ∧
        familyStep .skip engines input = some (twinAfter, output) ∧
        (Related .skip after twinAfter ∧ Tight twinAfter.skip) := by
    rintro texts engines input ⟨hrelated, htight⟩ -
    obtain ⟨after, twinAfter, output, hmap, hfamily, hafter⟩ :=
      hrelated.step input (fun hhash => by cases hhash) (fun harray => by cases harray)
    exact ⟨after, twinAfter, output, hmap, hfamily, hafter,
      familyStep_tight hrelated.sound htight hfamily⟩
  have halong : Along mapStep (fun _ _ => True) emptyMap inputs :=
    along_of_forall (fun _ _ _ => trivial) _
  obtain ⟨texts, engines, answers, hmap, hrun, hrelated, htight⟩ :=
    run_refines hstep ⟨related_create .skip, .inl rfl⟩ halong
  obtain ⟨order, hshape⟩ := hrelated.sound.valid .skip
  exact ⟨texts, engines, answers, _, hmap, hrun, skipChains_of_shape hshape htight⟩

end LiteMultiKV.Refinement
