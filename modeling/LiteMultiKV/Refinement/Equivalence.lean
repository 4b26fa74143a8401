import LiteMultiKV.Refinement.Tables

/-!
# The four engines against each other

With short 7-bit keys the four engines give the same answers exactly as long as nothing is
set while `KVS_ARRAY_SIZE` keys are live.  The array engine tests its capacity before it
looks for the key, so a full table answers a `set` of a live key with an error, where the
others report that the key exists.
-/

namespace LiteMultiKV.Refinement

open List
open LiteMultiKV.Array (kvsArraySize)
open CText Families Memory Run

/-- The four engines give the same answers. -/
def EnginesAgree (inputs : List CoinCall) : Prop :=
  ∃ answers, ∀ family, ∃ engines,
    run (familyStep family) Engines.create inputs = some (engines, answers)

/-- The number of live keys after the call is within the capacity of the array. -/
def WithinCapacity (texts : Texts) (input : CoinCall) : Prop :=
  live (mapCall texts input.call).1 ≤ kvsArraySize

/-- Equal answers of the array and the red-black engine mean that the array always had
room. -/
theorem roomy_of_equal_answers {inputs : List CoinCall} {texts : Texts}
    {table tree tableAfter treeAfter : Engines} {answers : List Answer}
    (htable : Related .array texts table) (htree : Related .rbtree texts tree)
    (htableRun : run (familyStep .array) table inputs = some (tableAfter, answers))
    (htreeRun : run (familyStep .rbtree) tree inputs = some (treeAfter, answers)) :
    Along mapStep Roomy texts inputs := by
  induction inputs generalizing texts table tree answers with
  | nil => trivial
  | cons input inputs ih =>
      obtain ⟨table', answer, rest, htableStep, htableRest, rfl⟩ := run_eq_some_cons htableRun
      obtain ⟨tree', answer', rest', htreeStep, htreeRest, hanswers⟩ :=
        run_eq_some_cons htreeRun
      obtain ⟨rfl, rfl⟩ := List.cons.inj hanswers
      obtain ⟨after, treeExpected, output, hmap, htreeExpected, htreeRelated⟩ :=
        htree.step input (fun hhash => by cases hhash) (fun harray => by cases harray)
      rw [htreeStep, Option.some.injEq, Prod.mk.injEq] at htreeExpected
      obtain ⟨rfl, rfl⟩ := htreeExpected
      have hroom : Roomy texts input := by
        by_contra hfull
        rw [htable.step_full hfull, Option.some.injEq, Prod.mk.injEq] at htableStep
        obtain ⟨-, rfl⟩ := htableStep
        obtain ⟨coins, call⟩ := input
        simp only [Roomy, not_forall] at hfull
        obtain ⟨key, value, rfl, -⟩ := hfull
        simp only [mapStep, mapCall, Option.some.injEq] at hmap
        split at hmap <;> simp at hmap
      obtain ⟨after', tableExpected, output', hmap', htableExpected, htableRelated⟩ :=
        htable.step input (fun hhash => by cases hhash) fun _ => hroom
      rw [htableStep, Option.some.injEq, Prod.mk.injEq] at htableExpected
      obtain ⟨rfl, rfl⟩ := htableExpected
      rw [hmap, Option.some.injEq, Prod.mk.injEq] at hmap'
      obtain ⟨rfl, -⟩ := hmap'
      refine ⟨hroom, fun next answer hnext => ?_⟩
      rw [hmap, Option.some.injEq, Prod.mk.injEq] at hnext
      obtain ⟨rfl, -⟩ := hnext
      exact ih htableRelated htreeRelated htableRest htreeRest

theorem roomy_of_enginesAgree {inputs : List CoinCall} (hagree : EnginesAgree inputs) :
    Along mapStep Roomy emptyMap inputs := by
  obtain ⟨answers, hagree⟩ := hagree
  obtain ⟨table, htable⟩ := hagree .array
  obtain ⟨tree, htree⟩ := hagree .rbtree
  exact roomy_of_equal_answers (related_create .array) (related_create .rbtree) htable htree

/-- The engines agree exactly on the runs that set nothing while `KVS_ARRAY_SIZE` or more
keys are live. -/
theorem engines_agree_iff (inputs : List CoinCall)
    (hkeys : ∀ input ∈ inputs, ShortAscii input.call.key) :
    EnginesAgree inputs ↔ Along mapStep Roomy emptyMap inputs := by
  refine ⟨roomy_of_enginesAgree, fun hroom => ?_⟩
  have hrun : ∀ family, ∃ texts engines answers,
      run mapStep emptyMap inputs = some (texts, answers) ∧
      run (familyStep family) Engines.create inputs = some (engines, answers) ∧
      Related family texts engines := fun family => run_refines_map family inputs
    (fun input hinput _ => Hash.exists_bucket_of_ascii (hkeys input hinput).1) fun _ => hroom
  obtain ⟨texts, -, answers, hmap, -, -⟩ := hrun .array
  refine ⟨answers, fun family => ?_⟩
  obtain ⟨texts', engines, answers', hmap', hfamily, -⟩ := hrun family
  rw [hmap, Option.some.injEq, Prod.mk.injEq] at hmap'
  exact ⟨engines, hmap'.2 ▸ hfamily⟩

theorem live_emptyMap : live emptyMap = 0 := by
  simp [live, emptyMap]

/-- A new key is one more. -/
theorem live_update {texts : Texts} {key : CStr} (hfinite : {key | texts key ≠ none}.Finite)
    (habsent : texts key = none) (value : CStr) :
    live (Function.update texts key (some value)) = live texts + 1 := by
  have hinsert : {other | Function.update texts key (some value) other ≠ none} =
      insert key {other | texts other ≠ none} := by
    ext other
    by_cases hother : other = key
    · simp [hother]
    · simp [hother]
  rw [live, hinsert, Set.ncard_insert_of_notMem (by simp [habsent]) hfinite, live]

/-- A pair is set twice, modified, read and deleted. -/
def onePair : List CoinCall :=
  [⟨fun _ => true, .set (lit "k") (lit "v")⟩, ⟨fun _ => false, .set (lit "k") (lit "w")⟩,
    ⟨fun _ => false, .mod (lit "k") (lit "x")⟩, ⟨fun _ => false, .get (lit "k")⟩,
    ⟨fun _ => false, .del (lit "k")⟩]

theorem engines_agree_iff_onePair : EnginesAgree onePair := by
  refine (engines_agree_iff _ (by decide +kernel)).2 ⟨fun _ _ _ => ?_, fun after output hstep =>
    ⟨fun _ _ _ => ?_, fun _ _ _ => along_of_forall (fun _ => by simp [Roomy]) _⟩⟩
  · rw [live_emptyMap]
    decide
  · obtain ⟨rfl, -⟩ := Prod.mk.inj (Option.some.inj hstep)
    rw [live_update (by simp [emptyMap]) rfl, live_emptyMap]
    decide

/-! ## A full table -/

/-- One `set` for each of the first `count` keys. -/
@[irreducible]
def fill (count : ℕ) : List CoinCall :=
  (range count).map fun index => ⟨fun _ => false, .set (unaryKey index) (lit "v")⟩

/-- A table is filled, and the first pair is set again. -/
def fillThenRepeat : List CoinCall :=
  fill kvsArraySize ++ [⟨fun _ => false, .set (unaryKey 0) (lit "v")⟩]

theorem unaryKey_shortAscii {index : ℕ} (hindex : index < kvsArraySize) :
    ShortAscii (unaryKey index) := by
  constructor
  · intro byte hbyte
    rw [unaryKey_bytes] at hbyte
    rw [eq_of_mem_replicate hbyte]
    decide
  · rw [strlen, unaryKey_bytes, length_replicate]
    rw [kvsArraySize] at hindex
    omega

/-- The map after the first `count` keys have been set. -/
def filled (count : ℕ) : Texts :=
  fun key => if ∃ index < count, key = unaryKey index then some (lit "v") else none

theorem filled_zero : filled 0 = emptyMap := by
  funext key
  simp [filled, emptyMap]

theorem filled_succ (count : ℕ) :
    filled (count + 1) = Function.update (filled count) (unaryKey count) (some (lit "v")) := by
  funext key
  by_cases hkey : key = unaryKey count
  · subst hkey
    rw [Function.update_self, filled, if_pos ⟨count, Nat.lt_succ_self _, rfl⟩]
  · rw [Function.update_of_ne hkey, filled, filled]
    congr 1
    refine propext ⟨?_, ?_⟩
    · rintro ⟨index, hindex, rfl⟩
      refine ⟨index, ?_, rfl⟩
      rcases Nat.lt_succ_iff_lt_or_eq.1 hindex with hlt | rfl
      · exact hlt
      · exact absurd rfl hkey
    · rintro ⟨index, hindex, rfl⟩
      exact ⟨index, Nat.lt_succ_of_lt hindex, rfl⟩

theorem filled_absent (count : ℕ) : filled count (unaryKey count) = none := by
  rw [filled, if_neg]
  rintro ⟨index, hindex, heq⟩
  rw [unaryKey_injective heq] at hindex
  exact lt_irrefl _ hindex

theorem live_filled (count : ℕ) :
    {key | filled count key ≠ none}.Finite ∧ live (filled count) = count := by
  induction count with
  | zero =>
      rw [filled_zero, live_emptyMap]
      simp [emptyMap]
  | succ count ih =>
      rw [filled_succ]
      refine ⟨(ih.1.insert (unaryKey count)).subset ?_, ?_⟩
      · intro key hkey
        by_cases heq : key = unaryKey count
        · exact .inl heq
        · rw [Set.mem_ofPred_eq, Function.update_of_ne heq] at hkey
          exact .inr hkey
      · rw [live_update ih.1 (filled_absent count), ih.2]

/-- Filling takes the map through all counts. -/
theorem run_fill (count : ℕ) :
    (∃ answers, run mapStep emptyMap (fill count) = some (filled count, answers)) ∧
      (count ≤ kvsArraySize → Along mapStep WithinCapacity emptyMap (fill count)) := by
  induction count with
  | zero =>
      rw [filled_zero, fill]
      exact ⟨⟨[], rfl⟩, fun _ => trivial⟩
  | succ count ih =>
      obtain ⟨⟨answers, hrun⟩, halong⟩ := ih
      have hsplit : fill (count + 1) =
          fill count ++ [⟨fun _ => false, .set (unaryKey count) (lit "v")⟩] := by
        rw [fill, fill, range_succ, map_append, map_singleton]
      have hstep : mapCall (filled count) (.set (unaryKey count) (lit "v")) =
          (filled (count + 1), .code 0) := by
        rw [mapCall, if_pos (filled_absent count), ← filled_succ]
      rw [hsplit]
      constructor
      · rw [run_append hrun]
        simp [run, mapStep, hstep]
      · intro hcount
        refine (halong (by omega)).append hrun ⟨?_, fun _ _ _ => trivial⟩
        rw [WithinCapacity, hstep, (live_filled (count + 1)).2]
        exact hcount

/-- Setting the first key again after `count` keys. -/
theorem repeat_roomy_iff {count : ℕ} (hcount : 0 < count) (hsize : count ≤ kvsArraySize) :
    Along mapStep WithinCapacity emptyMap
        (fill count ++ [⟨fun _ => false, .set (unaryKey 0) (lit "v")⟩]) ∧
      (Along mapStep Roomy emptyMap
        (fill count ++ [⟨fun _ => false, .set (unaryKey 0) (lit "v")⟩]) →
          count < kvsArraySize) := by
  obtain ⟨⟨answers, hrun⟩, halong⟩ := run_fill count
  have hlive := (live_filled count).2
  have hpresent : filled count (unaryKey 0) ≠ none := by
    rw [filled, if_pos ⟨0, hcount, rfl⟩]
    simp
  refine ⟨(halong hsize).append hrun ⟨?_, fun _ _ _ => trivial⟩, fun hroomy => ?_⟩
  · rw [WithinCapacity, mapCall, if_neg hpresent, hlive]
    exact hsize
  · have hlast := (hroomy.of_append hrun).1 _ _ rfl
    rwa [hlive] at hlast

/-- A full array answers a `set` of a live key differently from the other engines. -/
theorem full_array_differs :
    (∀ input ∈ fillThenRepeat, ShortAscii input.call.key) ∧
      Along mapStep WithinCapacity emptyMap fillThenRepeat ∧ ¬EnginesAgree fillThenRepeat := by
  obtain ⟨hwithin, hroomy⟩ := repeat_roomy_iff (by decide) (Nat.le_refl kvsArraySize)
  rw [fillThenRepeat]
  refine ⟨fun input hinput => ?_, hwithin, fun hagree => ?_⟩
  · rcases mem_append.1 hinput with hfill | hlast
    · rw [fill] at hfill
      obtain ⟨index, hindex, rfl⟩ := mem_map.1 hfill
      exact unaryKey_shortAscii (mem_range.1 hindex)
    · rw [mem_singleton.1 hlast]
      exact unaryKey_shortAscii (by decide)
  · exact lt_irrefl _ (hroomy (roomy_of_enginesAgree hagree))

end LiteMultiKV.Refinement
