import LiteMultiKV.Engine.Calls

/-!
# Engines and finite maps

A run of calls of one engine against the same run of a finite map.  Three engines
answer every call as the map does.  The array engine does so as long as it has a free
slot.
-/

namespace LiteMultiKV.Refinement

open List
open LiteMultiKV.Array (kvsArraySize)
open CText Dictionary Families Memory Run
open LiteMultiKV.Skip (Coins)

/-- A call, with the coin flips it sees. -/
structure CoinCall where
  coins : Coins
  call : Call

/-- A call of one engine, whose allocations succeed. -/
def familyStep (family : Family) (engines : Engines) (input : CoinCall) :
    Option (Engines × Answer) :=
  callStep engines ⟨family, input.coins, input.call⟩

/-- The same call of a finite map. -/
def mapStep (texts : Texts) (input : CoinCall) : Option (Texts × Answer) :=
  some (mapCall texts input.call)

def emptyMap : Texts :=
  fun _ => none

/-- The number of keys in a map. -/
noncomputable def live (texts : Texts) : ℕ :=
  {key | texts key ≠ none}.ncard

/-- A call that does not store a pair in a map of `kvsArraySize` or more keys. -/
def Roomy (texts : Texts) (input : CoinCall) : Prop :=
  ∀ key value, input.call = .set key value → live texts < kvsArraySize

/-- The engine is sound and holds the map. -/
structure Related (family : Family) (texts : Texts) (engines : Engines) : Prop where
  sound : Sound engines
  texts_eq : textHeld family engines = texts

variable {family : Family} {engines : Engines} {texts : Texts} {input : CoinCall}
variable {inputs : List CoinCall}

theorem related_create (family : Family) : Related family emptyMap Engines.create := by
  refine ⟨sound_create, ?_⟩
  funext key
  rw [textHeld, held, create_entries]
  rfl

/-- The entry list of an engine has one entry for each key of the map. -/
theorem Related.live_eq (hrelated : Related family texts engines) :
    live texts = (entries family engines).length := by
  obtain ⟨hsound, rfl⟩ := hrelated
  have hnodup : (entries family engines).keys.Nodup := hsound.nodupKeys family
  have hkeys : {key | textHeld family engines key ≠ none} =
      ((entries family engines).keys.toFinset : Set CStr) := by
    ext key
    rw [Set.mem_ofPred_eq, Ne, textHeld_eq_none_iff hsound, held, denote_eq_none_iff, not_not,
      Finset.mem_coe, mem_toFinset]
  rw [live, hkeys, Set.ncard_coe_finset, toFinset_card_of_nodup hnodup, keys, length_map]

/-- One call of an engine that has room. -/
theorem Related.step (hrelated : Related family texts engines) (input : CoinCall)
    (haddressable : Addressable family input.call.key)
    (hroom : family = .array → Roomy texts input) :
    ∃ after twinAfter output, mapStep texts input = some (after, output) ∧
      familyStep family engines input = some (twinAfter, output) ∧
      Related family after twinAfter := by
  have hlive := hrelated.live_eq
  obtain ⟨hsound, rfl⟩ := hrelated
  have hfull : ∀ key value, input.call = .set key value → ¬Full family engines := by
    rintro key value hcall ⟨rfl, hsize⟩
    have hless := hroom rfl key value hcall
    omega
  obtain ⟨after, hcall, hcontained, htexts⟩ :=
    engineCall_spec hsound haddressable hfull input.coins
  exact ⟨_, after, _, rfl, hcall, hcontained.sound, htexts⟩

/-- The array engine refuses to store a pair in a full table. -/
theorem Related.step_full (hrelated : Related .array texts engines)
    (hfull : ¬Roomy texts input) :
    familyStep .array engines input = some (engines, .code (-1)) := by
  obtain ⟨coins, call⟩ := input
  simp only [Roomy, not_forall, not_lt] at hfull
  obtain ⟨key, value, rfl, hsize⟩ := hfull
  rw [hrelated.live_eq] at hsize
  exact engineCall_full hrelated.sound ⟨rfl, hsize⟩ _ key value

/-- A run of an engine that always has room answers as the finite map. -/
theorem run_refines_map (family : Family) (inputs : List CoinCall)
    (haddressable : ∀ input ∈ inputs, Addressable family input.call.key)
    (hroom : family = .array → Along mapStep Roomy emptyMap inputs) :
    ∃ texts engines answers, run mapStep emptyMap inputs = some (texts, answers) ∧
      run (familyStep family) Engines.create inputs = some (engines, answers) ∧
      Related family texts engines := by
  have halong : Along mapStep (fun texts input => (family = .array → Roomy texts input) ∧
      Addressable family input.call.key) emptyMap inputs := by
    refine Along.and_forall ?_ haddressable
    by_cases hfamily : family = .array
    · exact (hroom hfamily).imp fun _ _ hroomy _ => hroomy
    · exact along_of_forall (fun _ _ _ hcontra => absurd hcontra hfamily) _
  exact run_refines (fun _ _ _ hrelated hcondition => hrelated.step _ hcondition.2 hcondition.1)
    (related_create family) halong

end LiteMultiKV.Refinement
