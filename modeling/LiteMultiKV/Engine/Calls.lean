import LiteMultiKV.Core.Run
import LiteMultiKV.Engine.Families

/-!
# Engine calls as calls of a finite map

The five operations of the four engines, seen as calls with an answer.  With every
allocation successful, a call of an engine answers and changes its dictionary as the
call of a finite map does, except that the array engine refuses a new pair when it is
full.
-/

namespace LiteMultiKV.Families

open List CText Dictionary LiteMultiKV.Hash Memory Run LiteMultiKV.Skip

/-! ## Calls -/

/-- A call of an engine with a key, and a value where it takes one. -/
inductive Call where
  | set (key value : CStr)
  | get (key : CStr)
  | mod (key value : CStr)
  | del (key : CStr)
  | exist (key : CStr)
  deriving DecidableEq

def Call.key : Call → CStr
  | .set key _ => key
  | .get key => key
  | .mod key _ => key
  | .del key => key
  | .exist key => key

/-- A code, or the pointer that a `get` returns. -/
inductive Answer where
  | code (value : ℤ)
  | pointer (value : StrPtr)
  deriving DecidableEq

def engineCall (chance : Chance) (family : Family) (engines : Engines) :
    Call → Option (Engines × Answer)
  | .set key value => (engineSet chance family engines (some key) (some value)).map
      fun result => (result.1, .code result.2)
  | .get key => (engineGet family engines (some key)).map fun value =>
      (engines, .pointer value)
  | .mod key value => (engineMod chance family engines (some key) (some value)).map
      fun result => (result.1, .code result.2)
  | .del key => (engineDel family engines (some key)).map fun result =>
      (result.1, .code result.2)
  | .exist key => (engineExist family engines (some key)).map fun code =>
      (engines, .code code)

/-- The finite map that an engine implements: `set` never overwrites and `mod` never
inserts. -/
def mapCall (texts : Texts) : Call → Texts × Answer
  | .set key value =>
      if texts key = none then (Function.update texts key (some value), .code 0)
      else (texts, .code 1)
  | .get key => (texts, .pointer (((texts key).map StrPtr.text).getD .null))
  | .mod key value =>
      if texts key = none then (texts, .code 1)
      else (Function.update texts key (some value), .code 0)
  | .del key =>
      if texts key = none then (texts, .code 1)
      else (Function.update texts key none, .code 0)
  | .exist key => (texts, .code (if texts key = none then 1 else 0))

section Calls

variable {family : Family} {engines after : Engines} {call : Call}

/-- With room, a call is the call of the finite map. -/
theorem engineCall_spec (hsound : Sound engines) (haddressable : Addressable family call.key)
    (hroom : ∀ key value, call = .set key value → ¬Full family engines) (coins : Coins) :
    ∃ after, engineCall ⟨allocOk, coins⟩ family engines call =
        some (after, (mapCall (textHeld family engines) call).2) ∧
      Contained family engines after ∧
      textHeld family after = (mapCall (textHeld family engines) call).1 := by
  have hnodup := hsound.nodupKeys family
  have hrefl := Contained.refl hsound family
  cases call with
  | set key value =>
      replace haddressable : Addressable family key := haddressable
      have hroom := hroom key value rfl
      cases htext : textHeld family engines key with
      | none =>
          have hheld := (textHeld_eq_none_iff hsound).1 htext
          obtain ⟨after, hset, hcontained, hsplice⟩ :=
            set_absent hsound haddressable hroom hheld coins value
          refine ⟨after, by simp [engineCall, hset, mapCall, htext], hcontained, ?_⟩
          rw [textHeld_of_update (hsplice.denote_insert hnodup hheld)]
          simp [mapCall, htext, textOf]
      | some stored =>
          have hheld : held family engines key ≠ none := by
            rw [textHeld_eq_some_iff.1 htext]
            simp
          have hset := set_present hsound haddressable hroom hheld ⟨allocOk, coins⟩ value
          exact ⟨engines, by simp [engineCall, hset, mapCall, htext], hrefl,
            by simp [mapCall, htext]⟩
  | get key =>
      replace haddressable : Addressable family key := haddressable
      have hget := get_spec hsound haddressable
      simp only [toPtr_held hsound] at hget
      refine ⟨engines, ?_, hrefl, rfl⟩
      cases htext : textHeld family engines key <;>
        simp [engineCall, hget, mapCall, htext]
  | mod key value =>
      replace haddressable : Addressable family key := haddressable
      cases htext : textHeld family engines key with
      | none =>
          have hheld := (textHeld_eq_none_iff hsound).1 htext
          have hmod := mod_absent (hsound.valid family) haddressable hheld ⟨allocOk, coins⟩ value
          exact ⟨engines, by simp [engineCall, hmod, mapCall, htext], hrefl,
            by simp [mapCall, htext]⟩
      | some stored =>
          have hheld := textHeld_eq_some_iff.1 htext
          obtain ⟨after, hmod, hcontained, hsplice⟩ :=
            mod_present hsound haddressable hheld coins value
          refine ⟨after, by simp [engineCall, hmod, mapCall, htext], hcontained, ?_⟩
          rw [textHeld_of_update (hsplice.denote_replace hnodup)]
          simp [mapCall, htext, textOf]
  | del key =>
      replace haddressable : Addressable family key := haddressable
      cases htext : textHeld family engines key with
      | none =>
          have hheld := (textHeld_eq_none_iff hsound).1 htext
          have hdel := del_absent (hsound.valid family) haddressable hheld
          exact ⟨engines, by simp [engineCall, hdel, mapCall, htext], hrefl,
            by simp [mapCall, htext]⟩
      | some stored =>
          have hheld := textHeld_eq_some_iff.1 htext
          obtain ⟨after, hdel, hcontained, hsplice⟩ := del_present hsound haddressable hheld
          refine ⟨after, by simp [engineCall, hdel, mapCall, htext], hcontained, ?_⟩
          rw [textHeld_of_update (hsplice.denote_remove hnodup)]
          simp [mapCall, htext]
  | exist key =>
      replace haddressable : Addressable family key := haddressable
      have hexist := exist_spec hsound haddressable
      simp only [← textHeld_eq_none_iff hsound] at hexist
      exact ⟨engines, by simp [engineCall, hexist, mapCall], hrefl, rfl⟩

/-- A `set` of a full engine is refused. -/
theorem engineCall_full (hsound : Sound engines) (hfull : Full family engines)
    (chance : Chance) (key value : CStr) :
    engineCall chance family engines (.set key value) = some (engines, .code (-1)) := by
  simp [engineCall, set_full hsound hfull]

/-- A call that has a result has a key that the engine can place. -/
theorem addressable_of_engineCall {chance : Chance} {answer : Answer}
    (hcall : engineCall chance family engines call = some (after, answer)) :
    Addressable family call.key := by
  rintro rfl
  cases hbucket : bucket call.key with
  | some index => exact ⟨index, rfl⟩
  | none =>
      cases call <;> simp only [Call.key] at hbucket <;>
        simp [engineCall, engineSet, engineGet, engineMod, engineDel, engineExist, kvsHashSet,
          kvsHashGet, kvsHashMod, kvsHashDel, kvsHashExist, hbucket] at hcall

/-- A call has a result exactly when the engine can place its key. -/
theorem engineCall_isSome_iff (hsound : Sound engines) (family : Family) (coins : Coins)
    (call : Call) : (engineCall ⟨allocOk, coins⟩ family engines call).isSome ↔
      Addressable family call.key := by
  rw [Option.isSome_iff_exists]
  refine ⟨fun ⟨_, hcall⟩ => addressable_of_engineCall hcall, fun haddressable => ?_⟩
  by_cases hfull : (∃ key value, call = .set key value) ∧ Full family engines
  · obtain ⟨⟨key, value, rfl⟩, hfull⟩ := hfull
    exact ⟨_, engineCall_full hsound hfull _ key value⟩
  · obtain ⟨after, hcall, -⟩ := engineCall_spec hsound haddressable
      (fun key value heq hfull' => hfull ⟨⟨key, value, heq⟩, hfull'⟩) coins
    exact ⟨_, hcall⟩

/-- A call whose allocations succeed keeps the engines sound. -/
theorem sound_of_engineCall (hsound : Sound engines) {coins : Coins} {answer : Answer}
    (hcall : engineCall ⟨allocOk, coins⟩ family engines call = some (after, answer)) :
    Sound after := by
  by_cases hfull : (∃ key value, call = .set key value) ∧ Full family engines
  · obtain ⟨⟨key, value, rfl⟩, hfull⟩ := hfull
    rw [engineCall_full hsound hfull, Option.some.injEq, Prod.mk.injEq] at hcall
    exact hcall.1 ▸ hsound
  · obtain ⟨expected, hexpected, hcontained, -⟩ := engineCall_spec hsound
      (addressable_of_engineCall hcall)
      (fun key value heq hfull' => hfull ⟨⟨key, value, heq⟩, hfull'⟩) coins
    rw [hcall, Option.some.injEq, Prod.mk.injEq] at hexpected
    exact hexpected.1 ▸ hcontained.sound

theorem engineSet_isSome_iff (hsound : Sound engines) (family : Family) (coins : Coins)
    (key value : CStr) :
    (engineSet ⟨allocOk, coins⟩ family engines (some key) (some value)).isSome ↔
      Addressable family key := by
  have hcall := engineCall_isSome_iff hsound family coins (.set key value)
  rwa [engineCall, Option.isSome_map] at hcall

theorem sound_of_engineSet (hsound : Sound engines) {coins : Coins} {key value : CStr} {code : ℤ}
    (hset : engineSet ⟨allocOk, coins⟩ family engines (some key) (some value) =
      some (after, code)) : Sound after := by
  have hcall : engineCall ⟨allocOk, coins⟩ family engines (.set key value) =
      some (after, .code code) := by
    simp [engineCall, hset]
  exact sound_of_engineCall hsound hcall

end Calls

/-! ## Runs -/

/-- A call of one of the engines, with the coin flips it sees. -/
structure EngineInput where
  family : Family
  coins : Coins
  call : Call

/-- A call whose allocations succeed. -/
def callStep (engines : Engines) (input : EngineInput) : Option (Engines × Answer) :=
  engineCall ⟨allocOk, input.coins⟩ input.family engines input.call

/-- Every state that calls reach is sound. -/
theorem sound_of_run {inputs : List EngineInput} {engines : Engines} {answers : List Answer}
    (hrun : run callStep Engines.create inputs = some (engines, answers)) : Sound engines :=
  run_preserves (fun _ _ _ _ hsound hcall => sound_of_engineCall hsound hcall) sound_create hrun

end LiteMultiKV.Families
