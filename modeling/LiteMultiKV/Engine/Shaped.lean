import LiteMultiKV.Engine.Failures

/-!
# Engines in which allocations have failed

A failed allocation may leave a key without a readable value, and the array engine may
then store the key a second time.  The searches of the other three engines still work.
This file says what a call finds and leaves when nothing is known of the allocations
before it.
-/

namespace LiteMultiKV.Families

open List LiteMultiKV.Array CText Dictionary LiteMultiKV.Hash Memory RbTree LiteMultiKV.Skip

/-- The invariants that no failed allocation breaks. -/
def Shaped (engines : Engines) : Prop :=
  ∀ family, family ≠ .array → ValidAt family engines

theorem Sound.shaped {engines : Engines} (hsound : Sound engines) : Shaped engines :=
  fun family _ => hsound.valid family

variable {chance : Chance} {family : Family} {engines after : Engines} {key : CStr}

/-! ## Reads -/

theorem get_shaped (hshaped : Shaped engines) (haddressable : Addressable family key) :
    engineGet family engines (some key) = some (toPtr (held family engines key)) := by
  by_cases hfamily : family = .array
  · subst hfamily
    exact congrArg some (Array.get_eq engines.array key)
  · exact get_valid (hshaped family hfamily) haddressable

/-- `exist` looks for a value, except in the tree, where it looks for a node. -/
def Unseen (family : Family) (engines : Engines) (key : CStr) : Prop :=
  held family engines key = none ∨ family ≠ .rbtree ∧ held family engines key = some .null

instance (family : Family) (engines : Engines) (key : CStr) :
    Decidable (Unseen family engines key) :=
  inferInstanceAs (Decidable (_ ∨ _ ∧ _))

theorem toPtr_eq_null_iff {pointer : Option StrPtr} :
    toPtr pointer = .null ↔ pointer = none ∨ pointer = some .null := by
  cases pointer <;> simp [toPtr]

theorem exist_shaped (hshaped : Shaped engines) (haddressable : Addressable family key) :
    engineExist family engines (some key) =
      some (if Unseen family engines key then 1 else 0) := by
  have hget := get_shaped hshaped haddressable
  cases family with
  | rbtree =>
      have hexist := RbTree.exist_eq (hshaped .rbtree (by simp)) key
      simpa [engineExist, Unseen, held, entries] using hexist
  | array =>
      simp only [engineGet, Option.some.injEq] at hget
      simp [engineExist, kvsArrayExist, hget, toPtr_eq_null_iff, Unseen]
  | hash =>
      simp only [engineGet] at hget
      simp [engineExist, kvsHashExist, hget, toPtr_eq_null_iff, Unseen]
  | skip =>
      simp only [engineGet] at hget
      simp [engineExist, kvsSkipExist, hget, toPtr_eq_null_iff, Unseen]

/-! ## Writes -/

theorem Shaped.update (hshaped : Shaped engines) (hconfined : Confined family engines after) :
    Shaped after := by
  intro other hother
  by_cases hsame : other = family
  · exact hsame ▸ hconfined.valid
  · exact (hconfined.others other hsame).validAt (hshaped other hother)

theorem Shaped.with_array (hshaped : Shaped engines) (inst : KvsArray) :
    Shaped { engines with array := inst } :=
  fun other hother => (agree_with_array engines inst other hother).validAt (hshaped other hother)

/-- A deletion finds a key that is held and leaves everything alone for another one. -/
theorem del_shaped (hshaped : Shaped engines) (haddressable : Addressable family key) :
    ∃ after, engineDel family engines (some key) =
        some (after, if held family engines key = none then 1 else 0) ∧ Shaped after ∧
      (held family engines key = none → after = engines) := by
  by_cases hfamily : family = .array
  · subst hfamily
    cases hheld : held .array engines key with
    | none =>
        exact ⟨engines, by simp [engineDel, Array.del_absent hheld], hshaped, fun _ => rfl⟩
    | some old =>
        have hslot : firstSlot engines.array (Item.holds · key) ≠ none := by
          intro hnone
          have hdenote := Array.denote_entries engines.array key
          rw [hnone] at hdenote
          exact absurd (hheld.symm.trans hdenote) (by simp)
        obtain ⟨slot, hslot⟩ := Option.ne_none_iff_exists'.1 hslot
        refine ⟨{ engines with array := (kvsArrayDel engines.array (some key)).1 }, ?_,
          hshaped.with_array _, by simp⟩
        simp [engineDel, kvsArrayDel, hslot]
  · have hvalid := hshaped family hfamily
    cases hheld : held family engines key with
    | none => exact ⟨engines, del_absent hvalid haddressable hheld, hshaped, fun _ => rfl⟩
    | some old =>
        obtain ⟨after, hdel, hconfined, -⟩ := del_held hvalid haddressable hheld
        exact ⟨after, hdel, hshaped.update hconfined, by simp⟩

theorem mod_shaped (hshaped : Shaped engines) (haddressable : Addressable family key)
    (chance : Chance) (value : CStr) :
    ∃ after code, engineMod chance family engines (some key) (some value) =
      some (after, code) ∧ Shaped after := by
  by_cases hfamily : family = .array
  · subst hfamily
    exact ⟨_, _, rfl, hshaped.with_array _⟩
  · have hvalid := hshaped family hfamily
    cases hheld : held family engines key with
    | none => exact ⟨engines, 1, mod_absent hvalid haddressable hheld chance value, hshaped⟩
    | some old =>
        obtain ⟨after, hmod, hconfined, -⟩ := mod_held hvalid haddressable hheld chance value
        exact ⟨after, _, hmod, hshaped.update hconfined⟩

/-- The hash engine uses what it could not allocate, so its insertion may not return. -/
theorem set_shaped (hshaped : Shaped engines) (haddressable : Addressable family key)
    {value : CStr} {code : ℤ}
    (hset : engineSet chance family engines (some key) (some value) = some (after, code)) :
    Shaped after := by
  cases family with
  | array =>
      simp only [engineSet, Option.some.injEq, Prod.mk.injEq] at hset
      exact hset.1 ▸ hshaped.with_array _
  | rbtree =>
      obtain ⟨inst, code, hinsert, hinst⟩ :=
        RbTree.set_valid (hshaped .rbtree (by simp)) chance.alloc key value
      simp only [engineSet, hinsert, Option.map_some, Option.some.injEq, Prod.mk.injEq] at hset
      rw [← hset.1]
      exact hshaped.update (confined_rbtree hinst)
  | hash =>
      obtain ⟨index, hbucket⟩ := haddressable rfl
      simp only [engineSet, Option.map_eq_some_iff, Prod.mk.injEq] at hset
      obtain ⟨⟨inst, code⟩, hinsert, rfl, -⟩ := hset
      have hinst := Hash.set_valid (hshaped .hash (by simp)) hbucket hinsert
      exact hshaped.update (confined_hash hinst)
  | skip =>
      obtain ⟨inst, code, hinsert, hinst⟩ :=
        Skip.set_valid (hshaped .skip (by simp)) chance.alloc chance.coins key value
      simp only [engineSet, hinsert, Option.map_some, Option.some.injEq, Prod.mk.injEq] at hset
      rw [← hset.1]
      exact hshaped.update (confined_skip hinst)

/-- No engine returns from a call with a key that it cannot place. -/
theorem engineCall_unplaced (chance : Chance) (engines : Engines) (call : Call)
    (hunplaced : ¬Addressable family call.key) :
    engineCall chance family engines call = none := by
  by_contra hsome
  obtain ⟨⟨after, answer⟩, hcall⟩ := Option.ne_none_iff_exists'.1 hsome
  exact hunplaced (addressable_of_engineCall hcall)

/-- A call that returns keeps the shape of the engines, whatever allocations fail. -/
theorem shaped_of_engineCall (hshaped : Shaped engines) {call : Call} {answer : Answer}
    (hcall : engineCall chance family engines call = some (after, answer)) : Shaped after := by
  have haddressable := addressable_of_engineCall hcall
  cases call with
  | set key value =>
      simp only [engineCall, Option.map_eq_some_iff, Prod.mk.injEq] at hcall
      obtain ⟨⟨result, code⟩, hset, rfl, -⟩ := hcall
      exact set_shaped hshaped haddressable hset
  | mod key value =>
      replace haddressable : Addressable family key := haddressable
      obtain ⟨expected, code, hmod, hexpected⟩ := mod_shaped hshaped haddressable chance value
      simp only [engineCall, hmod, Option.map_some, Option.some.injEq, Prod.mk.injEq] at hcall
      exact hcall.1 ▸ hexpected
  | del key =>
      replace haddressable : Addressable family key := haddressable
      obtain ⟨expected, hdel, hexpected, -⟩ := del_shaped hshaped haddressable
      simp only [engineCall, hdel, Option.map_some, Option.some.injEq, Prod.mk.injEq] at hcall
      exact hcall.1 ▸ hexpected
  | get =>
      simp only [engineCall, Option.map_eq_some_iff, Prod.mk.injEq] at hcall
      obtain ⟨_, -, rfl, -⟩ := hcall
      exact hshaped
  | exist =>
      simp only [engineCall, Option.map_eq_some_iff, Prod.mk.injEq] at hcall
      obtain ⟨_, -, rfl, -⟩ := hcall
      exact hshaped

end LiteMultiKV.Families
