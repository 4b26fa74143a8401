import LiteMultiKV.Engine.Array
import LiteMultiKV.Engine.Hash
import LiteMultiKV.Engine.RbTreeMap
import LiteMultiKV.Engine.SkipMap

/-!
# The four key-value engines behind one interface

The dispatcher calls the same five operations on one of four global engines.
This file names the engine of a command family and states, once for all
families, what an operation does to the dictionary of that engine.
-/

namespace LiteMultiKV.Families

open List LiteMultiKV.Array CText Dictionary LiteMultiKV.Hash Memory RbTree LiteMultiKV.Skip

inductive Family where
  | array
  | rbtree
  | hash
  | skip
  deriving DecidableEq

/-- `global_array`, `global_rbtree`, `global_hash` and `global_skip`. -/
structure Engines where
  array : KvsArray
  rbtree : KvsRbtree
  hash : KvsHash
  skip : KvsSkip

def Engines.create : Engines where
  array := kvsArrayCreate
  rbtree := kvsRbtreeCreate
  hash := kvsHashCreate
  skip := kvsSkipCreate

/-- What the environment decides during one call: the outcomes of allocations
and coin flips. -/
structure Chance where
  alloc : Alloc
  coins : Coins

def engineSet (chance : Chance) (family : Family) (engines : Engines)
    (key value : Option CStr) : Option (Engines × ℤ) :=
  match family with
  | .array =>
      let result := kvsArraySet chance.alloc engines.array key value
      some ({ engines with array := result.1 }, result.2)
  | .rbtree => (kvsRbtreeSet chance.alloc engines.rbtree key value).map fun result =>
      ({ engines with rbtree := result.1 }, result.2)
  | .hash => (kvsHashSet chance.alloc engines.hash key value).map fun result =>
      ({ engines with hash := result.1 }, result.2)
  | .skip => (kvsSkipSet chance.alloc chance.coins engines.skip key value).map fun result =>
      ({ engines with skip := result.1 }, result.2)

def engineGet (family : Family) (engines : Engines) (key : Option CStr) : Option StrPtr :=
  match family with
  | .array => some (kvsArrayGet engines.array key)
  | .rbtree => kvsRbtreeGet engines.rbtree key
  | .hash => kvsHashGet engines.hash key
  | .skip => kvsSkipGet engines.skip key

def engineDel (family : Family) (engines : Engines) (key : Option CStr) :
    Option (Engines × ℤ) :=
  match family with
  | .array =>
      let result := kvsArrayDel engines.array key
      some ({ engines with array := result.1 }, result.2)
  | .rbtree => (kvsRbtreeDel engines.rbtree key).map fun result =>
      ({ engines with rbtree := result.1 }, result.2)
  | .hash => (kvsHashDel engines.hash key).map fun result =>
      ({ engines with hash := result.1 }, result.2)
  | .skip => (kvsSkipDel engines.skip key).map fun result =>
      ({ engines with skip := result.1 }, result.2)

def engineMod (chance : Chance) (family : Family) (engines : Engines)
    (key value : Option CStr) : Option (Engines × ℤ) :=
  match family with
  | .array =>
      let result := kvsArrayMod chance.alloc engines.array key value
      some ({ engines with array := result.1 }, result.2)
  | .rbtree => (kvsRbtreeMod chance.alloc engines.rbtree key value).map fun result =>
      ({ engines with rbtree := result.1 }, result.2)
  | .hash => (kvsHashMod chance.alloc engines.hash key value).map fun result =>
      ({ engines with hash := result.1 }, result.2)
  | .skip => (kvsSkipMod chance.alloc engines.skip key value).map fun result =>
      ({ engines with skip := result.1 }, result.2)

def engineExist (family : Family) (engines : Engines) (key : Option CStr) : Option ℤ :=
  match family with
  | .array => some (kvsArrayExist engines.array key)
  | .rbtree => kvsRbtreeExist engines.rbtree key
  | .hash => kvsHashExist engines.hash key
  | .skip => kvsSkipExist engines.skip key

/-! ## Dictionaries -/

/-- The live pairs of one engine. -/
def entries (family : Family) (engines : Engines) : Store :=
  match family with
  | .array => Array.entries engines.array
  | .rbtree => RbTree.entries engines.rbtree
  | .hash => Hash.entries engines.hash
  | .skip => Skip.entries engines.skip

/-- The value an engine holds for a key. -/
def held (family : Family) (engines : Engines) (key : CStr) : Option StrPtr :=
  denote (entries family engines) key

/-- The invariant of one engine. -/
def ValidAt (family : Family) (engines : Engines) : Prop :=
  match family with
  | .array => Array.Valid engines.array
  | .rbtree => RbTree.Valid engines.rbtree
  | .hash => Hash.Valid engines.hash
  | .skip => Skip.Valid engines.skip

/-- The invariants of the four engines, with every value readable. -/
structure Sound (engines : Engines) : Prop where
  valid : ∀ family, ValidAt family engines
  readable : ∀ family, Readable (entries family engines)

/-- The hash engine can place the key. -/
def Addressable (family : Family) (key : CStr) : Prop :=
  family = .hash → ∃ index, bucket key = some index

instance (family : Family) (key : CStr) : Decidable (Addressable family key) :=
  decidable_of_iff (family = .hash → (bucket key).isSome = true) (by
    simp [Addressable, Option.isSome_iff_exists])

/-- Only the array engine has a capacity. -/
def Full (family : Family) (engines : Engines) : Prop :=
  family = .array ∧ kvsArraySize ≤ (entries family engines).length

instance (family : Family) (engines : Engines) : Decidable (Full family engines) := by
  unfold Full
  infer_instance

/-- Two states have the same engine for a family. -/
def Agree (family : Family) (left right : Engines) : Prop :=
  match family with
  | .array => left.array = right.array
  | .rbtree => left.rbtree = right.rbtree
  | .hash => left.hash = right.hash
  | .skip => left.skip = right.skip

/-- An operation of one family that keeps its invariant and the engines of the other
families. -/
structure Confined (family : Family) (before after : Engines) : Prop where
  valid : ValidAt family after
  others : ∀ other, other ≠ family → Agree other after before

/-- An operation of one family that keeps the invariants and the engines of the
other families. -/
structure Contained (family : Family) (before after : Engines) : Prop where
  sound : Sound after
  others : ∀ other, other ≠ family → Agree other after before

theorem Agree.refl (family : Family) (engines : Engines) : Agree family engines engines := by
  cases family <;> rfl

theorem Agree.trans {family : Family} {first second third : Engines}
    (hfirst : Agree family first second) (hsecond : Agree family second third) :
    Agree family first third := by
  cases family <;> exact Eq.trans hfirst hsecond

theorem Agree.entries_eq {family : Family} {left right : Engines}
    (hagree : Agree family left right) : entries family left = entries family right := by
  cases family <;> simp_all only [Agree, entries]

theorem Agree.validAt {family : Family} {left right : Engines}
    (hagree : Agree family left right) (hvalid : ValidAt family right) :
    ValidAt family left := by
  cases family <;> simp_all only [Agree, ValidAt]

theorem create_entries (family : Family) : entries family Engines.create = [] := by
  cases family with
  | array => rfl
  | rbtree => exact RbTree.create_entries
  | hash => exact Hash.create_entries
  | skip => exact Skip.create_entries

theorem sound_create : Sound Engines.create where
  valid := by
    intro family
    cases family with
    | array => exact Array.create_valid
    | rbtree => exact RbTree.create_valid
    | hash => exact Hash.create_valid
    | skip => exact Skip.create_valid
  readable := by
    intro family item hitem
    rw [create_entries] at hitem
    cases hitem

theorem agree_with_array (engines : Engines) (inst : KvsArray) (other : Family)
    (hother : other ≠ .array) : Agree other { engines with array := inst } engines := by
  cases other <;> first | exact absurd rfl hother | rfl

theorem agree_with_rbtree (engines : Engines) (inst : KvsRbtree) (other : Family)
    (hother : other ≠ .rbtree) : Agree other { engines with rbtree := inst } engines := by
  cases other <;> first | exact absurd rfl hother | rfl

theorem agree_with_hash (engines : Engines) (inst : KvsHash) (other : Family)
    (hother : other ≠ .hash) : Agree other { engines with hash := inst } engines := by
  cases other <;> first | exact absurd rfl hother | rfl

theorem agree_with_skip (engines : Engines) (inst : KvsSkip) (other : Family)
    (hother : other ≠ .skip) : Agree other { engines with skip := inst } engines := by
  cases other <;> first | exact absurd rfl hother | rfl

theorem Contained.refl {engines : Engines} (hsound : Sound engines) (family : Family) :
    Contained family engines engines :=
  ⟨hsound, fun other _ => Agree.refl other engines⟩

variable {engines after : Engines} {family : Family} {key : CStr}

theorem confined_array {inst : KvsArray} (hinst : Array.Valid inst) :
    Confined .array engines { engines with array := inst } :=
  ⟨hinst, agree_with_array engines inst⟩

theorem confined_rbtree {inst : KvsRbtree} (hinst : RbTree.Valid inst) :
    Confined .rbtree engines { engines with rbtree := inst } :=
  ⟨hinst, agree_with_rbtree engines inst⟩

theorem confined_hash {inst : KvsHash} (hinst : Hash.Valid inst) :
    Confined .hash engines { engines with hash := inst } :=
  ⟨hinst, agree_with_hash engines inst⟩

theorem confined_skip {inst : KvsSkip} (hinst : Skip.Valid inst) :
    Confined .skip engines { engines with skip := inst } :=
  ⟨hinst, agree_with_skip engines inst⟩

/-- Only the engine of the family has to be checked after an operation. -/
theorem Sound.contained {old new : Store} (hsound : Sound engines)
    (hconfined : Confined family engines after) (hnew : Readable new)
    (hsplice : Splice old new (entries family engines) (entries family after)) :
    Contained family engines after := by
  refine ⟨⟨fun other => ?_, fun other => ?_⟩, hconfined.others⟩
  · by_cases hother : other = family
    · exact hother ▸ hconfined.valid
    · exact (hconfined.others other hother).validAt (hsound.valid other)
  · by_cases hother : other = family
    · subst hother
      exact Readable.of_splice hsplice (hsound.readable other) hnew
    · rw [(hconfined.others other hother).entries_eq]
      exact hsound.readable other

theorem Sound.nodupKeys (hsound : Sound engines) (family : Family) :
    (entries family engines).NodupKeys := by
  have hvalid := hsound.valid family
  cases family with
  | array => exact hvalid.nodup
  | rbtree => exact (RbTree.entries_sorted hvalid).nodupKeys
  | hash => exact hvalid.nodup
  | skip => exact (Skip.entries_sorted hvalid).nodupKeys

/-- `get` reads a valid engine, whatever its value pointers are. -/
theorem get_valid (hvalid : ValidAt family engines) (haddressable : Addressable family key) :
    engineGet family engines (some key) = some (toPtr (held family engines key)) := by
  cases family with
  | array => exact congrArg some (Array.get_eq engines.array key)
  | rbtree => exact RbTree.get_eq hvalid key
  | hash =>
      obtain ⟨index, hbucket⟩ := haddressable rfl
      exact Hash.get_eq hvalid hbucket
  | skip => exact Skip.get_eq hvalid key

theorem get_spec (hsound : Sound engines) (haddressable : Addressable family key) :
    engineGet family engines (some key) = some (toPtr (held family engines key)) :=
  get_valid (hsound.valid family) haddressable

/-- A key that is held has a text, since no allocation has failed. -/
theorem Sound.held_text (hsound : Sound engines) {pointer : StrPtr}
    (hheld : held family engines key = some pointer) : ∃ text, pointer = .text text :=
  hsound.readable family (entry key pointer) (of_mem_dlookup hheld)

theorem Sound.toPtr_eq_null_iff (hsound : Sound engines) (family : Family) (key : CStr) :
    toPtr (held family engines key) = .null ↔ held family engines key = none :=
  toPtr_denote_eq_null_iff (hsound.readable family) key

theorem exist_spec (hsound : Sound engines) (haddressable : Addressable family key) :
    engineExist family engines (some key) =
      some (if held family engines key = none then 1 else 0) := by
  have hget := get_spec hsound haddressable
  have hnull := hsound.toPtr_eq_null_iff family key
  have hvalid := hsound.valid family
  cases family with
  | array =>
      simp only [engineGet, Option.some.injEq] at hget
      simp [engineExist, kvsArrayExist, hget, hnull]
  | rbtree => exact RbTree.exist_eq hvalid key
  | hash =>
      simp only [engineGet] at hget
      simp [engineExist, kvsHashExist, hget, hnull]
  | skip =>
      simp only [engineGet] at hget
      simp [engineExist, kvsSkipExist, hget, hnull]

/-! ## Updates -/

theorem set_full (hsound : Sound engines) (hfull : Full family engines) (chance : Chance)
    (value : CStr) :
    engineSet chance family engines (some key) (some value) = some (engines, -1) := by
  obtain ⟨rfl, hlength⟩ := hfull
  have htotal : kvsArraySize ≤ engines.array.total := by
    rw [(hsound.valid .array).total_eq]
    exact hlength
  simp [engineSet, Array.set_full htotal]

theorem not_full_array (hsound : Sound engines) (hroom : ¬Full .array engines) :
    engines.array.total < kvsArraySize := by
  rw [(hsound.valid .array).total_eq]
  exact Nat.lt_of_not_le fun hle => hroom ⟨rfl, hle⟩

theorem set_present (hsound : Sound engines) (haddressable : Addressable family key)
    (hroom : ¬Full family engines) (hheld : held family engines key ≠ none)
    (chance : Chance) (value : CStr) :
    engineSet chance family engines (some key) (some value) = some (engines, 1) := by
  have hvalid := hsound.valid family
  cases family with
  | array =>
      have hget : kvsArrayGet engines.array (some key) ≠ .null := by
        have hspec := get_spec hsound haddressable
        simp only [engineGet, Option.some.injEq] at hspec
        rw [hspec, Ne, hsound.toPtr_eq_null_iff]
        exact hheld
      simp [engineSet, Array.set_present (not_full_array hsound hroom) hget]
  | rbtree => simp [engineSet, RbTree.set_present hvalid hheld]
  | hash =>
      obtain ⟨index, hbucket⟩ := haddressable rfl
      simp [engineSet, Hash.set_present hvalid hbucket hheld]
  | skip => simp [engineSet, Skip.set_present hvalid hheld]

theorem readable_text (key value : CStr) : Readable [entry key (.text value)] := by
  intro item hitem
  obtain rfl := mem_singleton.1 hitem
  exact ⟨value, rfl⟩

theorem set_absent (hsound : Sound engines) (haddressable : Addressable family key)
    (hroom : ¬Full family engines) (hheld : held family engines key = none)
    (coins : Coins) (value : CStr) :
    ∃ after, engineSet ⟨allocOk, coins⟩ family engines (some key) (some value) =
        some (after, 0) ∧ Contained family engines after ∧
      Splice [] [entry key (.text value)] (entries family engines) (entries family after) := by
  have hvalid := hsound.valid family
  have htext := readable_text key value
  cases family with
  | array =>
      have hget : kvsArrayGet engines.array (some key) = .null := by
        have hspec := get_spec hsound haddressable
        simp only [engineGet, Option.some.injEq] at hspec
        rw [hspec, hsound.toPtr_eq_null_iff]
        exact hheld
      obtain ⟨inst, hset, hinst, hsplice⟩ :=
        Array.set_absent hvalid (not_full_array hsound hroom) hget hheld value
      exact ⟨{ engines with array := inst }, by simp [engineSet, hset],
        hsound.contained (confined_array hinst) htext hsplice, hsplice⟩
  | rbtree =>
      obtain ⟨inst, hset, hinst, hsplice⟩ := RbTree.set_absent hvalid hheld value
      exact ⟨{ engines with rbtree := inst }, by simp [engineSet, hset],
        hsound.contained (confined_rbtree hinst) htext hsplice, hsplice⟩
  | hash =>
      obtain ⟨index, hbucket⟩ := haddressable rfl
      obtain ⟨inst, hset, hinst, hsplice⟩ := Hash.set_absent hvalid hbucket hheld value
      exact ⟨{ engines with hash := inst }, by simp [engineSet, hset],
        hsound.contained (confined_hash hinst) htext hsplice, hsplice⟩
  | skip =>
      obtain ⟨inst, hset, hinst, hsplice⟩ := Skip.set_absent hvalid hheld coins value
      exact ⟨{ engines with skip := inst }, by simp [engineSet, hset],
        hsound.contained (confined_skip hinst) htext hsplice, hsplice⟩

theorem mod_absent (hvalid : ValidAt family engines) (haddressable : Addressable family key)
    (hheld : held family engines key = none) (chance : Chance) (value : CStr) :
    engineMod chance family engines (some key) (some value) = some (engines, 1) := by
  cases family with
  | array => simp [engineMod, Array.mod_absent hheld]
  | rbtree => simp [engineMod, RbTree.mod_absent hvalid hheld]
  | hash =>
      obtain ⟨index, hbucket⟩ := haddressable rfl
      simp [engineMod, Hash.mod_absent hvalid hbucket hheld]
  | skip => simp [engineMod, Skip.mod_absent hvalid hheld]

/-- The value that a failed replacement leaves behind. -/
def leftover : Family → StrPtr
  | .array => .null
  | .rbtree => .null
  | .hash => .freed
  | .skip => .freed

/-- A replacement gives up the old value before it has a new one. -/
theorem mod_held (hvalid : ValidAt family engines) (haddressable : Addressable family key)
    {old : StrPtr} (hheld : held family engines key = some old) (chance : Chance)
    (value : CStr) :
    ∃ after, engineMod chance family engines (some key) (some value) =
        some (after, if chance.alloc 0 then 0 else -2) ∧ Confined family engines after ∧
      Splice [entry key old]
        [entry key (if chance.alloc 0 then .text value else leftover family)]
        (entries family engines) (entries family after) := by
  cases family with
  | array =>
      obtain ⟨inst, hmod, hinst, hsplice⟩ := Array.mod_held hvalid hheld chance.alloc value
      exact ⟨{ engines with array := inst }, by simp [engineMod, hmod],
        confined_array hinst, hsplice⟩
  | rbtree =>
      obtain ⟨inst, hmod, hinst, hsplice⟩ := RbTree.mod_held hvalid hheld chance.alloc value
      exact ⟨{ engines with rbtree := inst }, by simp [engineMod, hmod],
        confined_rbtree hinst, hsplice⟩
  | hash =>
      obtain ⟨index, hbucket⟩ := haddressable rfl
      obtain ⟨inst, hmod, hinst, hsplice⟩ :=
        Hash.mod_held hvalid hbucket hheld chance.alloc value
      exact ⟨{ engines with hash := inst }, by simp [engineMod, hmod],
        confined_hash hinst, hsplice⟩
  | skip =>
      obtain ⟨inst, hmod, hinst, hsplice⟩ := Skip.mod_held hvalid hheld chance.alloc value
      exact ⟨{ engines with skip := inst }, by simp [engineMod, hmod],
        confined_skip hinst, hsplice⟩

theorem mod_present (hsound : Sound engines) (haddressable : Addressable family key)
    {old : StrPtr} (hheld : held family engines key = some old) (coins : Coins)
    (value : CStr) :
    ∃ after, engineMod ⟨allocOk, coins⟩ family engines (some key) (some value) =
        some (after, 0) ∧ Contained family engines after ∧
      Splice [entry key old] [entry key (.text value)] (entries family engines)
        (entries family after) := by
  obtain ⟨after, hmod, hconfined, hsplice⟩ :=
    mod_held (hsound.valid family) haddressable hheld ⟨allocOk, coins⟩ value
  simp only [allocOk_apply, if_true] at hmod hsplice
  exact ⟨after, hmod, hsound.contained hconfined (readable_text key value) hsplice, hsplice⟩

theorem del_absent (hvalid : ValidAt family engines) (haddressable : Addressable family key)
    (hheld : held family engines key = none) :
    engineDel family engines (some key) = some (engines, 1) := by
  cases family with
  | array => simp [engineDel, Array.del_absent hheld]
  | rbtree => simp [engineDel, RbTree.del_absent hvalid hheld]
  | hash =>
      obtain ⟨index, hbucket⟩ := haddressable rfl
      simp [engineDel, Hash.del_absent hvalid hbucket hheld]
  | skip => simp [engineDel, Skip.del_absent hvalid hheld]

theorem del_held (hvalid : ValidAt family engines) (haddressable : Addressable family key)
    {old : StrPtr} (hheld : held family engines key = some old) :
    ∃ after, engineDel family engines (some key) = some (after, 0) ∧
      Confined family engines after ∧
      Splice [entry key old] [] (entries family engines) (entries family after) := by
  cases family with
  | array =>
      obtain ⟨inst, hdel, hinst, hsplice⟩ := Array.del_present hvalid hheld
      exact ⟨{ engines with array := inst }, by simp [engineDel, hdel],
        confined_array hinst, hsplice⟩
  | rbtree =>
      obtain ⟨inst, hdel, hinst, hsplice⟩ := RbTree.del_present hvalid hheld
      exact ⟨{ engines with rbtree := inst }, by simp [engineDel, hdel],
        confined_rbtree hinst, hsplice⟩
  | hash =>
      obtain ⟨index, hbucket⟩ := haddressable rfl
      obtain ⟨inst, hdel, hinst, hsplice⟩ := Hash.del_present hvalid hbucket hheld
      exact ⟨{ engines with hash := inst }, by simp [engineDel, hdel],
        confined_hash hinst, hsplice⟩
  | skip =>
      obtain ⟨inst, hdel, hinst, hsplice⟩ := Skip.del_present hvalid hheld
      exact ⟨{ engines with skip := inst }, by simp [engineDel, hdel],
        confined_skip hinst, hsplice⟩

theorem del_present (hsound : Sound engines) (haddressable : Addressable family key)
    {old : StrPtr} (hheld : held family engines key = some old) :
    ∃ after, engineDel family engines (some key) = some (after, 0) ∧
      Contained family engines after ∧
      Splice [entry key old] [] (entries family engines) (entries family after) := by
  obtain ⟨after, hdel, hconfined, hsplice⟩ :=
    del_held (hsound.valid family) haddressable hheld
  exact ⟨after, hdel, hsound.contained hconfined (by simp [Readable]) hsplice, hsplice⟩

/-- The array engine holds no more pairs than it has slots. -/
theorem Sound.length_array_le (hsound : Sound engines) :
    (entries .array engines).length ≤ kvsArraySize :=
  (Array.length_entries_le engines.array).trans (hsound.valid .array).idx_le

/-- The keys of a sound hash engine can be placed. -/
theorem Sound.addressable (hsound : Sound engines) (hheld : held family engines key ≠ none) :
    Addressable family key := by
  rintro rfl
  have hmem : key ∈ (entries .hash engines).keys := by
    by_contra hnot
    exact hheld (denote_eq_none_iff.2 hnot)
  obtain ⟨item, hitem, rfl⟩ := mem_map.1 hmem
  obtain ⟨index, -, hnode⟩ := mem_flatMap.1 hitem
  exact ⟨index, (hsound.valid .hash).placed index item hnode⟩

/-! ## Texts -/

/-- A dictionary of texts. -/
abbrev Texts := CStr → Option CStr

/-- The text behind a value pointer. -/
def textOf : StrPtr → Option CStr
  | .text value => some value
  | _ => none

/-- The text an engine holds for a key. -/
def textHeld (family : Family) (engines : Engines) (key : CStr) : Option CStr :=
  (held family engines key).bind textOf

section Texts

variable {family : Family} {engines after : Engines} {key : CStr}

theorem textHeld_eq_none_iff (hsound : Sound engines) :
    textHeld family engines key = none ↔ held family engines key = none := by
  cases hheld : held family engines key with
  | none => simp [textHeld, hheld]
  | some pointer =>
      obtain ⟨text, rfl⟩ := hsound.held_text hheld
      simp [textHeld, hheld, textOf]

theorem textHeld_eq_some_iff {value : CStr} :
    textHeld family engines key = some value ↔
      held family engines key = some (.text value) := by
  cases hheld : held family engines key with
  | none => simp [textHeld, hheld]
  | some pointer => cases pointer <;> simp [textHeld, hheld, textOf]

/-- The pointer an engine returns for the text it holds. -/
theorem toPtr_held (hsound : Sound engines) :
    toPtr (held family engines key) =
      match textHeld family engines key with
      | none => .null
      | some value => .text value := by
  cases htext : textHeld family engines key with
  | none => rw [(textHeld_eq_none_iff hsound).1 htext]; rfl
  | some value => rw [textHeld_eq_some_iff.1 htext]; rfl

theorem textHeld_of_update {new : Option StrPtr}
    (hheld : held family after = Function.update (held family engines) key new) :
    textHeld family after =
      Function.update (textHeld family engines) key (new.bind textOf) := by
  funext other
  by_cases hother : other = key
  · subst hother
    simp [textHeld, hheld]
  · simp [textHeld, hheld, Function.update_of_ne hother]

/-- A new pair is found under its own key, and everything else stays. -/
theorem set_new (hsound : Sound engines) (haddressable : Addressable family key)
    (hroom : ¬Full family engines) (hnew : textHeld family engines key = none) (coins : Coins)
    (value : CStr) :
    ∃ after, engineSet ⟨allocOk, coins⟩ family engines (some key) (some value) =
        some (after, 0) ∧ Contained family engines after ∧
      textHeld family after = Function.update (textHeld family engines) key (some value) ∧
      (entries family after).length = (entries family engines).length + 1 := by
  have hheld := (textHeld_eq_none_iff hsound).1 hnew
  obtain ⟨after, hset, hcontained, hsplice⟩ :=
    set_absent hsound haddressable hroom hheld coins value
  have hlength := hsplice.length_eq
  refine ⟨after, hset, hcontained, ?_, by simpa using hlength⟩
  exact textHeld_of_update (hsplice.denote_insert (hsound.nodupKeys family) hheld)

theorem Agree.textHeld_eq {other : Engines} (hagree : Agree family engines other) :
    textHeld family engines = textHeld family other := by
  funext key
  rw [textHeld, held, hagree.entries_eq, textHeld, held]

end Texts

end LiteMultiKV.Families
