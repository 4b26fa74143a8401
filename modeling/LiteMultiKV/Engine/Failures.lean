import LiteMultiKV.Engine.Calls

/-!
# Allocation failures

Every `kvs_malloc` and `kvs_strdup` of a call may fail.  The engines differ in what
they do then: some have already freed the old value, one uses the new node unchecked
and one has already raised its level.  This file decides, for any sequence of calls
and any pattern of failures, when each call with a negative code leaves the map of its
engine as it was and no call follows a failed allocation.
-/

namespace LiteMultiKV.Families

open List LiteMultiKV.Array CText Dictionary LiteMultiKV.Hash Memory RbTree Run LiteMultiKV.Skip

/-! ## Attempts -/

/-- An operation with its arguments, any of which may be missing. -/
inductive Attempt where
  | set (key value : Option CStr)
  | get (key : Option CStr)
  | mod (key value : Option CStr)
  | del (key : Option CStr)
  | exist (key : Option CStr)

def engineAttempt (chance : Chance) (family : Family) (engines : Engines) :
    Attempt → Option (Engines × Answer)
  | .set key value => (engineSet chance family engines key value).map fun result =>
      (result.1, .code result.2)
  | .get key => (engineGet family engines key).map fun value => (engines, .pointer value)
  | .mod key value => (engineMod chance family engines key value).map fun result =>
      (result.1, .code result.2)
  | .del key => (engineDel family engines key).map fun result => (result.1, .code result.2)
  | .exist key => (engineExist family engines key).map fun code => (engines, .code code)

/-- The call of an attempt that lacks no argument. -/
def Attempt.call : Attempt → Option Call
  | .set (some key) (some value) => some (.set key value)
  | .get (some key) => some (.get key)
  | .mod (some key) (some value) => some (.mod key value)
  | .del (some key) => some (.del key)
  | .exist (some key) => some (.exist key)
  | _ => none

/-- A negative code. -/
def Answer.Failed : Answer → Prop
  | .code value => value < 0
  | .pointer _ => False

/-- `get` and `exist` answer alike in both states. -/
def SameMap (family : Family) (before after : Engines) : Prop :=
  ∀ key, engineGet family after (some key) = engineGet family before (some key) ∧
    engineExist family after (some key) = engineExist family before (some key)

/-- Every allocation that inserts a pair succeeds. -/
def granted (alloc : Alloc) : Family → Bool
  | .array => alloc 0 && alloc 1
  | .rbtree => alloc 0 && alloc 1 && alloc 2
  | .hash => alloc 0 && alloc 1 && alloc 2
  | .skip => alloc 0 && alloc 1 && alloc 2 && alloc 3

/-- The failures that a call can take: an insertion into the hash engine needs all its
allocations, replacing a value needs the one for the new value, and the hash engine needs
a bucket for the key. -/
def Call.Spared (chance : Chance) (family : Family) (engines : Engines) : Call → Prop
  | .set key _ => Addressable family key ∧
      (family = .hash → held family engines key = none → granted chance.alloc family = true)
  | .mod key _ => Addressable family key ∧
      (held family engines key ≠ none → chance.alloc 0 = true)
  | call => Addressable family call.key

/-- Every engine but the hash engine checks that there is a value to replace with. -/
def Attempt.Spared (chance : Chance) (family : Family) (engines : Engines) : Attempt → Prop
  | .mod (some key) none =>
      family = .hash → Addressable family key ∧ held family engines key = none
  | attempt => ∀ call, attempt.call = some call → call.Spared chance family engines

section Attempts

variable {family : Family} {engines after : Engines} {chance : Chance} {key : CStr}

theorem SameMap.refl (family : Family) (engines : Engines) : SameMap family engines engines :=
  fun _ => ⟨rfl, rfl⟩

/-! ## Insertion -/

theorem engineSet_granted (hgranted : granted chance.alloc family = true) (engines : Engines)
    (key value : CStr) :
    engineSet chance family engines (some key) (some value) =
      engineSet ⟨allocOk, chance.coins⟩ family engines (some key) (some value) := by
  cases family with
  | array =>
      obtain ⟨hfirst, hsecond⟩ := Bool.and_eq_true_iff.1 hgranted
      simp [engineSet, kvsArraySet, hfirst, hsecond]
  | rbtree =>
      simp only [granted] at hgranted
      simp [engineSet, kvsRbtreeSet, hgranted]
  | hash =>
      simp only [granted] at hgranted
      simp [engineSet, kvsHashSet, hgranted]
  | skip =>
      simp only [granted] at hgranted
      simp [engineSet, kvsSkipSet, hgranted]

/-- Outside the hash engine a denied insertion fails and leaves the pairs alone. -/
theorem set_denied (hsound : Sound engines) (hfamily : family ≠ .hash)
    (hroom : ¬Full family engines) (hheld : held family engines key = none)
    (hdenied : granted chance.alloc family = false) (value : CStr) :
    ∃ after code, engineSet chance family engines (some key) (some value) =
        some (after, code) ∧ code < 0 ∧ Contained family engines after ∧
      entries family after = entries family engines := by
  have hvalid := hsound.valid family
  have hrefl := Contained.refl hsound family
  cases family with
  | array =>
      have hget : kvsArrayGet engines.array (some key) = .null := by
        have haddressable : Addressable .array key := fun hhash => by cases hhash
        have hspec := get_spec hsound haddressable
        simp only [engineGet, Option.some.injEq] at hspec
        rw [hspec, hsound.toPtr_eq_null_iff]
        exact hheld
      have hset := Array.set_denied (not_full_array hsound hroom) hget hdenied value
      exact ⟨engines, -2, by simp [engineSet, hset], by decide, hrefl, rfl⟩
  | rbtree =>
      have hset := RbTree.set_denied hvalid hheld hdenied value
      exact ⟨engines, -2, by simp [engineSet, hset], by decide, hrefl, rfl⟩
  | hash => exact absurd rfl hfamily
  | skip =>
      obtain ⟨inst, hset, hinst, hentries⟩ :=
        Skip.set_denied hvalid hheld hdenied chance.coins value
      have hsplice : Splice [] [] (entries .skip engines)
          (entries .skip { engines with skip := inst }) :=
        ⟨entries .skip engines, [], by simp, by
          rw [append_nil, append_nil]
          exact hentries⟩
      exact ⟨{ engines with skip := inst }, -1, by simp [engineSet, hset], by decide,
        hsound.contained (confined_skip hinst) (by simp [Readable]) hsplice,
        hentries⟩

/-- The hash engine follows the missing node. -/
theorem set_denied_hash (hsound : Sound engines) (haddressable : Addressable .hash key)
    (hheld : held .hash engines key = none) (hdenied : granted chance.alloc .hash = false)
    (value : CStr) : engineSet chance .hash engines (some key) (some value) = none := by
  obtain ⟨index, hbucket⟩ := haddressable rfl
  simp [engineSet, Hash.set_denied (hsound.valid .hash) hbucket hheld hdenied]

/-- Equal pairs are seen alike. -/
theorem sameMap_of_entries (hsound : Sound engines) (hafter : Sound after)
    (hfamily : family ≠ .hash) (hentries : entries family after = entries family engines) :
    SameMap family engines after := by
  intro key
  have haddressable : Addressable family key := fun hhash => absurd hhash hfamily
  rw [get_spec hafter haddressable, get_spec hsound haddressable, exist_spec hafter haddressable,
    exist_spec hsound haddressable, held, held, hentries]
  exact ⟨rfl, rfl⟩

/-! ## Replacement -/

theorem engineMod_granted (hgranted : chance.alloc 0 = true) (engines : Engines)
    (family : Family) (key value : CStr) :
    engineMod chance family engines (some key) (some value) =
      engineMod ⟨allocOk, chance.coins⟩ family engines (some key) (some value) := by
  cases family <;>
    simp [engineMod, kvsArrayMod, kvsRbtreeMod, kvsHashMod, kvsSkipMod, hgranted]

/-- A denied replacement has already lost the old value. -/
theorem mod_denied (hsound : Sound engines) (haddressable : Addressable family key)
    (hheld : held family engines key ≠ none) (hdenied : chance.alloc 0 = false)
    (value : CStr) :
    ∃ after, engineMod chance family engines (some key) (some value) = some (after, -2) ∧
      engineGet family after (some key) = some (leftover family) := by
  obtain ⟨old, hold⟩ := Option.ne_none_iff_exists'.1 hheld
  obtain ⟨after, hmod, hconfined, hsplice⟩ :=
    mod_held (hsound.valid family) haddressable hold chance value
  simp only [hdenied, Bool.false_eq_true, if_false] at hmod hsplice
  refine ⟨after, hmod, ?_⟩
  rw [get_valid hconfined.valid haddressable, held,
    hsplice.denote_replace (hsound.nodupKeys family)]
  simp [toPtr]

/-- A denied replacement changes what `get` sees. -/
theorem mod_denied_not_sameMap (hsound : Sound engines) (haddressable : Addressable family key)
    (hheld : held family engines key ≠ none)
    (hget : engineGet family after (some key) = some (leftover family)) :
    ¬SameMap family engines after := by
  intro hsame
  obtain ⟨old, hold⟩ := Option.ne_none_iff_exists'.1 hheld
  obtain ⟨text, rfl⟩ := hsound.held_text hold
  have hbefore := (hsame key).1
  rw [hget, get_spec hsound haddressable, hold, Option.some.injEq] at hbefore
  cases family <;> simp [leftover, toPtr] at hbefore

/-! ## One attempt -/

/-- A spared call has a result, keeps the engines sound and, if it fails, the map. -/
theorem engineCall_spared (hsound : Sound engines) {call : Call}
    (hspared : call.Spared chance family engines) :
    ∃ after answer, engineCall chance family engines call = some (after, answer) ∧
      Sound after ∧ (answer.Failed → SameMap family engines after) := by
  have hrefl := SameMap.refl family engines
  cases call with
  | set key value =>
      obtain ⟨haddressable, hhash⟩ := hspared
      by_cases hfull : Full family engines
      · exact ⟨engines, _, engineCall_full hsound hfull chance key value, hsound, fun _ => hrefl⟩
      by_cases hheld : held family engines key = none
      · cases hgranted : granted chance.alloc family with
        | true =>
            obtain ⟨after, hset, hcontained, -⟩ :=
              set_absent hsound haddressable hfull hheld chance.coins value
            rw [← engineSet_granted hgranted] at hset
            exact ⟨after, .code 0, by simp [engineCall, hset], hcontained.sound,
              fun hfailed => absurd hfailed (by simp [Answer.Failed])⟩
        | false =>
            have hfamily : family ≠ .hash := by
              intro heq
              rw [hhash heq hheld] at hgranted
              cases hgranted
            obtain ⟨after, code, hset, -, hcontained, hentries⟩ :=
              set_denied hsound hfamily hfull hheld hgranted value
            exact ⟨after, .code code, by simp [engineCall, hset], hcontained.sound,
              fun _ => sameMap_of_entries hsound hcontained.sound hfamily hentries⟩
      · have hset := set_present hsound haddressable hfull hheld chance value
        exact ⟨engines, .code 1, by simp [engineCall, hset], hsound, fun _ => hrefl⟩
  | get key =>
      replace hspared : Addressable family key := hspared
      exact ⟨engines, .pointer (toPtr (held family engines key)),
        by simp [engineCall, get_spec hsound hspared], hsound, fun _ => hrefl⟩
  | mod key value =>
      obtain ⟨haddressable, hgranted⟩ := hspared
      cases hheld : held family engines key with
      | none =>
          have hmod := mod_absent (hsound.valid family) haddressable hheld chance value
          exact ⟨engines, .code 1, by simp [engineCall, hmod], hsound, fun _ => hrefl⟩
      | some old =>
          obtain ⟨after, hmod, hcontained, -⟩ :=
            mod_present hsound haddressable hheld chance.coins value
          rw [← engineMod_granted (hgranted (by simp [hheld]))] at hmod
          exact ⟨after, .code 0, by simp [engineCall, hmod], hcontained.sound,
            fun hfailed => absurd hfailed (by simp [Answer.Failed])⟩
  | del key =>
      replace hspared : Addressable family key := hspared
      cases hheld : held family engines key with
      | none =>
          have hdel := del_absent (hsound.valid family) hspared hheld
          exact ⟨engines, .code 1, by simp [engineCall, hdel], hsound, fun _ => hrefl⟩
      | some old =>
          obtain ⟨after, hdel, hcontained, -⟩ := del_present hsound hspared hheld
          exact ⟨after, .code 0, by simp [engineCall, hdel], hcontained.sound,
            fun hfailed => absurd hfailed (by simp [Answer.Failed])⟩
  | exist key =>
      replace hspared : Addressable family key := hspared
      exact ⟨engines, .code (if held family engines key = none then 1 else 0),
        by simp [engineCall, exist_spec hsound hspared], hsound, fun _ => hrefl⟩

/-- A call that is not spared has no result or fails and changes the map. -/
theorem engineCall_unspared (hsound : Sound engines) {call : Call} {answer : Answer}
    (hcall : engineCall chance family engines call = some (after, answer))
    (hunspared : ¬call.Spared chance family engines) :
    answer.Failed ∧ ¬SameMap family engines after := by
  have haddressable := addressable_of_engineCall hcall
  cases call with
  | set key value =>
      replace haddressable : Addressable family key := haddressable
      -- only the hash engine, which has no result then
      have hdenied : family = .hash ∧ held family engines key = none ∧
          granted chance.alloc family = false := by
        by_contra hnot
        refine hunspared ⟨haddressable, fun hfamily hheld => ?_⟩
        by_contra hgranted
        exact hnot ⟨hfamily, hheld, Bool.not_eq_true _ ▸ hgranted⟩
      obtain ⟨rfl, hheld, hgranted⟩ := hdenied
      simp [engineCall, set_denied_hash hsound haddressable hheld hgranted] at hcall
  | mod key value =>
      replace haddressable : Addressable family key := haddressable
      have hdenied : held family engines key ≠ none ∧ chance.alloc 0 = false := by
        by_contra hnot
        refine hunspared ⟨haddressable, fun hheld => ?_⟩
        by_contra halloc
        exact hnot ⟨hheld, Bool.not_eq_true _ ▸ halloc⟩
      obtain ⟨hheld, halloc⟩ := hdenied
      obtain ⟨expected, hmod, hget⟩ := mod_denied hsound haddressable hheld halloc value
      simp only [engineCall, hmod, Option.map_some, Option.some.injEq, Prod.mk.injEq] at hcall
      obtain ⟨rfl, rfl⟩ := hcall
      exact ⟨by simp [Answer.Failed], mod_denied_not_sameMap hsound haddressable hheld hget⟩
  | get key => exact absurd haddressable hunspared
  | del key => exact absurd haddressable hunspared
  | exist key => exact absurd haddressable hunspared

theorem engineAttempt_call {attempt : Attempt} {call : Call} (hcall : attempt.call = some call)
    (chance : Chance) (family : Family) (engines : Engines) :
    engineAttempt chance family engines attempt = engineCall chance family engines call := by
  unfold Attempt.call at hcall
  split at hcall <;> cases hcall <;> rfl

/-- An attempt that lacks an argument is spared and does nothing, except that the hash
engine may read the missing value. -/
theorem engineAttempt_missing {attempt : Attempt} (hcall : attempt.call = none)
    (chance : Chance) (family : Family) (engines : Engines) :
    attempt.Spared chance family engines ∧
        (∃ answer, engineAttempt chance family engines attempt = some (engines, answer)) ∨
      family = .hash ∧ ∃ key, attempt = .mod (some key) none := by
  by_cases hvalue : ∃ key, attempt = .mod (some key) none
  · obtain ⟨key, rfl⟩ := hvalue
    cases family with
    | hash => exact .inr ⟨rfl, key, rfl⟩
    | array => exact .inl ⟨(nomatch ·), .code (-1), rfl⟩
    | rbtree => exact .inl ⟨(nomatch ·), .code (-1), rfl⟩
    | skip => exact .inl ⟨(nomatch ·), .code (-1), rfl⟩
  left
  constructor
  · unfold Attempt.Spared
    split
    · exact absurd ⟨_, rfl⟩ hvalue
    · intro call hsome
      rw [hcall] at hsome
      cases hsome
  cases attempt with
  | set key value =>
      cases key with
      | none => cases family <;> exact ⟨.code (-1), rfl⟩
      | some key =>
          cases value with
          | none => cases family <;> exact ⟨.code (-1), rfl⟩
          | some value => cases hcall
  | get key =>
      cases key with
      | none => cases family <;> exact ⟨.pointer .null, rfl⟩
      | some key => cases hcall
  | mod key value =>
      cases key with
      | none => cases family <;> exact ⟨.code (-1), rfl⟩
      | some key =>
          cases value with
          | none => exact absurd ⟨key, rfl⟩ hvalue
          | some value => cases hcall
  | del key =>
      cases key with
      | none => cases family <;> exact ⟨_, rfl⟩
      | some key => cases hcall
  | exist key =>
      cases key with
      | none => cases family <;> exact ⟨_, rfl⟩
      | some key => cases hcall

theorem Attempt.spared_iff {attempt : Attempt} {call : Call} (hcall : attempt.call = some call) :
    attempt.Spared chance family engines ↔ call.Spared chance family engines := by
  have hreduce : attempt.Spared chance family engines ↔
      ∀ other, attempt.call = some other → other.Spared chance family engines := by
    unfold Attempt.Spared
    split
    · cases hcall
    · rfl
  rw [hreduce, hcall]
  exact ⟨fun hall => hall call rfl, fun hspared other hother => by
    obtain rfl := Option.some.inj hother
    exact hspared⟩

/-- A spared attempt has a result, keeps the engines sound and, if it fails, the map. -/
theorem engineAttempt_spared (hsound : Sound engines) {attempt : Attempt}
    (hspared : attempt.Spared chance family engines) :
    ∃ after answer, engineAttempt chance family engines attempt = some (after, answer) ∧
      Sound after ∧ (answer.Failed → SameMap family engines after) := by
  cases hcall : attempt.call with
  | some call =>
      rw [engineAttempt_call hcall]
      exact engineCall_spared hsound ((Attempt.spared_iff hcall).1 hspared)
  | none =>
      have hrefl := SameMap.refl family engines
      rcases engineAttempt_missing hcall chance family engines with
        ⟨-, answer, hattempt⟩ | ⟨rfl, key, rfl⟩
      · exact ⟨engines, answer, hattempt, hsound, fun _ => hrefl⟩
      · obtain ⟨haddressable, hheld⟩ := hspared rfl
        obtain ⟨index, hbucket⟩ := haddressable rfl
        have hmod := Hash.mod_absent (hsound.valid .hash) hbucket hheld chance.alloc none
        exact ⟨engines, .code 1, by simp [engineAttempt, engineMod, hmod], hsound,
          fun _ => hrefl⟩

/-- An attempt that is not spared has no result or fails and changes the map. -/
theorem engineAttempt_unspared (hsound : Sound engines) {attempt : Attempt} {answer : Answer}
    (hattempt : engineAttempt chance family engines attempt = some (after, answer))
    (hunspared : ¬attempt.Spared chance family engines) :
    answer.Failed ∧ ¬SameMap family engines after := by
  cases hcall : attempt.call with
  | some call =>
      rw [engineAttempt_call hcall] at hattempt
      exact engineCall_unspared hsound hattempt (mt (Attempt.spared_iff hcall).2 hunspared)
  | none =>
      rcases engineAttempt_missing hcall chance family engines with
        ⟨hspared, -⟩ | ⟨rfl, key, rfl⟩
      · exact absurd hspared hunspared
      -- the missing value is read, or the key has no bucket
      · cases hbucket : bucket key with
        | none => simp [engineAttempt, engineMod, kvsHashMod, hbucket] at hattempt
        | some index =>
            have hheld : held .hash engines key ≠ none := fun hnone =>
              hunspared fun _ => ⟨fun _ => ⟨index, hbucket⟩, hnone⟩
            have hmod := Hash.mod_missing (hsound.valid .hash) hbucket hheld chance.alloc
            simp [engineAttempt, engineMod, hmod] at hattempt

end Attempts

/-! ## Runs -/

/-- An attempt at one of the engines, with what the environment decides during it. -/
structure AttemptInput where
  family : Family
  chance : Chance
  attempt : Attempt

/-- An attempt, observed together with the state it leaves. -/
def attemptStep (engines : Engines) (input : AttemptInput) :
    Option (Engines × (Engines × Answer)) :=
  (engineAttempt input.chance input.family engines input.attempt).map fun result =>
    (result.1, result)

/-- If the attempt fails, the map of its engine is as before. -/
def Harmless (engines : Engines) (input : AttemptInput) (outcome : Engines × Answer) : Prop :=
  outcome.2.Failed → SameMap input.family engines outcome.1

/-- In every run from the empty engines, whatever allocations fail, all attempts have a
result and the failing ones leave the map alone exactly when every attempt is spared. -/
theorem failures_harmless_iff (inputs : List AttemptInput) :
    Every attemptStep Harmless Engines.create inputs ↔
      Along attemptStep
        (fun engines input => input.attempt.Spared input.chance input.family engines)
        Engines.create inputs := by
  have hstep : ∀ engines input, Sound engines → True →
      ((∃ after output, attemptStep engines input = some (after, output) ∧
          Harmless engines input output) ↔
        input.attempt.Spared input.chance input.family engines) := by
    intro engines input hsound _
    constructor
    · rintro ⟨after, output, hattempt, hharmless⟩
      simp only [attemptStep, Option.map_eq_some_iff, Prod.mk.injEq] at hattempt
      obtain ⟨⟨after, answer⟩, hattempt, rfl, rfl⟩ := hattempt
      by_contra hunspared
      obtain ⟨hfailed, hchanged⟩ := engineAttempt_unspared hsound hattempt hunspared
      exact hchanged (hharmless hfailed)
    · intro hspared
      obtain ⟨after, answer, hattempt, -, hsame⟩ := engineAttempt_spared hsound hspared
      exact ⟨after, (after, answer), by simp [attemptStep, hattempt], hsame⟩
  refine every_iff_along (fun _ => True) hstep ?_ sound_create fun _ _ => trivial
  intro engines input after output hsound _ hattempt hharmless
  have hspared := (hstep engines input hsound trivial).1 ⟨after, output, hattempt, hharmless⟩
  obtain ⟨expected, answer, hexpected, hafter, -⟩ := engineAttempt_spared hsound hspared
  simp only [attemptStep, hexpected, Option.map_some, Option.some.injEq, Prod.mk.injEq] at hattempt
  exact hattempt.1 ▸ hafter

/-- A value is stored, replaced with the allocation denied, and read. -/
def deniedReplacement (family : Family) : List AttemptInput :=
  [⟨family, ⟨allocOk, fun _ => false⟩, .set (some (lit "k")) (some (lit "x"))⟩,
    ⟨family, ⟨fun _ => false, fun _ => false⟩, .mod (some (lit "k")) (some (lit "y"))⟩,
    ⟨family, ⟨allocOk, fun _ => false⟩, .get (some (lit "k"))⟩]

/-- The answers of a run. -/
def answersOf (inputs : List AttemptInput) : Option (List Answer) :=
  (run attemptStep Engines.create inputs).map fun result => result.2.map Prod.snd

/-- The failed replacement has lost the value, and a denied insertion into the hash engine
follows the missing node. -/
theorem denied_replacement_loses_value :
    answersOf (deniedReplacement .array) = some [.code 0, .code (-2), .pointer .null] ∧
      answersOf (deniedReplacement .rbtree) = some [.code 0, .code (-2), .pointer .null] ∧
      answersOf (deniedReplacement .hash) = some [.code 0, .code (-2), .pointer .freed] ∧
      answersOf (deniedReplacement .skip) = some [.code 0, .code (-2), .pointer .freed] ∧
      answersOf [⟨.hash, ⟨fun _ => false, fun _ => false⟩,
        .set (some (lit "k")) (some (lit "x"))⟩] = none := by
  decide +kernel

end LiteMultiKV.Families
