import LiteMultiKV.Protocol.Dispatch

/-!
# Key-value commands against the engines

Without the cache a key-value command is a function of one engine, and what it
does is what the command does to a dictionary.  With the cache it answers the
same as long as a value the cache would answer with is the one the engine
holds.  Both facts are stated here for one command, together with what the
command leaves in the cache.
-/

namespace LiteMultiKV.Protocol

open Cache CText Dictionary Families Memory LiteMultiKV.Skip

/-! ## Dictionaries of texts -/

/-- What an operation does to a dictionary, and the reply to it. -/
def dictionaryStep (operation : Operation) (key value : CStr) (texts : Texts) :
    Texts × Written :=
  match operation, texts key with
  | .set, none => (Function.update texts key (some value), say "OK\r\n")
  | .set, some _ => (texts, say "EXIST\r\n")
  | .get, none => (texts, say "NO EXIST\r\n")
  | .get, some stored => (texts, showValue stored)
  | .del, none => (texts, say "NO EXIST\r\n")
  | .del, some _ => (Function.update texts key none, say "OK\r\n")
  | .mod, none => (texts, say "NO EXIST\r\n")
  | .mod, some _ => (Function.update texts key (some value), say "OK\r\n")
  | .exist, none => (texts, say "NO EXIST\r\n")
  | .exist, some _ => (texts, say "EXIST\r\n")

theorem dictionaryStep_of_ne (operation : Operation) {key other : CStr} (hother : other ≠ key)
    (value : CStr) (texts : Texts) :
    (dictionaryStep operation key value texts).1 other = texts other := by
  cases operation <;> cases htext : texts key <;>
    simp [dictionaryStep, htext, Function.update_of_ne hother]

/-- The reply depends on the text at the key alone. -/
theorem dictionaryStep_congr (operation : Operation) (key value : CStr) {texts others : Texts}
    (hsame : texts key = others key) :
    (dictionaryStep operation key value texts).2 = (dictionaryStep operation key value others).2 ∧
      (dictionaryStep operation key value texts).1 key =
        (dictionaryStep operation key value others).1 key := by
  cases operation <;> cases htext : others key <;>
    simp [dictionaryStep, hsame.trans htext, htext]

/-! ## Commands without the cache -/

/-- A key-value command as a function of the engines. -/
def referenceCommand (chance : Chance) (family : Family) (operation : Operation)
    (engines : Engines) (key value : Option CStr) : Option (Engines × Written) :=
  match operation with
  | .set => do
      let (engines, code) ← engineSet chance family engines key value
      return (engines, codeReply code "EXIST\r\n")
  | .get => do
      match ← engineGet family engines key with
      | .null => return (engines, say "NO EXIST\r\n")
      | .freed => none
      | .text value => return (engines, showValue value)
  | .del => do
      let (engines, code) ← engineDel family engines key
      return (engines, codeReply code "NO EXIST\r\n")
  | .mod => do
      let (engines, code) ← engineMod chance family engines key value
      return (engines, codeReply code "NO EXIST\r\n")
  | .exist => do
      let code ← engineExist family engines key
      return (engines, if code = 0 then say "EXIST\r\n" else say "NO EXIST\r\n")

section Reference

variable {F : Type} {family : Family} {operation : Operation} {engines : Engines} {key : CStr}

theorem keyValueCommand_uncached (chance : Chance) (family : Family) (operation : Operation)
    (server : Server F) (key value : Option CStr) :
    keyValueCommand false chance family operation server key value =
      (referenceCommand chance family operation server.engines key value).map fun result =>
        ({ server with engines := result.1 }, result.2) := by
  cases operation with
  | set =>
      simp only [keyValueCommand, referenceCommand]
      cases engineSet chance family server.engines key value <;> rfl
  | get =>
      simp only [keyValueCommand, referenceCommand, getCommand, readEngine]
      cases engineGet family server.engines key with
      | none => rfl
      | some pointer => cases pointer <;> rfl
  | del =>
      simp only [keyValueCommand, referenceCommand, dropCached]
      cases engineDel family server.engines key <;> rfl
  | mod =>
      simp only [keyValueCommand, referenceCommand, dropCached]
      cases engineMod chance family server.engines key value <;> rfl
  | exist =>
      simp only [keyValueCommand, referenceCommand]
      cases engineExist family server.engines key <;> rfl

/-- A read of a sound engine. -/
theorem referenceCommand_get (hsound : Sound engines) (haddressable : Addressable family key)
    (chance : Chance) (value : CStr) (argument : Option CStr) :
    referenceCommand chance family .get engines (some key) argument =
      some (engines, (dictionaryStep .get key value (textHeld family engines)).2) := by
  have hget := get_spec hsound haddressable
  rw [toPtr_held hsound] at hget
  cases htext : textHeld family engines key with
  | none => simp [referenceCommand, hget, dictionaryStep, htext]
  | some stored => simp [referenceCommand, hget, dictionaryStep, htext]

/-- On a sound engine with room, a command is the operation on its dictionary. -/
theorem referenceCommand_spec (hsound : Sound engines) (haddressable : Addressable family key)
    (hroom : operation = .set → ¬Full family engines) (coins : Coins) {value : CStr}
    {argument : Option CStr} (hargument : operation.takesValue = true → argument = some value) :
    ∃ after, referenceCommand ⟨allocOk, coins⟩ family operation engines (some key) argument =
        some (after, (dictionaryStep operation key value (textHeld family engines)).2) ∧
      Contained family engines after ∧
      textHeld family after =
        (dictionaryStep operation key value (textHeld family engines)).1 := by
  have hnodup := hsound.nodupKeys family
  have hrefl := Contained.refl hsound family
  cases htext : textHeld family engines key with
  | none =>
      have hheld := (textHeld_eq_none_iff hsound).1 htext
      cases operation with
      | set =>
          obtain rfl := hargument rfl
          obtain ⟨after, hset, hcontained, hsplice⟩ :=
            set_absent hsound haddressable (hroom rfl) hheld coins value
          refine ⟨after, by simp [referenceCommand, hset, codeReply, dictionaryStep, htext],
            hcontained, ?_⟩
          rw [textHeld_of_update (hsplice.denote_insert hnodup hheld)]
          simp [dictionaryStep, htext, textOf]
      | get =>
          exact ⟨engines, referenceCommand_get hsound haddressable _ value argument, hrefl,
            by simp [dictionaryStep, htext]⟩
      | del =>
          have hdel := del_absent (hsound.valid family) haddressable hheld
          exact ⟨engines, by simp [referenceCommand, hdel, codeReply, dictionaryStep, htext],
            hrefl, by simp [dictionaryStep, htext]⟩
      | mod =>
          obtain rfl := hargument rfl
          have hmod := mod_absent (hsound.valid family) haddressable hheld ⟨allocOk, coins⟩ value
          exact ⟨engines, by simp [referenceCommand, hmod, codeReply, dictionaryStep, htext],
            hrefl, by simp [dictionaryStep, htext]⟩
      | exist =>
          have hexist := exist_spec hsound haddressable
          exact ⟨engines, by simp [referenceCommand, hexist, hheld, dictionaryStep, htext],
            hrefl, by simp [dictionaryStep, htext]⟩
  | some stored =>
      have hheld := textHeld_eq_some_iff.1 htext
      have hpresent : held family engines key ≠ none := by simp [hheld]
      cases operation with
      | set =>
          obtain rfl := hargument rfl
          have hset := set_present hsound haddressable (hroom rfl) hpresent
            ⟨allocOk, coins⟩ value
          exact ⟨engines, by simp [referenceCommand, hset, codeReply, dictionaryStep, htext],
            hrefl, by simp [dictionaryStep, htext]⟩
      | get =>
          exact ⟨engines, referenceCommand_get hsound haddressable _ value argument, hrefl,
            by simp [dictionaryStep, htext]⟩
      | del =>
          obtain ⟨after, hdel, hcontained, hsplice⟩ := del_present hsound haddressable hheld
          refine ⟨after, by simp [referenceCommand, hdel, codeReply, dictionaryStep, htext],
            hcontained, ?_⟩
          rw [textHeld_of_update (hsplice.denote_remove hnodup)]
          simp [dictionaryStep, htext]
      | mod =>
          obtain rfl := hargument rfl
          obtain ⟨after, hmod, hcontained, hsplice⟩ :=
            mod_present hsound haddressable hheld coins value
          refine ⟨after, by simp [referenceCommand, hmod, codeReply, dictionaryStep, htext],
            hcontained, ?_⟩
          rw [textHeld_of_update (hsplice.denote_replace hnodup)]
          simp [dictionaryStep, htext, textOf]
      | exist =>
          have hexist := exist_spec hsound haddressable
          exact ⟨engines, by simp [referenceCommand, hexist, hheld, dictionaryStep, htext],
            hrefl, by simp [dictionaryStep, htext]⟩

/-- A full array engine refuses every new pair. -/
theorem referenceCommand_full (hsound : Sound engines) (hfull : Full family engines)
    (coins : Coins) (value : CStr) :
    referenceCommand ⟨allocOk, coins⟩ family .set engines (some key) (some value) =
      some (engines, say "ERROR\r\n") := by
  simp [referenceCommand, set_full hsound hfull, codeReply]

/-- A command changes its own engine and the text at its key only. -/
structure Touched (family : Family) (operation : Operation) (key : CStr)
    (before after : Engines) : Prop where
  contained : Contained family before after
  elsewhere : ∀ other, other ≠ key → textHeld family after other = textHeld family before other
  stays : operation ≠ .del → operation ≠ .mod →
    ∀ text, textHeld family before key = some text → textHeld family after key = some text

/-- With or without room, a command has a result. -/
theorem referenceCommand_touched (hsound : Sound engines) (haddressable : Addressable family key)
    (coins : Coins) {argument : Option CStr}
    (hargument : operation.takesValue = true → argument ≠ none) :
    ∃ after reply,
      referenceCommand ⟨allocOk, coins⟩ family operation engines (some key) argument =
        some (after, reply) ∧ Touched family operation key engines after := by
  have hvalue : operation.takesValue = true → argument = some (argument.getD (lit "")) := by
    intro htakes
    cases argument with
    | none => exact absurd rfl (hargument htakes)
    | some value => rfl
  by_cases hfull : operation = .set ∧ Full family engines
  · obtain ⟨rfl, hfull⟩ := hfull
    rw [hvalue rfl]
    exact ⟨engines, _, referenceCommand_full hsound hfull coins _,
      Contained.refl hsound family, fun _ _ => rfl, fun _ _ _ htext => htext⟩
  · obtain ⟨after, hafter, hcontained, htexts⟩ := referenceCommand_spec hsound haddressable
      (fun hset hfull' => hfull ⟨hset, hfull'⟩) coins hvalue
    refine ⟨after, _, hafter, hcontained, fun other hother => ?_, fun hdel hmod text htext => ?_⟩
    · rw [htexts, dictionaryStep_of_ne operation hother]
    · rw [htexts]
      cases operation with
      | del => exact absurd rfl hdel
      | mod => exact absurd rfl hmod
      | _ => simp [dictionaryStep, htext]

end Reference

/-! ## Frame of the other engines -/

section Frame

variable {chance : Chance} {family : Family} {operation : Operation}
variable {left right after : Engines} {key value : Option CStr}

theorem engineSet_agree (hagree : Agree family left right) {code : ℤ}
    (hset : engineSet chance family left key value = some (after, code)) :
    ∃ twin, engineSet chance family right key value = some (twin, code) ∧
      Agree family after twin := by
  cases family <;> simp only [Agree] at hagree <;>
    simp only [engineSet, hagree, Option.map_eq_some_iff, Option.some.injEq,
      Prod.mk.injEq] at hset ⊢ <;> grind [Agree]

theorem engineDel_agree (hagree : Agree family left right) {code : ℤ}
    (hdel : engineDel family left key = some (after, code)) :
    ∃ twin, engineDel family right key = some (twin, code) ∧ Agree family after twin := by
  cases family <;> simp only [Agree] at hagree <;>
    simp only [engineDel, hagree, Option.map_eq_some_iff, Option.some.injEq,
      Prod.mk.injEq] at hdel ⊢ <;> grind [Agree]

theorem engineMod_agree (hagree : Agree family left right) {code : ℤ}
    (hmod : engineMod chance family left key value = some (after, code)) :
    ∃ twin, engineMod chance family right key value = some (twin, code) ∧
      Agree family after twin := by
  cases family <;> simp only [Agree] at hagree <;>
    simp only [engineMod, hagree, Option.map_eq_some_iff, Option.some.injEq,
      Prod.mk.injEq] at hmod ⊢ <;> grind [Agree]

theorem engineGet_agree (hagree : Agree family left right) :
    engineGet family left key = engineGet family right key := by
  cases family <;> simp only [Agree] at hagree <;> simp only [engineGet, hagree]

theorem engineExist_agree (hagree : Agree family left right) :
    engineExist family left key = engineExist family right key := by
  cases family <;> simp only [Agree] at hagree <;> simp only [engineExist, hagree]

/-- A command reads and writes its own engine only. -/
theorem referenceCommand_agree (hagree : Agree family left right) {reply : Written}
    (hcommand : referenceCommand chance family operation left key value = some (after, reply)) :
    ∃ twin, referenceCommand chance family operation right key value = some (twin, reply) ∧
      Agree family after twin := by
  cases operation with
  | set =>
      simp only [referenceCommand, Option.bind_eq_bind, Option.bind_eq_some_iff,
        Option.pure_def, Option.some.injEq, Prod.mk.injEq] at hcommand
      obtain ⟨⟨engines, code⟩, hset, rfl, rfl⟩ := hcommand
      obtain ⟨twin, htwin, hafter⟩ := engineSet_agree hagree hset
      exact ⟨twin, by simp [referenceCommand, htwin], hafter⟩
  | get =>
      have hget : engineGet family left key = engineGet family right key :=
        engineGet_agree hagree
      cases hleft : engineGet family left key with
      | none => simp [referenceCommand, hleft] at hcommand
      | some pointer =>
          rw [hget] at hleft
          cases pointer <;>
            simp only [referenceCommand, hget, hleft, Option.bind_eq_bind, Option.bind_some,
              Option.pure_def, Option.some.injEq, Prod.mk.injEq, reduceCtorEq] at hcommand ⊢
          all_goals
            obtain ⟨rfl, rfl⟩ := hcommand
            exact ⟨right, ⟨rfl, rfl⟩, hagree⟩
  | del =>
      simp only [referenceCommand, Option.bind_eq_bind, Option.bind_eq_some_iff,
        Option.pure_def, Option.some.injEq, Prod.mk.injEq] at hcommand
      obtain ⟨⟨engines, code⟩, hdel, rfl, rfl⟩ := hcommand
      obtain ⟨twin, htwin, hafter⟩ := engineDel_agree hagree hdel
      exact ⟨twin, by simp [referenceCommand, htwin], hafter⟩
  | mod =>
      simp only [referenceCommand, Option.bind_eq_bind, Option.bind_eq_some_iff,
        Option.pure_def, Option.some.injEq, Prod.mk.injEq] at hcommand
      obtain ⟨⟨engines, code⟩, hmod, rfl, rfl⟩ := hcommand
      obtain ⟨twin, htwin, hafter⟩ := engineMod_agree hagree hmod
      exact ⟨twin, by simp [referenceCommand, htwin], hafter⟩
  | exist =>
      simp only [referenceCommand, engineExist_agree hagree, Option.bind_eq_bind,
        Option.bind_eq_some_iff, Option.pure_def, Option.some.injEq, Prod.mk.injEq] at hcommand
      obtain ⟨code, hexist, rfl, rfl⟩ := hcommand
      exact ⟨right, by simp [referenceCommand, hexist], hagree⟩

end Frame

/-! ## Commands with the cache -/

section Cached

variable {F : Type} {family : Family} {operation : Operation} {server : Server F} {key : CStr}

/-- Every value a policy's structure caches is the one the engine holds. -/
def Coherent (family : Family) (engines : Engines) (cache : CacheManager F)
    (policy : Policy) : Prop :=
  ∀ key text, cache.peek policy key = some text → textHeld family engines key = some text

/-- The value the active structure caches for a key, if any, is the engine's. -/
def HitAgrees (family : Family) (server : Server F) (key : CStr) : Prop :=
  ∀ text, server.cache.peek server.cache.policy key = some text →
    textHeld family server.engines key = some text

instance (family : Family) (server : Server F) (key : CStr) :
    Decidable (HitAgrees family server key) :=
  decidable_of_iff (server.cache.peek server.cache.policy key = none ∨
      server.cache.peek server.cache.policy key = textHeld family server.engines key) (by
    unfold HitAgrees
    cases server.cache.peek server.cache.policy key with
    | none => simp
    | some text => simp [eq_comm])

/-- What a command leaves in the cache: nothing new for other keys, for its own key
what the engine holds, and nothing after a change of the value. -/
structure Refreshed (family : Family) (key : CStr) (before : Server F) (engines : Engines)
    (cache : CacheManager F) : Prop where
  kept : Kept before.cache cache
  elsewhere : ∀ other text, other ≠ key → cache.peek before.cache.policy other = some text →
    before.cache.peek before.cache.policy other = some text
  here : HitAgrees family before key → ∀ text,
    cache.peek before.cache.policy key = some text → textHeld family engines key = some text

theorem dropCached_spec {cache : CacheManager F} (hvalid : cache.Valid) (key : CStr) (code : ℤ) :
    ∃ after, dropCached true cache (some key) code = some after ∧ Kept cache after ∧
      after.peek cache.policy =
        if code = 0 then Function.update (cache.peek cache.policy) key none
        else cache.peek cache.policy := by
  by_cases hcode : code = 0
  · obtain ⟨after, result, hdel, hkept, hpeek⟩ := kvsCacheDel_peek hvalid key
    exact ⟨after, by simp [dropCached, hcode, hdel], hkept, by rw [if_pos hcode, hpeek]⟩
  · exact ⟨cache, by simp [dropCached, hcode], Kept.refl hvalid, by rw [if_neg hcode]⟩

/-- The invalidation leaves nothing behind for a key whose value may have changed. -/
theorem dropCached_refreshed (family : Family) (key : CStr) (hvalid : server.cache.Valid)
    {engines : Engines} {code : ℤ} (hsame : code ≠ 0 → engines = server.engines) :
    ∃ cache, dropCached true server.cache (some key) code = some cache ∧
      Refreshed family key server engines cache := by
  obtain ⟨cache, hdrop, hkept, hpeek⟩ := dropCached_spec hvalid key code
  refine ⟨cache, hdrop, hkept, fun other text hother htext => ?_, fun hhit text htext => ?_⟩
  · rw [hpeek] at htext
    split at htext
    · rwa [Function.update_of_ne hother] at htext
    · exact htext
  · rw [hpeek] at htext
    split at htext
    next => simp at htext
    next hcode => exact hsame hcode ▸ hhit text htext

theorem refreshed_of_unchanged (hvalid : server.cache.Valid) {engines : Engines}
    (hstays : ∀ text, textHeld family server.engines key = some text →
      textHeld family engines key = some text) :
    Refreshed family key server engines server.cache :=
  ⟨Kept.refl hvalid, fun _ _ _ htext => htext, fun hhit text htext =>
    hstays text (hhit text htext)⟩

theorem engineDel_unchanged {engines after : Engines} (hsound : Sound engines)
    (haddressable : Addressable family key) {code : ℤ}
    (hdel : engineDel family engines (some key) = some (after, code)) (hcode : code ≠ 0) :
    after = engines := by
  cases hheld : held family engines key with
  | none =>
      rw [del_absent (hsound.valid family) haddressable hheld] at hdel
      simp_all
  | some pointer =>
      obtain ⟨twin, htwin, -⟩ := del_present hsound haddressable hheld
      rw [htwin] at hdel
      simp_all

theorem engineMod_unchanged {engines after : Engines} (hsound : Sound engines)
    (haddressable : Addressable family key) {coins : Coins} {value : CStr} {code : ℤ}
    (hmod : engineMod ⟨allocOk, coins⟩ family engines (some key) (some value) =
      some (after, code)) (hcode : code ≠ 0) :
    after = engines := by
  cases hheld : held family engines key with
  | none =>
      rw [mod_absent (hsound.valid family) haddressable hheld] at hmod
      simp_all
  | some pointer =>
      obtain ⟨twin, htwin, -⟩ := mod_present hsound haddressable hheld coins value
      rw [htwin] at hmod
      simp_all

/-- A read with the cache answers as the engine would, if a hit agrees with it. -/
theorem getCommand_cached (hsound : Sound server.engines) (hvalid : server.cache.Valid)
    (haddressable : Addressable family key) (hhit : HitAgrees family server key) :
    ∃ cache reply, getCommand true allocOk family server (some key) =
        some ({ server with cache := cache }, reply) ∧
      reply = (dictionaryStep .get key (lit "") (textHeld family server.engines)).2 ∧
      Refreshed family key server server.engines cache := by
  obtain ⟨looked, hlooked, hkept, hpeek⟩ := kvsCacheGet_peek hvalid key
  have hget := get_spec hsound haddressable
  rw [toPtr_held hsound] at hget
  cases hcached : server.cache.peek server.cache.policy key with
  | some value =>
      rw [hcached] at hlooked
      refine ⟨looked, showValue value, by simp [getCommand, hlooked],
        by simp [dictionaryStep, hhit value hcached], hkept, fun other text _ htext => ?_,
        fun hhit' text htext => ?_⟩
      · rwa [hpeek] at htext
      · rw [hpeek] at htext
        exact hhit' text htext
  | none =>
      rw [hcached] at hlooked
      have hmiss : looked.peek looked.policy key = none := by
        rw [hkept.policy_eq, hpeek, hcached]
      cases htext : textHeld family server.engines key with
      | none =>
          rw [htext] at hget
          refine ⟨looked, say "NO EXIST\r\n",
            by simp [getCommand, hlooked, readEngine, hget],
            by simp [dictionaryStep, htext], hkept, fun other text _ hother => ?_,
            fun _ text hkey => ?_⟩
          · rwa [hpeek] at hother
          · rw [hpeek, hcached] at hkey
            cases hkey
      | some value =>
          rw [htext] at hget
          obtain ⟨added, hadd, hadded, hnew, hold⟩ :=
            kvsCacheLruAdd_peek hkept.valid hmiss value
          rw [hkept.policy_eq] at hnew hold
          refine ⟨added, showValue value,
            by simp [getCommand, hlooked, readEngine, hget, hadd],
            by simp [dictionaryStep, htext], hkept.trans hadded,
            fun other text hother hpeeked => ?_, fun _ text hkey => ?_⟩
          · rw [← hpeek]
            exact hold other text hother hpeeked
          · rw [hnew, Option.some.injEq] at hkey
            rw [htext, hkey]

/-- With the cache a command gives the engines and the reply it gives without it, if
a hit agrees with the engine that is read. -/
theorem keyValueCommand_cached (hsound : Sound server.engines) (hvalid : server.cache.Valid)
    (haddressable : Addressable family key)
    (hhit : operation = .get → HitAgrees family server key) (coins : Coins)
    {argument : Option CStr} (hargument : operation.takesValue = true → argument ≠ none) :
    ∃ engines cache reply,
      keyValueCommand true ⟨allocOk, coins⟩ family operation server (some key) argument =
        some ({ server with engines := engines, cache := cache }, reply) ∧
      referenceCommand ⟨allocOk, coins⟩ family operation server.engines (some key) argument =
        some (engines, reply) ∧
      Touched family operation key server.engines engines ∧
      Refreshed family key server engines cache := by
  obtain ⟨engines, reply, hreference, htouched⟩ :=
    referenceCommand_touched hsound haddressable coins hargument
  have hcommand := hreference
  cases operation with
  | set =>
      simp only [referenceCommand, Option.bind_eq_bind, Option.bind_eq_some_iff,
        Option.pure_def, Option.some.injEq, Prod.mk.injEq] at hcommand
      obtain ⟨⟨after, code⟩, hset, rfl, rfl⟩ := hcommand
      exact ⟨after, server.cache, codeReply code "EXIST\r\n",
        by simp [keyValueCommand, hset], hreference, htouched,
        refreshed_of_unchanged hvalid (htouched.stays (by simp) (by simp))⟩
  | get =>
      obtain ⟨cache, answer, hget, hanswer, hrefreshed⟩ :=
        getCommand_cached hsound hvalid haddressable (hhit rfl)
      rw [referenceCommand_get hsound haddressable _ (lit ""), ← hanswer, Option.some.injEq,
        Prod.mk.injEq] at hcommand
      obtain ⟨rfl, rfl⟩ := hcommand
      exact ⟨server.engines, cache, answer, hget, hreference, htouched, hrefreshed⟩
  | del =>
      simp only [referenceCommand, Option.bind_eq_bind, Option.bind_eq_some_iff,
        Option.pure_def, Option.some.injEq, Prod.mk.injEq] at hcommand
      obtain ⟨⟨after, code⟩, hdel, rfl, rfl⟩ := hcommand
      obtain ⟨cache, hdrop, hrefreshed⟩ := dropCached_refreshed family key hvalid
        (engineDel_unchanged hsound haddressable hdel)
      exact ⟨after, cache, codeReply code "NO EXIST\r\n",
        by simp [keyValueCommand, hdel, hdrop], hreference, htouched, hrefreshed⟩
  | mod =>
      cases argument with
      | none => exact absurd rfl (hargument rfl)
      | some value =>
          simp only [referenceCommand, Option.bind_eq_bind, Option.bind_eq_some_iff,
            Option.pure_def, Option.some.injEq, Prod.mk.injEq] at hcommand
          obtain ⟨⟨after, code⟩, hmod, rfl, rfl⟩ := hcommand
          obtain ⟨cache, hdrop, hrefreshed⟩ := dropCached_refreshed family key hvalid
            (engineMod_unchanged hsound haddressable hmod)
          exact ⟨after, cache, codeReply code "NO EXIST\r\n",
            by simp [keyValueCommand, hmod, hdrop], hreference, htouched, hrefreshed⟩
  | exist =>
      simp only [referenceCommand, Option.bind_eq_bind, Option.bind_eq_some_iff,
        Option.pure_def, Option.some.injEq, Prod.mk.injEq] at hcommand
      obtain ⟨code, hexist, rfl, rfl⟩ := hcommand
      exact ⟨server.engines, server.cache, _, by simp [keyValueCommand, hexist], hreference,
        htouched, refreshed_of_unchanged hvalid fun _ htext => htext⟩

/-- The active structure stays coherent with the engine the command works on. -/
theorem Refreshed.coherent {engines : Engines} {cache : CacheManager F}
    (htouched : Touched family operation key server.engines engines)
    (hrefreshed : Refreshed family key server engines cache)
    (hcoherent : Coherent family server.engines server.cache server.cache.policy) :
    Coherent family engines cache server.cache.policy := by
  intro other text htext
  by_cases hother : other = key
  · subst hother
    exact hrefreshed.here (hcoherent other) text htext
  · rw [htouched.elsewhere other hother]
    exact hcoherent other text (hrefreshed.elsewhere other text hother htext)

/-- Another structure stays coherent if it holds nothing that a `del` or `mod` makes
stale. -/
theorem Refreshed.coherent_inactive {engines : Engines} {cache : CacheManager F}
    (htouched : Touched family operation key server.engines engines)
    (hrefreshed : Refreshed family key server engines cache) {policy : Policy}
    (hinactive : policy ≠ server.cache.policy)
    (hclear : operation = .del ∨ operation = .mod → server.cache.peek policy key = none)
    (hcoherent : Coherent family server.engines server.cache policy) :
    Coherent family engines cache policy := by
  intro other text htext
  rw [hrefreshed.kept.peek_inactive hinactive] at htext
  by_cases hother : other = key
  · subst hother
    by_cases hchange : operation = .del ∨ operation = .mod
    · rw [hclear hchange] at htext
      cases htext
    · rw [not_or] at hchange
      exact htouched.stays hchange.1 hchange.2 text (hcoherent other text htext)
  · rw [htouched.elsewhere other hother]
    exact hcoherent other text htext

end Cached

end LiteMultiKV.Protocol
