import LiteMultiKV.Engine.Shaped
import LiteMultiKV.Engine.VectorStore
import LiteMultiKV.Protocol.Replies

/-!
# Commands without arguments

A command that takes a key may be sent alone.  In the default namespace it then has no
key and is refused.  In a named one `printf` makes a key of the missing argument, and
the command works on what is stored under that key.  This file says, for every state
that messages reach, whatever allocations have failed on the way, when a command that is
sent alone is harmless.
-/

namespace LiteMultiKV.Protocol

open List Cache CText Families Files Memory Numeric Persist Run LiteMultiKV.Vector

variable {F : Type}

/-! ## States that messages reach -/

/-- What every message finds, whatever allocations have failed before it. -/
structure Running (server : Server F) : Prop where
  shaped : Shaped server.engines
  cached : server.cache.Valid

theorem loadLoop_shaped {load : LoadChance} {fuel i : ℕ} {bytes : List Byte}
    {engines after : Engines} {count total : ℤ} (hshaped : Shaped engines)
    (hload : loadLoop load fuel i bytes engines count = some (after, total)) :
    Shaped after := by
  induction fuel generalizing i bytes engines count with
  | zero => cases hload
  | succ fuel ih =>
      rw [loadLoop] at hload
      split at hload
      · cases hload
        exact hshaped
      · cases hload
      next tag key value rest _ =>
        split at hload
        · exact ih hshaped hload
        next family _ =>
          simp only [Option.bind_eq_bind, Option.bind_eq_some_iff] at hload
          obtain ⟨⟨stored, code⟩, hset, hload⟩ := hload
          have hcall : engineCall (load.sets i) family engines (.set key value) =
              some (stored, .code code) := by
            simp [engineCall, hset]
          exact ih (shaped_of_engineCall hshaped hcall) hload

section Running

variable [CFloat F] {server after : Server F} {message : Message F} {reply : Written}

/-- The server is running after `init_kvengine`, with or without a dump. -/
theorem running_init {load : LoadChance} {disk : Disk}
    (hinit : initKvengine F load disk = some server) : Running server := by
  simp only [initKvengine, rdbLoadDefault, Option.bind_eq_bind, Option.bind_eq_some_iff,
    Option.pure_def, Option.some.injEq] at hinit
  obtain ⟨⟨engines, count⟩, hload, rfl⟩ := hinit
  refine ⟨?_, kvsCacheInit_valid 1000⟩
  unfold rdbLoad at hload
  split at hload
  · cases hload
    exact sound_create.shaped
  · split at hload
    · cases hload
      exact sound_create.shaped
    · exact loadLoop_shaped sound_create.shaped hload

omit [CFloat F] in
theorem getCommand_valid {alloc : Alloc} {family : Family} {key : CStr}
    (hvalid : server.cache.Valid)
    (hget : getCommand true alloc family server (some key) = some (after, reply)) :
    after.cache.Valid := by
  obtain ⟨looked, hlooked, hkept, hpeek⟩ := kvsCacheGet_peek hvalid key
  rcases getCommand_cases hget with ⟨hdisabled, -⟩ | ⟨-, found, cached, hfound, hrest⟩
  · cases hdisabled
  obtain ⟨rfl, rfl⟩ := Prod.mk.inj (Option.some.inj (hlooked.symm.trans hfound))
  rcases hrest with ⟨_, -, rfl, -⟩ | ⟨hcached, hread⟩
  · exact hkept.valid
  · have hmiss : looked.peek looked.policy key = none := by
      rw [hkept.policy_eq, hpeek, hcached]
    rcases readEngine_cases hread with
      ⟨-, rfl, -⟩ | ⟨text, -, -, ⟨-, rfl⟩ | ⟨-, name, cache, hname, hadd, rfl⟩⟩
    · exact hkept.valid
    · exact hkept.valid
    · obtain rfl := Option.some.inj hname
      exact (kvsCacheLruAdd_kept hkept.valid hmiss hadd).valid

omit [CFloat F] in
theorem dropCached_valid {key : CStr} {code : ℤ} {cache : CacheManager F}
    (hvalid : server.cache.Valid)
    (hdrop : dropCached true server.cache (some key) code = some cache) : cache.Valid := by
  obtain ⟨expected, hexpected, hkept, -⟩ := dropCached_spec hvalid key code
  obtain rfl : expected = cache := Option.some.inj (hexpected.symm.trans hdrop)
  exact hkept.valid

omit [CFloat F] in
theorem keyValueCommand_valid {chance : Chance} {family : Family} {operation : Operation}
    {key : CStr} {value : Option CStr} (hvalid : server.cache.Valid)
    (hcommand : keyValueCommand true chance family operation server (some key) value =
      some (after, reply)) : after.cache.Valid := by
  cases executed_of_keyValueCommand hcommand with
  | set engines code hset => exact hvalid
  | get hget => exact getCommand_valid hvalid hget
  | del engines code hdel hdrop => exact dropCached_valid hvalid hdrop
  | mod engines code hmod hdrop => exact dropCached_valid hvalid hdrop
  | exist hexist => exact hvalid

omit [CFloat F] in
theorem Running.runKeyValue (hrunning : Running server) {chance : Chance} {family : Family}
    {operation : Operation} {tokens : List CStr} {ns : CStr}
    (hrun : runKeyValue true chance family operation tokens ns server = some (after, reply)) :
    Running after := by
  cases hkey : storedKey operation tokens ns with
  | none =>
      rw [runKeyValue_idle hkey, Option.some.injEq, Prod.mk.injEq] at hrun
      exact hrun.1 ▸ hrunning
  | some key =>
      rw [runKeyValue_keyed hkey] at hrun
      refine ⟨?_, keyValueCommand_valid hrunning.cached hrun⟩
      rcases keyValueCommand_engines (valueToken_ne_none hkey) hrun with
        hsame | ⟨call, answer, hcall, -⟩
      · exact hsame ▸ hrunning.shaped
      · exact shaped_of_engineCall hrunning.shaped hcall

theorem cacheCommand_valid {cache : CacheManager F} (hvalid : cache.Valid) (command : Command)
    (tokens : List CStr) : (cacheCommand command tokens cache).1.Valid := by
  cases command with
  | policy =>
      rw [cacheCommand]
      rcases policyCommand_cases tokens cache with hsame | ⟨policy, hset⟩
      · rwa [hsame]
      · rw [hset]
        exact kvsCacheSetPolicy_valid hvalid policy
  | recommend => exact refreshPrediction_valid hvalid
  | _ => exact hvalid

theorem Running.runCommand (hrunning : Running server) {env : Env F} {command : Command}
    {tokens : List CStr} {ns : CStr} {outcome : Outcome F}
    (hrun : runCommand true env command tokens ns server = some outcome) :
    Running outcome.server := by
  cases ran_of_runCommand hrun with
  | keyValue hcommand => exact hrunning.runKeyValue hcommand
  | cache => exact ⟨hrunning.shaped, cacheCommand_valid hrunning.cached command tokens⟩
  | _ => exact ⟨hrunning.shaped, hrunning.cached⟩

theorem Running.receive (hrunning : Running server)
    (hreceive : receive server message = some (after, reply)) : Running after := by
  rcases receive_cases hreceive with rfl | ⟨command, outcome, hrun, rfl⟩
  · exact hrunning
  · exact hrunning.runCommand hrun

end Running

/-! ## Refusals -/

/-- An error, or the text for a missing key. -/
def Refusal (reply : Written) : Prop :=
  reply.buffer.take 5 = ascii "ERROR" ∨ reply = say "NO EXIST\r\n"

instance (reply : Written) : Decidable (Refusal reply) :=
  inferInstanceAs (Decidable (_ ∨ _))

/-- A stored text that reads as a refusal when it is shown. -/
def LikeRefusal (text : CStr) : Prop :=
  text.bytes.take 5 = ascii "ERROR" ∨ text = lit "NO EXIST"

theorem buffer_showValue (text : CStr) :
    (showValue text).buffer = (text.bytes ++ crlf).take 1023 ++ [0] := rfl

/-- A shorter text is followed by a line end, which is not part of the word. -/
theorem showValue_error_iff {text : CStr} :
    (showValue text).buffer.take 5 = ascii "ERROR" ↔ text.bytes.take 5 = ascii "ERROR" := by
  rw [buffer_showValue]
  by_cases hlong : 5 ≤ text.bytes.length
  · rw [take_append_of_le_length (by simp [crlf]; omega), take_take,
      take_append_of_le_length (by omega)]
    rfl
  · refine iff_of_false (fun hword => ?_) fun hword => ?_
    · have hreturn : (13 : Byte) ∈ ((text.bytes ++ crlf).take 1023 ++ [0]).take 5 := by
        refine mem_of_getElem? (i := text.bytes.length) ?_
        rw [getElem?_take_of_lt (by omega), getElem?_append_left (by simp [crlf]; omega),
          getElem?_take_of_lt (by omega), getElem?_append_right le_rfl]
        simp [crlf]
      rw [hword] at hreturn
      exact absurd hreturn (by decide)
    · have hfive := congrArg List.length hword
      rw [length_take, show (ascii "ERROR").length = 5 from rfl] at hfive
      omega

theorem showValue_missing_iff {text : CStr} :
    showValue text = say "NO EXIST\r\n" ↔ text = lit "NO EXIST" := by
  constructor
  · intro hsame
    have hcount := congrArg Written.length hsame
    have hbytes := congrArg Written.buffer hsame
    rw [show (showValue text).length = (text.bytes ++ crlf).length from rfl,
      show (say "NO EXIST\r\n").length = 10 from rfl, length_append] at hcount
    rw [buffer_showValue, take_of_length_le (by rw [length_append]; omega),
      show (say "NO EXIST\r\n").buffer = (ascii "NO EXIST" ++ crlf) ++ [0] by decide] at hbytes
    have htext := append_cancel_right (append_cancel_right hbytes)
    exact CStr.ext (htext.trans (by decide))
  · rintro rfl
    decide

theorem refusal_showValue_iff {text : CStr} : Refusal (showValue text) ↔ LikeRefusal text :=
  or_congr showValue_error_iff showValue_missing_iff

/-! ## What a refused command leaves alone -/

/-- The four key-value engines, the vectors and the cached pairs are the same. -/
structure SameContents (before after : Server F) : Prop where
  engines_eq : after.engines = before.engines
  vector_eq : after.vector = before.vector
  cached_eq : ∀ policy, after.cache.peek policy = before.cache.peek policy

theorem SameContents.refl (server : Server F) : SameContents server server :=
  ⟨rfl, rfl, fun _ => rfl⟩

/-- The result is a refusal that changes nothing. -/
def HarmlessTo (server : Server F) (result : Option (Server F × Written)) : Prop :=
  ∃ after reply, result = some (after, reply) ∧ Refusal reply ∧ SameContents server after

theorem harmlessTo_none {server : Server F} : ¬HarmlessTo server none := by
  rintro ⟨_, _, hnone, -⟩
  cases hnone

theorem harmlessTo_some {server after : Server F} {reply : Written} :
    HarmlessTo server (some (after, reply)) ↔ Refusal reply ∧ SameContents server after := by
  constructor
  · rintro ⟨_, _, hsame, hrefusal, hcontents⟩
    obtain ⟨rfl, rfl⟩ := Prod.mk.inj (Option.some.inj hsame)
    exact ⟨hrefusal, hcontents⟩
  · rintro ⟨hrefusal, hcontents⟩
    exact ⟨after, reply, rfl, hrefusal, hcontents⟩

/-- The text that is cached for the key reads as a refusal; if none is cached, the engine
can place the key and holds no value for it. -/
def GetSpared (family : Family) (server : Server F) (key : CStr) : Prop :=
  (∀ text, server.cache.peek server.cache.policy key = some text → LikeRefusal text) ∧
    (server.cache.peek server.cache.policy key = none → Addressable family key ∧
      (held family server.engines key = none ∨ held family server.engines key = some .null))

section KeyValue

variable {server : Server F} {family : Family} {key : CStr}

/-- A read of the engine with a cache in which the key is missing. -/
theorem readEngine_harmless {looked : CacheManager F} (hshaped : Shaped server.engines)
    (hvalid : looked.Valid) (hpeek : ∀ policy, looked.peek policy = server.cache.peek policy)
    (hmiss : looked.peek looked.policy key = none) (alloc : Alloc) :
    (Addressable family key ∧ toPtr (held family server.engines key) = .null →
      HarmlessTo server
        (readEngine true alloc family { server with cache := looked } (some key))) ∧
    (alloc = allocOk → HarmlessTo server
        (readEngine true alloc family { server with cache := looked } (some key)) →
      Addressable family key ∧ toPtr (held family server.engines key) = .null) := by
  by_cases haddressable : Addressable family key
  · have hread := get_shaped hshaped haddressable
    cases hpointer : toPtr (held family server.engines key) with
    | null =>
        rw [hpointer] at hread
        have hreply : readEngine true alloc family { server with cache := looked } (some key) =
            some ({ server with cache := looked }, say "NO EXIST\r\n") := by
          simp [readEngine, hread]
        rw [hreply, harmlessTo_some]
        exact ⟨fun _ => ⟨.inr rfl, rfl, rfl, hpeek⟩, fun _ _ => ⟨haddressable, rfl⟩⟩
    | freed =>
        rw [hpointer] at hread
        have hreply : readEngine true alloc family { server with cache := looked } (some key) =
            none := by
          simp [readEngine, hread]
        rw [hreply]
        exact ⟨fun hnull => absurd hnull.2 (by simp),
          fun _ hharmless => absurd hharmless harmlessTo_none⟩
    | text value =>
        rw [hpointer] at hread
        refine ⟨fun hnull => absurd hnull.2 (by simp), ?_⟩
        -- the value that is shown is cached, and it was not before
        rintro rfl hharmless
        obtain ⟨added, hadd, -, hnew, -⟩ := kvsCacheLruAdd_peek hvalid hmiss value
        have hreply : readEngine true allocOk family { server with cache := looked }
            (some key) = some ({ server with cache := added }, showValue value) := by
          simp [readEngine, hread, hadd]
        rw [hreply, harmlessTo_some] at hharmless
        have hcontents := congrFun (hharmless.2.cached_eq looked.policy) key
        rw [← hpeek, hmiss] at hcontents
        exact absurd (hnew.symm.trans hcontents) (by simp)
  · have hread : engineGet family server.engines (some key) = none := by
      simpa [engineCall] using
        engineCall_unplaced ⟨alloc, fun _ => false⟩ server.engines (.get key) haddressable
    have hreply : readEngine true alloc family { server with cache := looked } (some key) =
        none := by
      simp [readEngine, hread]
    rw [hreply]
    exact ⟨fun hnull => absurd hnull.1 haddressable,
      fun _ hharmless => absurd hharmless harmlessTo_none⟩

theorem getCommand_harmless (hrunning : Running server) (alloc : Alloc) (family : Family)
    (key : CStr) :
    (GetSpared family server key →
      HarmlessTo server (getCommand true alloc family server (some key))) ∧
    (alloc = allocOk → HarmlessTo server (getCommand true alloc family server (some key)) →
      GetSpared family server key) := by
  obtain ⟨looked, hlooked, hkept, hpeek⟩ := kvsCacheGet_peek hrunning.cached key
  rw [GetSpared, ← toPtr_eq_null_iff]
  cases hcached : server.cache.peek server.cache.policy key with
  | some text =>
      rw [hcached] at hlooked
      have hget : getCommand true alloc family server (some key) =
          some ({ server with cache := looked }, showValue text) := by
        simp [getCommand, hlooked]
      rw [hget, harmlessTo_some, refusal_showValue_iff]
      exact ⟨fun hspared => ⟨hspared.1 text rfl, rfl, rfl, hpeek⟩,
        fun _ hharmless => ⟨fun other hother => Option.some.inj hother ▸ hharmless.1, by simp⟩⟩
  | none =>
      rw [hcached] at hlooked
      have hmiss : looked.peek looked.policy key = none := by
        rw [hkept.policy_eq, hpeek, hcached]
      have hget : getCommand true alloc family server (some key) =
          readEngine true alloc family { server with cache := looked } (some key) := by
        simp [getCommand, hlooked]
      obtain ⟨hharmless, hspared⟩ :=
        readEngine_harmless hrunning.shaped hkept.valid hpeek hmiss alloc
      rw [hget]
      exact ⟨fun hholds => hharmless (hholds.2 rfl),
        fun halloc hread => ⟨by simp, fun _ => hspared halloc hread⟩⟩

/-- A deletion is refused exactly when the engine can place the key and does not hold it. -/
theorem delCommand_harmless_iff (hrunning : Running server) (chance : Chance) (family : Family)
    (key : CStr) (value : Option CStr) :
    HarmlessTo server (keyValueCommand true chance family .del server (some key) value) ↔
      Addressable family key ∧ held family server.engines key = none := by
  by_cases haddressable : Addressable family key
  · obtain ⟨after, hdel, -, hunchanged⟩ := del_shaped hrunning.shaped haddressable
    by_cases hheld : held family server.engines key = none
    · rw [if_pos hheld, hunchanged hheld] at hdel
      have hresult : keyValueCommand true chance family .del server (some key) value =
          some (server, say "NO EXIST\r\n") := by
        simp [keyValueCommand, hdel, dropCached, codeReply]
      rw [hresult, harmlessTo_some]
      exact iff_of_true ⟨.inr rfl, SameContents.refl server⟩ ⟨haddressable, hheld⟩
    · rw [if_neg hheld] at hdel
      obtain ⟨cache, hdrop, -⟩ := dropCached_spec hrunning.cached key 0
      have hresult : keyValueCommand true chance family .del server (some key) value =
          some ({ server with engines := after, cache := cache }, say "OK\r\n") := by
        simp [keyValueCommand, hdel, hdrop, codeReply]
      rw [hresult, harmlessTo_some]
      exact iff_of_false (fun hharmless => absurd hharmless.1 (by decide))
        fun hholds => hheld hholds.2
  · have hnone : engineDel family server.engines (some key) = none := by
      simpa [engineCall] using
        engineCall_unplaced chance server.engines (.del key) haddressable
    have hresult : keyValueCommand true chance family .del server (some key) value = none := by
      simp [keyValueCommand, hnone]
    rw [hresult]
    exact iff_of_false harmlessTo_none fun hholds => haddressable hholds.1

/-- `EXIST` is refused exactly when the engine can place the key and sees nothing there. -/
theorem existCommand_harmless_iff (hrunning : Running server) (chance : Chance)
    (family : Family) (key : CStr) (value : Option CStr) :
    HarmlessTo server (keyValueCommand true chance family .exist server (some key) value) ↔
      Addressable family key ∧ Unseen family server.engines key := by
  by_cases haddressable : Addressable family key
  · have hexist := exist_shaped hrunning.shaped haddressable
    by_cases hunseen : Unseen family server.engines key
    · rw [if_pos hunseen] at hexist
      have hresult : keyValueCommand true chance family .exist server (some key) value =
          some (server, say "NO EXIST\r\n") := by
        simp [keyValueCommand, hexist]
      rw [hresult, harmlessTo_some]
      exact iff_of_true ⟨.inr rfl, SameContents.refl server⟩ ⟨haddressable, hunseen⟩
    · rw [if_neg hunseen] at hexist
      have hresult : keyValueCommand true chance family .exist server (some key) value =
          some (server, say "EXIST\r\n") := by
        simp [keyValueCommand, hexist]
      rw [hresult, harmlessTo_some]
      exact iff_of_false (fun hharmless => absurd hharmless.1 (by decide))
        fun hholds => hunseen hholds.2
  · have hnone : engineExist family server.engines (some key) = none := by
      simpa [engineCall] using
        engineCall_unplaced chance server.engines (.exist key) haddressable
    have hresult : keyValueCommand true chance family .exist server (some key) value = none := by
      simp [keyValueCommand, hnone]
    rw [hresult]
    exact iff_of_false harmlessTo_none fun hholds => haddressable hholds.1

end KeyValue

section Vectors

variable [CFloat F] {vector : KvsVector F} {key : CStr}

/-- Printing behind the first byte leaves it. -/
theorem printComponents_head {byte : Byte} (dim j : ℕ) (components : List F)
    {written : Written} (hhead : written.buffer.head? = some byte) (hlength : 0 < written.length) :
    (printComponents dim j components written).buffer.head? = some byte := by
  induction components generalizing j written with
  | nil => exact hhead
  | cons component components ih =>
      rw [printComponents]
      split
      · refine ih (j + 1) ?_ ?_
        · obtain ⟨offset, hoffset⟩ : ∃ offset, written.length.toNat = offset + 1 :=
            ⟨written.length.toNat - 1, by omega⟩
          obtain ⟨rest, hbuffer⟩ : ∃ rest, written.buffer = byte :: rest :=
            ⟨_, (cons_head?_tail hhead).symm⟩
          simp [snprintfAt, writeAt, hoffset, hbuffer]
        · simp only [snprintfAt]
          positivity
      · exact hhead

/-- The text of a vector starts with the word `key`. -/
theorem nodeText_head (key : CStr) (node : HNSWNode F) :
    (nodeText key node).bytes.head? = some 107 := by
  have hword : ascii "key=" = [107, 101, 121, 61] := by decide
  have hhead : ∀ rest, (printComponents node.vector.length 0 node.vector
      (snprintf getBufferSize (107 :: rest))).buffer.head? = some 107 := by
    intro rest
    refine printComponents_head _ _ _ rfl ?_
    rw [snprintf_length, length_cons]
    positivity
  simp only [nodeText, hword, cons_append, CStr.read]
  obtain ⟨rest, hbuffer⟩ := head?_eq_some_iff.1 (hhead _)
  rw [hbuffer, takeWhile_cons_of_pos (by decide), head?_cons]

omit [CFloat F] in
theorem findNode_eq_none_iff :
    findNode vector.index key vector.index.size = none ↔
      ∀ row ∈ rows vector.index, row.key ≠ key := by
  rw [findNode_eq, ← rows, Option.map_eq_none_iff, find?_eq_none]
  simp

theorem refusal_vgetCommand_iff :
    Refusal (vgetCommand (some key) vector) ↔ ∀ row ∈ rows vector.index, row.key ≠ key := by
  rw [← findNode_eq_none_iff]
  cases hfind : findNode vector.index key vector.index.size with
  | none =>
      have hreply : vgetCommand (some key) vector = say "NO EXIST\r\n" := by
        simp [vgetCommand, kvsVectorGet, hfind]
      rw [hreply]
      exact iff_of_true (.inr rfl) rfl
  | some slot =>
      refine iff_of_false ?_ (by simp)
      have hfound := hfind
      rw [findNode_eq, ← rows, Option.map_eq_some_iff] at hfound
      obtain ⟨row, hrow, rfl⟩ := hfound
      obtain ⟨contents, hnode, -, hkey, -⟩ :=
        rowAt_eq_some_iff.1 (mem_rows_iff.1 (mem_of_find?_eq_some hrow)).2
      have hreply : vgetCommand (some key) vector = showValue (nodeText row.key contents) := by
        simp [vgetCommand, kvsVectorGet, hfind, hnode, hkey]
      have hhead := nodeText_head row.key contents
      rw [hreply, refusal_showValue_iff]
      rintro (hword | hmissing)
      · have hfirst := congrArg head? hword
        rw [head?_take, if_neg (by decide), hhead] at hfirst
        exact absurd hfirst (by decide)
      · rw [hmissing] at hhead
        exact absurd hhead (by decide)

omit [CFloat F] in
/-- A deletion that finds no vector leaves them alone. -/
theorem vdelCommand_absent (habsent : ∀ row ∈ rows vector.index, row.key ≠ key) :
    vdelCommand (some key) vector = (vector, say "NO EXIST\r\n") := by
  simp [vdelCommand, kvsVectorDel, findNode_eq_none_iff.2 habsent]

omit [CFloat F] in
theorem refusal_vdelCommand_iff :
    Refusal (vdelCommand (some key) vector).2 ↔ ∀ row ∈ rows vector.index, row.key ≠ key := by
  refine ⟨fun hrefusal => ?_, fun habsent => vdelCommand_absent habsent ▸ .inr rfl⟩
  rw [← findNode_eq_none_iff]
  by_contra hsome
  obtain ⟨slot, hfind⟩ := Option.ne_none_iff_exists'.1 hsome
  have hreply : (vdelCommand (some key) vector).2 = say "OK\r\n" := by
    simp [vdelCommand, kvsVectorDel, hfind]
  rw [hreply] at hrefusal
  exact absurd hrefusal (by decide)

end Vectors

/-! ## Commands sent alone -/

/-- The key-value commands and the vector commands that name a vector. -/
def Command.takesKey : Command → Bool
  | .keyValue _ _ => true
  | .vset => true
  | .vget => true
  | .vsearch => true
  | .vdel => true
  | _ => false

/-- What a command that works on the key must find in order to be harmless. -/
def SparedAt (server : Server F) (key : CStr) : Command → Prop
  | .keyValue family .get => GetSpared family server key
  | .keyValue family .del => Addressable family key ∧ held family server.engines key = none
  | .keyValue family .exist => Addressable family key ∧ Unseen family server.engines key
  | .vget => ∀ row ∈ rows server.vector.index, row.key ≠ key
  | .vdel => ∀ row ∈ rows server.vector.index, row.key ≠ key
  | _ => True

/-- The key that a namespace makes of a missing argument, if it makes one, is spared. -/
def Spared (server : Server F) (ns : CStr) (command : Command) : Prop :=
  ∀ key, makeNamespacedKey ns none = some key → SparedAt server key command

theorem spared_of_no_key {server : Server F} {ns : CStr}
    (hkey : makeNamespacedKey ns none = none) (command : Command) :
    Spared server ns command :=
  fun _ hnamed => absurd (hkey.symm.trans hnamed) (by simp)

theorem codeReply_length_nonneg (code : ℤ) (positive : String) :
    0 ≤ (codeReply code positive).length := by
  unfold codeReply
  split_ifs <;> exact Int.natCast_nonneg _

theorem readEngine_length_nonneg {enableCache : Bool} {alloc : Alloc} {family : Family}
    {stored : Option CStr} {server after : Server F} {reply : Written}
    (hread : readEngine enableCache alloc family server stored = some (after, reply)) :
    0 ≤ reply.length := by
  rcases readEngine_cases hread with ⟨-, -, rfl⟩ | ⟨text, -, rfl, -⟩
  · exact Int.natCast_nonneg _
  · exact Int.natCast_nonneg _

theorem runKeyValue_length_nonneg {enableCache : Bool} {chance : Chance} {family : Family}
    {operation : Operation} {tokens : List CStr} {ns : CStr} {server after : Server F}
    {reply : Written}
    (hrun : runKeyValue enableCache chance family operation tokens ns server =
      some (after, reply)) : 0 ≤ reply.length := by
  unfold runKeyValue at hrun
  split at hrun
  · obtain ⟨-, rfl⟩ := Prod.mk.inj (Option.some.inj hrun)
    exact Int.natCast_nonneg _
  · cases executed_of_keyValueCommand hrun with
    | set engines code hset => exact codeReply_length_nonneg _ _
    | get hget =>
        rcases getCommand_cases hget with
          ⟨-, hread⟩ | ⟨-, _, _, -, ⟨text, -, -, rfl⟩ | ⟨-, hread⟩⟩
        · exact readEngine_length_nonneg hread
        · exact Int.natCast_nonneg _
        · exact readEngine_length_nonneg hread
    | del engines code hdel hdrop => exact codeReply_length_nonneg _ _
    | mod engines code hmod hdrop => exact codeReply_length_nonneg _ _
    | exist hexist => split <;> exact Int.natCast_nonneg _

section Alone

variable [CFloat F] {server : Server F} {message : Message F} {name : CStr} {command : Command}

/-- The reply to a message is a refusal, and the message changes nothing. -/
def Harmless (server : Server F) (message : Message F) : Prop :=
  HarmlessTo server (receive server message)

omit [CFloat F] in
theorem bytes_ne_nil_of_tokens (htokens : message.tokens = [name]) : message.bytes ≠ [] := by
  intro hbytes
  have hempty : message.tokens = [] := by
    rw [Message.tokens, Message.buffer, hbytes]
    rfl
  rw [hempty] at htokens
  cases htokens

/-- A key-value command that is sent alone. -/
theorem keyValue_alone (hrunning : Running server) (htokens : message.tokens = [name])
    {family : Family} {operation : Operation}
    (hcommand : findCommand name = some (.keyValue family operation)) :
    (Spared server message.ns (.keyValue family operation) → Harmless server message) ∧
      (message.env.alloc = allocOk → Harmless server message →
        Spared server message.ns (.keyValue family operation)) := by
  have hreceive : receive server message = runKeyValue true message.env.chance family operation
      [name] message.ns server := by
    rw [receive_eq (bytes_ne_nil_of_tokens htokens), htokens]
    simp only [head?_cons, Option.bind_some, hcommand, runCommand]
    cases hrun : runKeyValue true message.env.chance family operation [name] message.ns server with
    | none => rfl
    | some result =>
        have hlength := runKeyValue_length_nonneg hrun
        simp [hlength.not_gt]
  rw [Harmless, hreceive]
  cases hkey : storedKey operation [name] message.ns with
  | none =>
      rw [runKeyValue_idle hkey, harmlessTo_some]
      refine ⟨fun _ => ⟨?_, SameContents.refl server⟩, fun _ _ => ?_⟩
      · cases operation <;> decide
      · cases operation with
        | set => exact fun _ _ => trivial
        | mod => exact fun _ _ => trivial
        | get => exact spared_of_no_key hkey _
        | del => exact spared_of_no_key hkey _
        | exist => exact spared_of_no_key hkey _
  | some key =>
      have hnamed : makeNamespacedKey message.ns none = some key :=
        makeNamespacedKey_of_storedKey hkey
      have hspared : Spared server message.ns (.keyValue family operation) ↔
          SparedAt server key (.keyValue family operation) := by
        simp [Spared, hnamed]
      rw [runKeyValue_keyed hkey, hspared]
      cases operation with
      | set => simp [storedKey, Operation.takesValue] at hkey
      | mod => simp [storedKey, Operation.takesValue] at hkey
      | get => exact getCommand_harmless hrunning message.env.alloc family key
      | del =>
          have hiff := delCommand_harmless_iff hrunning message.env.chance family key
            (valueToken [name])
          exact ⟨hiff.2, fun _ => hiff.1⟩
      | exist =>
          have hiff := existCommand_harmless_iff hrunning message.env.chance family key
            (valueToken [name])
          exact ⟨hiff.2, fun _ => hiff.1⟩

/-- A vector command that is sent alone: `VSET` and `VSEARCH` count their arguments. -/
theorem vector_alone (htokens : message.tokens = [name])
    (hcommand : findCommand name = some command)
    (hvector : command = .vset ∨ command = .vget ∨ command = .vsearch ∨ command = .vdel) :
    Harmless server message ↔ Spared server message.ns command := by
  have hreceive : ∀ {after : Server F} {reply : Written}, 0 ≤ reply.length →
      runCommand true message.env command [name] message.ns server = some
        { server := after, ns := message.ns, disk := message.env.disk, spawned := none,
          reply := reply } → receive server message = some (after, reply) := by
    intro after reply hlength hrun
    rw [receive_eq (bytes_ne_nil_of_tokens htokens), htokens]
    simp [hcommand, hrun, hlength.not_gt]
  have herror : 0 ≤ (say "ERROR\r\n").length := by decide
  rcases hvector with rfl | rfl | rfl | rfl
  · rw [Harmless, hreceive herror rfl, harmlessTo_some]
    exact iff_of_true ⟨by decide, SameContents.refl server⟩ fun _ _ => trivial
  · rw [Harmless, hreceive (vgetCommand_length_nonneg _ _) rfl, harmlessTo_some]
    change Refusal (vgetCommand (makeNamespacedKey message.ns none) server.vector) ∧ _ ↔ _
    cases hkey : makeNamespacedKey message.ns none with
    | none => exact iff_of_true ⟨.inr rfl, SameContents.refl server⟩ (spared_of_no_key hkey _)
    | some key =>
        rw [refusal_vgetCommand_iff]
        simp [Spared, SparedAt, hkey, SameContents.refl]
  · rw [Harmless, hreceive herror rfl, harmlessTo_some]
    exact iff_of_true ⟨by decide, SameContents.refl server⟩ fun _ _ => trivial
  · rw [Harmless, hreceive (fits_vdelCommand _ _).2.1 rfl, harmlessTo_some]
    change Refusal (vdelCommand (makeNamespacedKey message.ns none) server.vector).2 ∧
      SameContents server { server with
        vector := (vdelCommand (makeNamespacedKey message.ns none) server.vector).1 } ↔ _
    cases hkey : makeNamespacedKey message.ns none with
    | none => exact iff_of_true ⟨.inr rfl, SameContents.refl server⟩ (spared_of_no_key hkey _)
    | some key =>
        have hspared : Spared server message.ns .vdel ↔
            ∀ row ∈ rows server.vector.index, row.key ≠ key := by
          simp [Spared, SparedAt, hkey]
        rw [hspared, refusal_vdelCommand_iff]
        refine ⟨And.left, fun habsent => ⟨habsent, ?_⟩⟩
        rw [vdelCommand_absent habsent]
        exact SameContents.refl server

/-- In every state that messages reach from a start with or without a dump, a command that
is sent alone is harmless exactly when what is stored under the key made for it spares it;
that it is only harmless then needs the memory that its read takes. -/
theorem lone_command_harmless {load : LoadChance} {disk : Disk} {start : Server F}
    (hinit : initKvengine F load disk = some start) {messages : List (Message F)}
    {replies : List Written} (hrun : run receive start messages = some (server, replies))
    (htokens : message.tokens = [name]) (hcommand : findCommand name = some command)
    (htakes : command.takesKey = true) :
    (Spared server message.ns command → Harmless server message) ∧
      (message.env.alloc = allocOk → Harmless server message →
        Spared server message.ns command) := by
  have hrunning : Running server := run_preserves
    (fun _ _ _ _ hstate hreceive => Running.receive hstate hreceive) (running_init hinit) hrun
  have hvector : command = .vset ∨ command = .vget ∨ command = .vsearch ∨ command = .vdel →
      (Spared server message.ns command → Harmless server message) ∧
        (message.env.alloc = allocOk → Harmless server message →
          Spared server message.ns command) := by
    intro hvector
    have hiff : Harmless server message ↔ Spared server message.ns command :=
      vector_alone htokens hcommand hvector
    exact ⟨hiff.2, fun _ => hiff.1⟩
  cases command with
  | keyValue family operation => exact keyValue_alone hrunning htokens hcommand
  | vset => exact hvector (by simp)
  | vget => exact hvector (by simp)
  | vsearch => exact hvector (by simp)
  | vdel => exact hvector (by simp)
  | _ => cases htakes

/-- A key of the namespace `a`, which is not the one made of a missing argument. -/
def ownKey : List (Message Float32) :=
  [Message.typed Float32 "a" "SET k v\r\n"]

theorem lone_command_harmless_ownKey :
    ∃ server replies, run receive (Server.fresh Float32) ownKey = some (server, replies) ∧
      Spared server (lit "a") (.keyValue .array .get) ∧
      Harmless server (Message.typed Float32 "a" "GET\r\n") := by
  have hevaluated : (run receive (Server.fresh Float32) ownKey).map (fun result =>
      (result.1.cache.peek result.1.cache.policy (lit "a:(null)"),
        held .array result.1.engines (lit "a:(null)"))) = some (none, none) := by
    decide +kernel
  obtain ⟨⟨server, replies⟩, hrun, hheld⟩ := Option.map_eq_some_iff.1 hevaluated
  obtain ⟨hcached, hheld⟩ := Prod.mk.inj hheld
  have hspared : Spared server (lit "a") (.keyValue .array .get) := by
    intro key hkey
    obtain rfl : lit "a:(null)" = key :=
      Option.some.inj ((by decide : some (lit "a:(null)") =
        makeNamespacedKey (lit "a") none).trans hkey)
    exact ⟨by simp [hcached], fun _ => ⟨by decide, .inl hheld⟩⟩
  have hinit : initKvengine Float32 LoadChance.quiet Disk.empty = some (Server.fresh Float32) :=
    initKvengine_eq LoadChance.quiet rfl
  exact ⟨server, replies, hrun, hspared,
    (lone_command_harmless hinit hrun (by decide : (Message.typed Float32 "a" "GET\r\n").tokens =
      [lit "GET"]) (by decide : findCommand (lit "GET") = some (.keyValue .array .get)) rfl).1
      hspared⟩

/-- The namespace `a` stores a key that is spelt like a missing one. -/
def nullKey : List (Message Float32) :=
  [Message.typed Float32 "a" "SET (null) v\r\n"]

/-- `DEL` without a key. -/
def loneDelete : Message Float32 :=
  Message.typed Float32 "a" "DEL\r\n"

/-- `DEL` alone deletes the key and says so. -/
theorem lone_delete_removes_key :
    loneDelete.tokens = [lit "DEL"] ∧
      ∃ server replies after reply,
        run receive (Server.fresh Float32) nullKey = some (server, replies) ∧
        textHeld .array server.engines (lit "a:(null)") = some (lit "v") ∧
        receive server loneDelete = some (after, reply) ∧
        textHeld .array after.engines (lit "a:(null)") = none ∧
        reply = say "OK\r\n" ∧ ¬Harmless server loneDelete := by
  refine ⟨by decide, ?_⟩
  have hevaluated : (run receive (Server.fresh Float32) nullKey).bind (fun result =>
      (receive result.1 loneDelete).map fun last =>
        (textHeld .array result.1.engines (lit "a:(null)"),
          textHeld .array last.1.engines (lit "a:(null)"), last.2)) =
      some (some (lit "v"), none, say "OK\r\n") := by
    decide +kernel
  obtain ⟨⟨server, replies⟩, hrun, hlast⟩ := Option.bind_eq_some_iff.1 hevaluated
  obtain ⟨⟨after, reply⟩, hreceive, hseen⟩ := Option.map_eq_some_iff.1 hlast
  obtain ⟨hbefore, hgone, rfl⟩ : _ ∧ _ ∧ reply = _ := by simpa using hseen
  refine ⟨server, replies, after, _, hrun, hbefore, hreceive, hgone, rfl, fun hharmless => ?_⟩
  rw [Harmless, hreceive, harmlessTo_some] at hharmless
  exact absurd hharmless.1 (by decide)

end Alone

end LiteMultiKV.Protocol
