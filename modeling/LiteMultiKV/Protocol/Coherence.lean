import LiteMultiKV.Core.Run
import LiteMultiKV.Protocol.Requests

/-!
# Coherence of the shared cache

The four engines share one cache that knows keys but not engines, and a deletion
invalidates the structure of the active policy only.  Three results about whole
runs follow from the step lemma for one request.

* With several families, the replies of a family are those of its own commands
  alone, in every run in which each read finds in the cache nothing or the value
  of the engine it reads.
* With one family and any switches of the policy, the cache cannot be seen from
  the replies, in every run in which no inactive structure holds a value of a key
  that is deleted or modified.
* With one family and one policy, the cache is exact in every reachable state.
-/

namespace LiteMultiKV.Protocol

open Cache CText Dictionary Families Memory Numeric Run

variable {F : Type} [CFloat F]

/-! ## Several families -/

/-- The request is a command of the family. -/
def Request.ofFamily (family : Family) (request : Request F) : Bool :=
  match request.command with
  | some (.keyValue own _) => own = family
  | _ => false

/-- A read finds in the active structure nothing or the value of the engine that is
read. -/
def ReadsOwn (server : Server F) (request : Request F) : Prop :=
  match request.command with
  | some (.keyValue family .get) => ∀ key ∈ request.key .get, HitAgrees family server key
  | _ => True

instance (server : Server F) (request : Request F) : Decidable (ReadsOwn server request) := by
  unfold ReadsOwn
  split <;> infer_instance

/-- A mixed run and the run of one family alone, at the same point. -/
structure SameEngine (family : Family) (mixed alone : Server F) : Prop where
  agree : Agree family mixed.engines alone.engines
  mixed_sound : Sound mixed.engines
  alone_sound : Sound alone.engines
  mixed_valid : mixed.cache.Valid
  alone_valid : alone.cache.Valid
  coherent : Coherent family alone.engines alone.cache alone.cache.policy

section Families

variable {family own : Family} {operation : Operation} {request : Request F}
variable {mixed alone : Server F}

omit [CFloat F] in
theorem ReadsOwn.hitAgrees (hreads : ReadsOwn mixed request)
    (hcommand : request.command = some (.keyValue family operation)) :
    operation = .get → ∀ key, request.key .get = some key → HitAgrees family mixed key := by
  rintro rfl key hkey
  rw [ReadsOwn, hcommand] at hreads
  exact hreads key hkey

/-- Both runs serve a request of the family alike. -/
theorem SameEngine.serve_own (hsame : SameEngine family mixed alone)
    (hregular : request.Regular family operation) (hreads : ReadsOwn mixed request) :
    ∃ after twin reply, serve true mixed request = some (after, reply) ∧
      serve true alone request = some (twin, reply) ∧ SameEngine family after twin := by
  obtain ⟨engines, cache, reply, hserve, hreference, hserved⟩ :=
    serve_cached hregular hsame.mixed_sound hsame.mixed_valid
      (hreads.hitAgrees hregular.command_eq)
  obtain ⟨twinEngines, twinCache, twinReply, htwin, htwinReference, htwinServed⟩ :=
    serve_cached hregular hsame.alone_sound hsame.alone_valid
      fun _ key _ => hsame.coherent key
  obtain ⟨expected, hexpected, hagree⟩ := Request.reference_agree hsame.agree hreference
  rw [htwinReference, Option.some.injEq, Prod.mk.injEq] at hexpected
  obtain ⟨rfl, rfl⟩ := hexpected
  refine ⟨_, _, twinReply, hserve, htwin, hagree, hserved.contained.sound,
    htwinServed.contained.sound, hserved.kept.valid, htwinServed.kept.valid, ?_⟩
  simpa only [htwinServed.kept.policy_eq] using htwinServed.active hsame.coherent

/-- A request of another family does not matter to the engine of the family. -/
theorem SameEngine.serve_other (hsame : SameEngine family mixed alone) (hother : own ≠ family)
    (hregular : request.Regular own operation) (hreads : ReadsOwn mixed request) :
    ∃ after reply, serve true mixed request = some (after, reply) ∧
      SameEngine family after alone := by
  obtain ⟨engines, cache, reply, hserve, -, hserved⟩ :=
    serve_cached hregular hsame.mixed_sound hsame.mixed_valid
      (hreads.hitAgrees hregular.command_eq)
  have hagree := hserved.contained.others family hother.symm
  exact ⟨_, reply, hserve, hagree.trans hsame.agree, hserved.contained.sound,
    hsame.alone_sound, hserved.kept.valid, hsame.alone_valid, hsame.coherent⟩

theorem sameEngine_start (family : Family) (maxItems : ℤ) (policy : Policy) :
    SameEngine family (Server.start F maxItems policy) (Server.start F maxItems policy) :=
  ⟨Agree.refl family _, sound_create, sound_create, start_valid maxItems policy,
    start_valid maxItems policy, start_coherent maxItems policy family _⟩

/-- In a run in which every read finds nothing or its own engine's value in the cache,
the replies of a family are those of the run of its commands alone. -/
theorem family_replies_independent (maxItems : ℤ) (policy : Policy) (family : Family)
    (requests : List (Request F))
    (hregular : ∀ request ∈ requests, ∃ own operation, request.Regular own operation)
    (hreads : Along (serve true) ReadsOwn (Server.start F maxItems policy) requests) :
    ∃ final replies alone,
      run (serve true) (Server.start F maxItems policy) requests = some (final, replies) ∧
      run (serve true) (Server.start F maxItems policy)
          (requests.filter (Request.ofFamily family)) =
        some (alone, answersTo (Request.ofFamily family) requests replies) := by
  refine run_filter ?_ ?_ (sameEngine_start family maxItems policy)
    (hreads.and_forall hregular)
  · rintro mixed alone request hsame ⟨hown, own, operation, hrequest⟩ hkeep
    obtain rfl : own = family := by
      simpa [Request.ofFamily, hrequest.command_eq] using hkeep
    exact hsame.serve_own hrequest hown
  · rintro mixed alone request hsame ⟨hown, own, operation, hrequest⟩ hdrop
    have hother : own ≠ family := by
      simpa [Request.ofFamily, hrequest.command_eq] using hdrop
    exact hsame.serve_other hother hrequest hown

/-- Two families that use keys of their own. -/
def ownKeys : List (Request Float32) :=
  [Request.typed Float32 "default" ["SET", "k", "a"],
    Request.typed Float32 "default" ["HSET", "j", "b"],
    Request.typed Float32 "default" ["GET", "k"],
    Request.typed Float32 "default" ["HGET", "j"]]

theorem family_replies_independent_ownKeys :
    ∃ final replies alone,
      run (serve true) (Server.start Float32 1000 .arc) ownKeys = some (final, replies) ∧
      run (serve true) (Server.start Float32 1000 .arc)
          (ownKeys.filter (Request.ofFamily .hash)) =
        some (alone, answersTo (Request.ofFamily .hash) ownKeys replies) := by
  refine family_replies_independent 1000 .arc .hash ownKeys ?_ (by decide +kernel)
  simp only [ownKeys, List.forall_mem_cons]
  exact ⟨⟨_, _, typed_regular .array .set (by decide) (by decide)⟩,
    ⟨_, _, typed_regular .hash .set (by decide) (by decide)⟩,
    ⟨_, _, typed_regular .array .get (by decide) (by decide)⟩,
    ⟨_, _, typed_regular .hash .get (by decide) (by decide)⟩, by simp⟩

/-- Two families that store different values under one key. -/
def sharedKey : List (Request Float32) :=
  [Request.typed Float32 "default" ["SET", "k", "a"],
    Request.typed Float32 "default" ["RSET", "k", "b"],
    Request.typed Float32 "default" ["GET", "k"],
    Request.typed Float32 "default" ["RGET", "k"]]

/-- `RGET` answers with the value that `GET` has cached. -/
theorem rbtree_read_answers_array_value :
    (run (serve true) (Server.start Float32 1000 .lru) sharedKey).map Prod.snd =
        some [say "OK\r\n", say "OK\r\n", say "a\r\n", say "a\r\n"] ∧
      (run (serve true) (Server.start Float32 1000 .lru)
          (sharedKey.filter (Request.ofFamily .rbtree))).map Prod.snd =
        some [say "OK\r\n", say "b\r\n"] := by
  decide +kernel

end Families

/-! ## Switches of the policy -/

/-- The request is `POLICY SET` with the name of a policy. -/
def Request.switch (request : Request F) : Option Policy :=
  match request.command, request.tokens[1]?, request.tokens[2]? with
  | some .policy, some word, some name =>
      if strcmp word (lit "SET") = 0 then policyArgument name else none
  | _, _, _ => none

/-- No inactive structure holds a value of a key that is deleted or modified. -/
def NothingStale (server : Server F) (request : Request F) : Prop :=
  match request.command with
  | some (.keyValue _ operation) =>
      operation = .del ∨ operation = .mod → ∀ key ∈ request.key operation,
        ∀ policy, policy ≠ server.cache.policy → server.cache.peek policy key = none
  | _ => True

instance (server : Server F) (request : Request F) :
    Decidable (NothingStale server request) := by
  unfold NothingStale
  split <;> infer_instance

/-- The reply as far as a key-value command is concerned. -/
def keyValueReply (request : Request F) (reply : Written) : Option Written :=
  match request.command with
  | some (.keyValue _ _) => some reply
  | _ => none

/-- The reply to a read is what the engine holds. -/
def ReadsHeld (family : Family) (server : Server F) (request : Request F) (reply : Written) :
    Prop :=
  request.command = some (.keyValue family .get) → ∀ key ∈ request.key .get,
    reply = match textHeld family server.engines key with
      | none => say "NO EXIST\r\n"
      | some value => showValue value

/-- A server with the cache and one without it, at the same point. -/
structure Transparent (family : Family) (cached plain : Server F) : Prop where
  engines_eq : cached.engines = plain.engines
  sound : Sound cached.engines
  valid : cached.cache.Valid
  coherent : ∀ policy, Coherent family cached.engines cached.cache policy

section Switches

variable {family : Family} {operation : Operation} {request : Request F}
variable {cached plain server : Server F}

theorem serve_switch {policy : Policy} (hswitch : request.switch = some policy)
    (server : Server F) :
    (∃ reply, serve true server request =
        some ({ server with cache := kvsCacheSetPolicy server.cache policy }, reply)) ∧
      (∃ reply, serve false server request = some (server, reply)) ∧
      request.command = some .policy := by
  unfold Request.switch at hswitch
  split at hswitch
  next word name hcommand hword hname =>
    split at hswitch
    next hset =>
      have hhead : request.tokens.head?.bind findCommand = some .policy := hcommand
      refine ⟨?_, ?_, hcommand⟩
      · simp [serve, kvsFilterProtocol, hhead, runCommand, cacheCommand, policyCommand, hword,
          hname, hset, hswitch]
      · simp [serve, kvsFilterProtocol, hhead, runCommand]
    next => cases hswitch
  next => cases hswitch

/-- Both servers answer the request, to a client alike, and are alike afterwards. -/
def InStep (family : Family) (cached plain : Server F) (request : Request F) : Prop :=
  ∃ after reply plainAfter plainReply, serve true cached request = some (after, reply) ∧
    serve false plain request = some (plainAfter, plainReply) ∧
    keyValueReply request reply = keyValueReply request plainReply ∧
    Transparent family after plainAfter ∧ ReadsHeld family cached request reply

theorem Transparent.step_switch (hsame : Transparent family cached plain) {policy : Policy}
    (hswitch : request.switch = some policy) : InStep family cached plain request := by
  obtain ⟨⟨reply, hserve⟩, -, hcommand⟩ := serve_switch hswitch cached
  obtain ⟨-, ⟨plainReply, hplain⟩, -⟩ := serve_switch hswitch plain
  refine ⟨_, reply, _, plainReply, hserve, hplain, by simp [keyValueReply, hcommand],
    ⟨hsame.engines_eq, hsame.sound, kvsCacheSetPolicy_valid hsame.valid policy,
      fun other => ?_⟩, ?_⟩
  · intro key text htext
    apply hsame.coherent other key text
    cases other <;> exact htext
  · intro hread
    rw [hcommand] at hread
    cases hread

theorem Transparent.step_keyValue (hsame : Transparent family cached plain)
    (hregular : request.Regular family operation) (hstale : NothingStale cached request) :
    InStep family cached plain request := by
  obtain ⟨engines, cache, reply, hserve, hreference, hserved⟩ :=
    serve_cached hregular hsame.sound hsame.valid fun _ key _ => hsame.coherent _ key
  refine ⟨_, reply, { plain with engines := engines }, reply, hserve, ?_, rfl,
    ⟨rfl, hserved.contained.sound, hserved.kept.valid, fun policy => ?_⟩, ?_⟩
  · rw [serve_uncached hregular.command_eq, ← hsame.engines_eq, hreference]
    rfl
  · by_cases hactive : policy = cached.cache.policy
    · subst hactive
      exact hserved.active (hsame.coherent _)
    · apply hserved.inactive policy hactive _ (hsame.coherent policy)
      rw [NothingStale, hregular.command_eq] at hstale
      exact fun hchange key hkey => hstale hchange key hkey policy hactive
  · intro hread key hkey
    rw [hregular.command_eq, Option.some.injEq, Command.keyValue.injEq] at hread
    obtain ⟨-, rfl⟩ := hread
    rw [Request.reference_keyed hkey, referenceCommand_get hsame.sound
      (hregular.addressable key hkey) _ (lit ""), Option.some.injEq, Prod.mk.injEq] at hreference
    rw [← hreference.2]
    cases htext : textHeld family cached.engines key with
    | none => simp [dictionaryStep, htext]
    | some value => simp [dictionaryStep, htext]

theorem transparent_start (family : Family) (maxItems : ℤ) (policy : Policy) :
    Transparent family (Server.start F maxItems policy) (Server.start F maxItems policy) :=
  ⟨rfl, sound_create, start_valid maxItems policy, start_coherent maxItems policy family⟩

/-- In a run of one family's commands and switches of the policy that never deletes or
modifies a key which an inactive structure still holds, every read answers what the
engine holds, and every reply is the one the server gives without the cache. -/
theorem cache_transparent_across_policies (maxItems : ℤ) (policy : Policy) (family : Family)
    (requests : List (Request F))
    (hrequests : ∀ request ∈ requests,
      (∃ operation, request.Regular family operation) ∨ ∃ other, request.switch = some other)
    (hstale : Along (serve true) NothingStale (Server.start F maxItems policy) requests) :
    Every (serve true) (ReadsHeld family) (Server.start F maxItems policy) requests ∧
      ∃ final replies plain plainReplies,
        run (serve true) (Server.start F maxItems policy) requests = some (final, replies) ∧
        run (serve false) (Server.start F maxItems policy) requests =
          some (plain, plainReplies) ∧
        List.zipWith keyValueReply requests replies =
          List.zipWith keyValueReply requests plainReplies ∧
        final.engines = plain.engines := by
  have hstep : ∀ (cached plain : Server F) (request : Request F),
      Transparent family cached plain →
      (NothingStale cached request ∧ ((∃ operation, request.Regular family operation) ∨
        ∃ other, request.switch = some other)) →
      InStep family cached plain request := by
    rintro cached plain request hsame ⟨hclear, ⟨operation, hregular⟩ | ⟨other, hswitch⟩⟩
    · exact hsame.step_keyValue hregular hclear
    · exact hsame.step_switch hswitch
  have hstart := transparent_start (F := F) family maxItems policy
  have halong := hstale.and_forall hrequests
  constructor
  · refine (run_invariant (fun server => Transparent family server server) ?_ hstart halong).2
    intro server request hsame hrequest
    obtain ⟨after, reply, plain, plainReply, hserve, -, -, hafter, hread⟩ :=
      hstep server server request hsame hrequest
    exact ⟨after, reply, hserve, ⟨rfl, hafter.sound, hafter.valid, hafter.coherent⟩, hread⟩
  · obtain ⟨final, replies, plain, plainReplies, hrun, hplain, hviews, hfinal⟩ :=
      run_simulation (fun cached plain request hsame hrequest =>
        let ⟨after, reply, plainAfter, plainReply, hserve, hplain, hview, hafter, _⟩ :=
          hstep cached plain request hsame hrequest
        ⟨after, reply, plainAfter, plainReply, hserve, hplain, hview, hafter⟩) hstart halong
    exact ⟨final, replies, plain, plainReplies, hrun, hplain, hviews, hfinal.engines_eq⟩

/-- Each policy caches a key of its own; the one of the second policy is modified under it,
and both are read after the switch back. -/
def switchedBack : List (Request Float32) :=
  [Request.typed Float32 "default" ["SET", "k", "a"],
    Request.typed Float32 "default" ["GET", "k"],
    Request.typed Float32 "default" ["POLICY", "SET", "lfu"],
    Request.typed Float32 "default" ["SET", "j", "b"],
    Request.typed Float32 "default" ["GET", "j"],
    Request.typed Float32 "default" ["MOD", "j", "c"],
    Request.typed Float32 "default" ["POLICY", "SET", "lru"],
    Request.typed Float32 "default" ["GET", "j"],
    Request.typed Float32 "default" ["GET", "k"]]

theorem cache_transparent_across_policies_switchedBack :
    Every (serve true) (ReadsHeld .array) (Server.start Float32 1000 .lru) switchedBack ∧
      ∃ final replies plain plainReplies,
        run (serve true) (Server.start Float32 1000 .lru) switchedBack = some (final, replies) ∧
        run (serve false) (Server.start Float32 1000 .lru) switchedBack =
          some (plain, plainReplies) ∧
        List.zipWith keyValueReply switchedBack replies =
          List.zipWith keyValueReply switchedBack plainReplies ∧
        final.engines = plain.engines := by
  refine cache_transparent_across_policies 1000 .lru .array switchedBack ?_ (by decide +kernel)
  simp only [switchedBack, List.forall_mem_cons]
  exact ⟨.inl ⟨_, typed_regular .array .set (by decide) (by decide)⟩,
    .inl ⟨_, typed_regular .array .get (by decide) (by decide)⟩, .inr ⟨.lfu, by decide⟩,
    .inl ⟨_, typed_regular .array .set (by decide) (by decide)⟩,
    .inl ⟨_, typed_regular .array .get (by decide) (by decide)⟩,
    .inl ⟨_, typed_regular .array .mod (by decide) (by decide)⟩, .inr ⟨.lru, by decide⟩,
    .inl ⟨_, typed_regular .array .get (by decide) (by decide)⟩,
    .inl ⟨_, typed_regular .array .get (by decide) (by decide)⟩, by simp⟩

/-- A value is cached under one policy and modified under another. -/
def modifiedAway : List (Request Float32) :=
  [Request.typed Float32 "default" ["SET", "k", "a"],
    Request.typed Float32 "default" ["GET", "k"],
    Request.typed Float32 "default" ["POLICY", "SET", "lfu"],
    Request.typed Float32 "default" ["MOD", "k", "b"],
    Request.typed Float32 "default" ["POLICY", "SET", "lru"],
    Request.typed Float32 "default" ["GET", "k"]]

/-- After the switch back, `GET` answers the value from before the modification. -/
theorem read_answers_stale_value :
    (run (serve true) (Server.start Float32 1000 .lru) modifiedAway).map (fun result =>
        (result.2.getLast?, textHeld .array result.1.engines (lit "k"))) =
        some (some (say "a\r\n"), some (lit "b")) ∧
      (run (serve false) (Server.start Float32 1000 .lru) modifiedAway).map (fun result =>
        result.2.getLast?) = some (some (say "b\r\n")) := by
  decide +kernel

end Switches

/-! ## One policy -/

/-- The structure of a policy caches, for every key, at most one value; it is the
engine's, and a deletion takes out the node that carries it and no other. -/
structure Exact (family : Family) (policy : Policy) (server : Server F) : Prop where
  policy_eq : server.cache.policy = policy
  unique : ∀ key, ((server.cache.nodesOf policy).filter (EvictNode.carries key)).length ≤ 1
  current : ∀ node ∈ server.cache.nodesOf policy, ∀ key value, node.key = some key →
    node.value = some value → textHeld family server.engines key = some value
  removed : ∀ node ∈ server.cache.nodesOf policy, ∀ key, node.carries key = true →
    ∃ after, kvsCacheDel server.cache (some key) = some (after, 0) ∧
      (server.cache.nodesOf policy).Perm (node :: after.nodesOf policy)

/-- The invariant of a run of one family under one policy. -/
structure Settled (family : Family) (policy : Policy) (server : Server F) : Prop where
  sound : Sound server.engines
  valid : server.cache.Valid
  policy_eq : server.cache.policy = policy
  coherent : Coherent family server.engines server.cache policy

omit [CFloat F] in
theorem Settled.exact {family : Family} {policy : Policy} {server : Server F}
    (hsettled : Settled family policy server) : Exact family policy server where
  policy_eq := hsettled.policy_eq
  unique := length_filter_carries (hsettled.valid.nodupKeys policy)
  current := by
    intro node hnode key value hkey hvalue
    apply hsettled.coherent key value
    rw [CacheManager.peek, denote_eq_some_iff (hsettled.valid.nodupKeys policy)]
    exact mem_cachedOf.2 ⟨node, hnode, hkey, hvalue⟩
  removed := by
    intro node hnode key hcarries
    obtain rfl := hsettled.policy_eq
    obtain ⟨after, hdel, -, hperm⟩ := kvsCacheDel_removes hsettled.valid hnode hcarries
    exact ⟨after, hdel, hperm⟩

theorem Settled.step {family : Family} {policy : Policy} {server : Server F}
    {request : Request F} {operation : Operation} (hsettled : Settled family policy server)
    (hregular : request.Regular family operation) :
    ∃ after reply, serve true server request = some (after, reply) ∧
      Settled family policy after := by
  obtain rfl := hsettled.policy_eq
  obtain ⟨engines, cache, reply, hserve, -, hserved⟩ :=
    serve_cached hregular hsettled.sound hsettled.valid fun _ key _ => hsettled.coherent key
  exact ⟨_, reply, hserve, hserved.contained.sound, hserved.kept.valid, hserved.kept.policy_eq,
    hserved.active hsettled.coherent⟩

theorem settled_start (family : Family) (maxItems : ℤ) (policy : Policy) :
    Settled family policy (Server.start F maxItems policy) :=
  ⟨sound_create, start_valid maxItems policy, rfl, start_coherent maxItems policy family _⟩

/-- Every run of one family's commands under one policy has a result, and the cache is
exact in the state it reaches. -/
theorem cache_exact_of_run (maxItems : ℤ) (policy : Policy) (family : Family)
    (requests : List (Request F))
    (hregular : ∀ request ∈ requests, ∃ operation, request.Regular family operation) :
    ∃ final replies,
      run (serve true) (Server.start F maxItems policy) requests = some (final, replies) ∧
      Exact family policy final := by
  have hstep : ∀ (server : Server F) (request : Request F), Settled family policy server →
      (∃ operation, request.Regular family operation) →
      ∃ after reply, serve true server request = some (after, reply) ∧
        Settled family policy after ∧ True := by
    rintro server request hsettled ⟨operation, hrequest⟩
    obtain ⟨after, reply, hserve, hafter⟩ := hsettled.step hrequest
    exact ⟨after, reply, hserve, hafter, trivial⟩
  obtain ⟨⟨final, replies, hrun, hfinal⟩, -⟩ := run_invariant (Settled family policy) hstep
    (settled_start family maxItems policy) (along_of_forall (fun _ => hregular) _)
  exact ⟨final, replies, hrun, hfinal.exact⟩

/-- A cache of one item, so that every miss evicts and leaves a ghost. -/
def evicting : List (Request Float32) :=
  [Request.typed Float32 "default" ["SET", "k", "a"],
    Request.typed Float32 "default" ["SET", "j", "b"],
    Request.typed Float32 "default" ["GET", "k"],
    Request.typed Float32 "default" ["GET", "j"],
    Request.typed Float32 "default" ["GET", "k"],
    Request.typed Float32 "default" ["MOD", "k", "c"]]

theorem cache_exact_of_run_evicting :
    ∃ final replies, run (serve true) (Server.start Float32 1 .arc) evicting =
        some (final, replies) ∧ Exact .array .arc final := by
  refine cache_exact_of_run 1 .arc .array evicting ?_
  simp only [evicting, List.forall_mem_cons]
  exact ⟨⟨_, typed_regular .array .set (by decide) (by decide)⟩,
    ⟨_, typed_regular .array .set (by decide) (by decide)⟩,
    ⟨_, typed_regular .array .get (by decide) (by decide)⟩,
    ⟨_, typed_regular .array .get (by decide) (by decide)⟩,
    ⟨_, typed_regular .array .get (by decide) (by decide)⟩,
    ⟨_, typed_regular .array .mod (by decide) (by decide)⟩, by simp⟩

end LiteMultiKV.Protocol
