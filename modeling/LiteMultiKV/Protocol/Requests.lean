import LiteMultiKV.Protocol.KeyValue

/-!
# Key-value requests

A request is a list of tokens from a connection, served in an environment.  The
tokens give a key-value command its stored key and its value, or leave it
without a key, and then it answers and does nothing.  What one served request
does to the engines, the cache and their coherence is stated once here, for
all families, operations and policies.
-/

namespace LiteMultiKV.Protocol

open Cache CText Families Files Memory Numeric LiteMultiKV.Vector

/-! ## Arguments from the tokens -/

section Tokens

variable {F : Type} {operation : Operation} {tokens : List CStr} {ns : CStr}

/-- The key a command works on, if its tokens give it one. -/
def storedKey (operation : Operation) (tokens : List CStr) (ns : CStr) : Option CStr :=
  if operation.takesValue && tokens.length < 3 then none else makeNamespacedKey ns tokens[1]?

/-- The reply to a command that has no key to work on. -/
def idleReply : Operation → Written
  | .set => say "ERROR: command requires key and value\r\n"
  | .mod => say "ERROR: command requires key and value\r\n"
  | .get => say "NO EXIST\r\n"
  | .del => say "ERROR\r\n"
  | .exist => say "NO EXIST\r\n"

theorem makeNamespacedKey_eq_none {key : Option CStr} (hnone : makeNamespacedKey ns key = none) :
    key = none := by
  unfold makeNamespacedKey at hnone
  split at hnone
  · exact hnone
  · cases hnone

theorem makeNamespacedKey_of_storedKey {key : CStr}
    (hkey : storedKey operation tokens ns = some key) :
    makeNamespacedKey ns tokens[1]? = some key := by
  unfold storedKey at hkey
  split at hkey
  · cases hkey
  · exact hkey

/-- Without a key a command answers and does nothing. -/
theorem runKeyValue_idle (hkey : storedKey operation tokens ns = none) (enableCache : Bool)
    (chance : Chance) (family : Family) (server : Server F) :
    runKeyValue enableCache chance family operation tokens ns server =
      some (server, idleReply operation) := by
  unfold storedKey at hkey
  split at hkey
  next hshort =>
    rw [runKeyValue, if_pos hshort]
    cases operation <;> simp [Operation.takesValue] at hshort <;> rfl
  next hlong =>
    rw [runKeyValue, if_neg hlong, hkey]
    cases operation with
    | set =>
        have htoken := makeNamespacedKey_eq_none hkey
        simp only [List.getElem?_eq_none_iff] at htoken
        simp [Operation.takesValue] at hlong
        omega
    | mod =>
        have htoken := makeNamespacedKey_eq_none hkey
        simp only [List.getElem?_eq_none_iff] at htoken
        simp [Operation.takesValue] at hlong
        omega
    | get => cases family <;> cases enableCache <;> rfl
    | del => cases family <;> cases enableCache <;> rfl
    | exist => cases family <;> rfl

theorem runKeyValue_keyed {key : CStr} (hkey : storedKey operation tokens ns = some key)
    (enableCache : Bool) (chance : Chance) (family : Family) (server : Server F) :
    runKeyValue enableCache chance family operation tokens ns server =
      keyValueCommand enableCache chance family operation server (some key)
        (valueToken tokens) := by
  unfold storedKey at hkey
  split at hkey
  next => cases hkey
  next hlong => rw [runKeyValue, if_neg hlong, hkey]

theorem valueToken_ne_none {key : CStr} (hkey : storedKey operation tokens ns = some key)
    (htakes : operation.takesValue = true) : valueToken tokens ≠ none := by
  unfold storedKey at hkey
  split at hkey
  next => cases hkey
  next hlong =>
    simp only [htakes, Bool.true_and, decide_eq_true_eq, Nat.not_lt] at hlong
    unfold valueToken
    split
    · simp
    · simp only [ne_eq, List.getElem?_eq_none_iff]
      omega

end Tokens

/-! ## Requests -/

/-- The tokens of a message, the namespace of its connection and what the
environment decides while it is served. -/
structure Request (F : Type) where
  env : Env F
  ns : CStr
  tokens : List CStr

section Requests

variable {F : Type}

def Request.command (request : Request F) : Option Command :=
  request.tokens.head?.bind findCommand

/-- The key a request works on, if it is a command with that operation. -/
def Request.key (request : Request F) (operation : Operation) : Option CStr :=
  storedKey operation request.tokens request.ns

/-- The reply to a request and the state after it. -/
def serve [CFloat F] (enableCache : Bool) (server : Server F) (request : Request F) :
    Option (Server F × Written) :=
  (kvsFilterProtocol enableCache request.env request.tokens request.ns server).map fun outcome =>
    (outcome.server, outcome.reply)

/-- A request as a function of the engines. -/
def Request.reference (request : Request F) (family : Family) (operation : Operation)
    (engines : Engines) : Option (Engines × Written) :=
  match request.key operation with
  | none => some (engines, idleReply operation)
  | some key =>
      referenceCommand request.env.chance family operation engines (some key)
        (valueToken request.tokens)

theorem Request.reference_keyed {request : Request F} {operation : Operation} {key : CStr}
    (hkey : request.key operation = some key) (family : Family) (engines : Engines) :
    request.reference family operation engines =
      referenceCommand request.env.chance family operation engines (some key)
        (valueToken request.tokens) := by
  rw [Request.reference, hkey]

/-- A request for an operation of a family, with every allocation successful and a
key that the engine can place. -/
structure Request.Regular (request : Request F) (family : Family) (operation : Operation) :
    Prop where
  command_eq : request.command = some (.keyValue family operation)
  alloc_eq : request.env.alloc = allocOk
  addressable : ∀ key, request.key operation = some key → Addressable family key

/-- What a served request leaves behind. -/
structure Served (family : Family) (operation : Operation) (key : Option CStr)
    (before : Server F) (engines : Engines) (cache : CacheManager F) : Prop where
  contained : Contained family before.engines engines
  kept : Kept before.cache cache
  active : Coherent family before.engines before.cache before.cache.policy →
    Coherent family engines cache before.cache.policy
  inactive : ∀ policy, policy ≠ before.cache.policy →
    (operation = .del ∨ operation = .mod →
      ∀ stored, key = some stored → before.cache.peek policy stored = none) →
    Coherent family before.engines before.cache policy → Coherent family engines cache policy

variable [CFloat F] {request : Request F} {family : Family} {operation : Operation}
variable {server : Server F}

theorem serve_keyValue (hcommand : request.command = some (.keyValue family operation))
    (enableCache : Bool) (server : Server F) :
    serve enableCache server request =
      runKeyValue enableCache request.env.chance family operation request.tokens request.ns
        server := by
  rw [Request.command] at hcommand
  simp only [serve, kvsFilterProtocol, hcommand, runCommand]
  cases hrun : runKeyValue enableCache request.env.chance family operation request.tokens
    request.ns server <;> rfl

/-- Without the cache a request is its function of the engines. -/
theorem serve_uncached (hcommand : request.command = some (.keyValue family operation))
    (server : Server F) :
    serve false server request =
      (request.reference family operation server.engines).map fun result =>
        ({ server with engines := result.1 }, result.2) := by
  rw [serve_keyValue hcommand, Request.reference]
  cases hkey : request.key operation with
  | none => rw [runKeyValue_idle hkey]; rfl
  | some key => rw [runKeyValue_keyed hkey, keyValueCommand_uncached]

/-- With the cache a request gives the same, if a hit agrees with the engine that is
read. -/
theorem serve_cached (hregular : request.Regular family operation)
    (hsound : Sound server.engines) (hvalid : server.cache.Valid)
    (hhit : operation = .get → ∀ key, request.key .get = some key →
      HitAgrees family server key) :
    ∃ engines cache reply,
      serve true server request =
        some ({ server with engines := engines, cache := cache }, reply) ∧
      request.reference family operation server.engines = some (engines, reply) ∧
      Served family operation (request.key operation) server engines cache := by
  rw [serve_keyValue hregular.command_eq, Request.reference]
  cases hkey : request.key operation with
  | none =>
      exact ⟨server.engines, server.cache, idleReply operation, runKeyValue_idle hkey true _ _ _,
        rfl, Contained.refl hsound family, Kept.refl hvalid, fun hcoherent => hcoherent,
        fun _ _ _ hcoherent => hcoherent⟩
  | some key =>
      have hchance : request.env.chance = ⟨allocOk, request.env.coins⟩ := by
        rw [Env.chance, hregular.alloc_eq]
      obtain ⟨engines, cache, reply, hcommand, hreference, htouched, hrefreshed⟩ :=
        keyValueCommand_cached hsound hvalid (hregular.addressable key hkey)
          (fun hget => hhit hget key (hget ▸ hkey)) request.env.coins
          (valueToken_ne_none hkey)
      rw [runKeyValue_keyed hkey, hchance]
      refine ⟨engines, cache, reply, hcommand, hreference, htouched.contained, hrefreshed.kept,
        Refreshed.coherent htouched hrefreshed, fun policy hinactive hclear =>
          Refreshed.coherent_inactive htouched hrefreshed hinactive fun hchange =>
            hclear hchange key rfl⟩

omit [CFloat F] in
/-- A request reads and writes the engine of its family only. -/
theorem Request.reference_agree {left right after : Engines} (hagree : Agree family left right)
    {reply : Written} (hleft : request.reference family operation left = some (after, reply)) :
    ∃ twin, request.reference family operation right = some (twin, reply) ∧
      Agree family after twin := by
  unfold Request.reference at hleft ⊢
  cases hkey : request.key operation with
  | none =>
      simp only [hkey, Option.some.injEq, Prod.mk.injEq] at hleft ⊢
      obtain ⟨rfl, rfl⟩ := hleft
      exact ⟨right, ⟨rfl, rfl⟩, hagree⟩
  | some key =>
      simp only [hkey] at hleft ⊢
      exact referenceCommand_agree hagree hleft

/-- What a request does to the dictionary of its family, and the reply. -/
def Request.onTexts (request : Request F) (operation : Operation) (texts : Texts) :
    Texts × Written :=
  match request.key operation with
  | none => (texts, idleReply operation)
  | some key => dictionaryStep operation key ((valueToken request.tokens).getD (lit "")) texts

omit [CFloat F] in
/-- With room, a request is its effect on the dictionary. -/
theorem Request.reference_onTexts {engines : Engines}
    (hregular : request.Regular family operation) (hsound : Sound engines)
    (hroom : ¬Full family engines) :
    ∃ after, request.reference family operation engines =
        some (after, (request.onTexts operation (textHeld family engines)).2) ∧
      textHeld family after = (request.onTexts operation (textHeld family engines)).1 := by
  unfold Request.reference Request.onTexts
  cases hkey : request.key operation with
  | none => exact ⟨engines, rfl, rfl⟩
  | some key =>
      have hargument : operation.takesValue = true →
          valueToken request.tokens = some ((valueToken request.tokens).getD (lit "")) := by
        intro htakes
        cases hvalue : valueToken request.tokens with
        | none => exact absurd hvalue (valueToken_ne_none hkey htakes)
        | some value => rfl
      have hchance : request.env.chance = ⟨allocOk, request.env.coins⟩ := by
        rw [Env.chance, hregular.alloc_eq]
      obtain ⟨after, hafter, -, htexts⟩ := referenceCommand_spec hsound
        (hregular.addressable key hkey) (fun _ => hroom) request.env.coins hargument
      rw [hchance]
      exact ⟨after, hafter, htexts⟩

/-- A server on which nothing has been stored. -/
def Server.start (F : Type) [CFloat F] (maxItems : ℤ) (policy : Policy) : Server F where
  engines := Engines.create
  vector := kvsVectorCreate F
  cache := kvsCacheSetPolicy (kvsCacheInit F maxItems) policy

theorem start_valid (maxItems : ℤ) (policy : Policy) :
    (Server.start F maxItems policy).cache.Valid :=
  kvsCacheSetPolicy_valid (kvsCacheInit_valid maxItems) policy

theorem start_coherent (maxItems : ℤ) (policy : Policy) (family : Family) (other : Policy) :
    Coherent family (Server.start F maxItems policy).engines
      (Server.start F maxItems policy).cache other := by
  intro key text htext
  have hnodes : (kvsCacheInit F maxItems).nodesOf other = [] :=
    kvsCacheInit_nodesOf maxItems other
  have hsame : (Server.start F maxItems policy).cache.nodesOf other =
      (kvsCacheInit F maxItems).nodesOf other := by
    cases other <;> rfl
  rw [CacheManager.peek, hsame, hnodes] at htext
  cases htext

/-- An environment in which nothing fails. -/
def Env.quiet (F : Type) [CFloat F] : Env F where
  alloc := allocOk
  coins := fun _ => false
  draws := fun _ => false
  mapped := true
  beyond := fun _ _ _ => (0.0, 0.0)
  save := { timestamp := 0, results := fun _ => 0 }
  disk := Disk.empty
  pid := 1
  mtime := 0

/-- A request with the given words. -/
def Request.typed (F : Type) [CFloat F] (ns : String) (words : List String) : Request F where
  env := Env.quiet F
  ns := lit ns
  tokens := words.map lit

theorem typed_regular {ns : String} {words : List String} (family : Family)
    (operation : Operation)
    (hcommand : (Request.typed F ns words).command = some (.keyValue family operation))
    (haddressable : ∀ key ∈ (Request.typed F ns words).key operation,
      Addressable family key) :
    (Request.typed F ns words).Regular family operation :=
  ⟨hcommand, rfl, haddressable⟩

end Requests

end LiteMultiKV.Protocol
