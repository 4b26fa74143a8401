import LiteMultiKV.Core.Sessions
import LiteMultiKV.Protocol.Boundary
import LiteMultiKV.Protocol.Coherence
import LiteMultiKV.Protocol.Replies

/-!
# The command interface as a service

To the network the command interface is a service: the server is the store, the
namespace of a connection is its session, and a message is a request.  What a
connection is sent lies in the bytes that the command has written for it.

For the key-value commands of one family, and the commands that choose a
namespace, this service is a simpler one whose store is a dictionary.  The
cache, the engine and the allocations behind it cannot be seen.
-/

namespace LiteMultiKV.Protocol

open List LiteMultiKV.Array Cache CText Dictionary Families
open LiteMultiKV.Hash (Ascii)
open Memory Numeric LiteMultiKV.Sessions LiteMultiKV.Skip

/-! ## The bytes of a reply -/

/-- The bytes a reply reports, of those that were written. -/
def replyText (reply : Written) : List Byte :=
  reply.buffer.take reply.length.toNat

/-- A reply reports a number of bytes, and those of them that the buffer has room for were
written. -/
structure Covered (reply : Written) : Prop where
  nonneg : 0 ≤ reply.length
  written : min reply.length responseMaxLen ≤ reply.buffer.length

theorem covered_sprintf (text : List Byte) : Covered (sprintf text) :=
  ⟨Int.natCast_nonneg _, (min_le_left _ _).trans (by simp [sprintf])⟩

theorem covered_say (text : String) : Covered (say text) :=
  covered_sprintf _

theorem covered_snprintf (text : List Byte) : Covered (snprintf responseMaxLen text) := by
  refine ⟨Int.natCast_nonneg _, ?_⟩
  simp only [snprintf, responseMaxLen, OfNat.ofNat_ne_zero, if_false, length_append, length_take,
    length_singleton]
  omega

theorem covered_snprintfAt {written : Written} (hcovered : Covered written) (text : List Byte) :
    Covered (snprintfAt responseMaxLen written text) := by
  obtain ⟨offset, hoffset⟩ := Int.eq_ofNat_of_zero_le hcovered.nonneg
  refine ⟨Int.add_nonneg hcovered.nonneg (Int.natCast_nonneg _), ?_⟩
  have hwritten := hcovered.written
  change min (written.length + (text.length : ℤ)) responseMaxLen ≤
    ((writeAt written.buffer written.length.toNat
      (snprintf (((responseMaxLen : ℤ) - written.length) % 2 ^ 64).toNat text).buffer).length : ℤ)
  rw [length_writeAt, hoffset, Int.toNat_natCast]
  rw [hoffset] at hwritten
  by_cases hroom : offset < responseMaxLen
  · have hsize : (((responseMaxLen : ℤ) - offset) % 2 ^ 64).toNat = responseMaxLen - offset := by
      simp only [responseMaxLen] at hroom ⊢
      omega
    rw [hsize, snprintf, if_neg (by omega)]
    simp only [length_append, length_take, length_singleton]
    omega
  · omega

theorem covered_codeReply (code : ℤ) (positive : String) : Covered (codeReply code positive) := by
  unfold codeReply
  split
  · exact covered_say _
  · split <;> exact covered_say _

section Covered

variable {F : Type} {server after : Server F} {reply : Written}

theorem covered_getCommand {enableCache : Bool} {alloc : Alloc} {family : Family}
    {stored : Option CStr}
    (hget : getCommand enableCache alloc family server stored = some (after, reply)) :
    Covered reply := by
  have hread : ∀ {server : Server F},
      readEngine enableCache alloc family server stored = some (after, reply) →
      Covered reply := by
    intro server hread
    rcases readEngine_cases hread with ⟨-, -, rfl⟩ | ⟨text, -, rfl, -⟩
    · exact covered_say _
    · exact covered_snprintf _
  rcases getCommand_cases hget with ⟨-, hengine⟩ | ⟨-, _, _, -, ⟨text, -, -, rfl⟩ | ⟨-, hengine⟩⟩
  · exact hread hengine
  · exact covered_snprintf _
  · exact hread hengine

theorem covered_runKeyValue {enableCache : Bool} {chance : Chance} {family : Family}
    {operation : Operation} {tokens : List CStr} {ns : CStr}
    (hrun : runKeyValue enableCache chance family operation tokens ns server =
      some (after, reply)) : Covered reply := by
  unfold runKeyValue at hrun
  split at hrun
  · obtain ⟨-, rfl⟩ := Prod.mk.inj (Option.some.inj hrun)
    exact covered_say _
  · cases executed_of_keyValueCommand hrun with
    | set engines code hset => exact covered_codeReply _ _
    | get hget => exact covered_getCommand hget
    | del engines code hdel hdrop => exact covered_codeReply _ _
    | mod engines code hmod hdrop => exact covered_codeReply _ _
    | exist hexist => split <;> exact covered_say _

theorem covered_setNamespace (name : CStr) : Covered (setNamespace name).2 :=
  covered_sprintf _

theorem covered_namespaceCommand (tokens : List CStr) (ns : CStr) :
    Covered (namespaceCommand tokens ns).2 := by
  unfold namespaceCommand
  split
  · exact covered_sprintf _
  · split
    · exact covered_say _
    · exact covered_setNamespace _
  · split
    · exact covered_setNamespace _
    · split
      · exact covered_say _
      · exact covered_sprintf _

theorem covered_policyCommand (tokens : List CStr) (cache : CacheManager F) :
    Covered (policyCommand tokens cache).2 := by
  unfold policyCommand
  split
  · split
    · split <;> exact covered_sprintf _
    · exact covered_sprintf _
  · exact covered_sprintf _

variable [CFloat F]

theorem covered_searchReply (vector : Vector.KvsVector F) (found : List (ℕ × F)) :
    Covered (searchReply vector found) := by
  have hrows : ∀ (written : Written), Covered written →
      Covered (found.foldl (fun written item =>
        snprintfAt responseMaxLen written (resultRow vector item)) written) := by
    induction found with
    | nil => exact fun _ hcovered => hcovered
    | cons item found ih => exact fun written hcovered => ih _ (covered_snprintfAt hcovered _)
  exact hrows _ (covered_snprintf _)

theorem covered_runCommand {env : Env F} {command : Command} {tokens : List CStr} {ns : CStr}
    {outcome : Outcome F}
    (hrun : runCommand true env command tokens ns server = some outcome) :
    Covered outcome.reply := by
  cases command with
  | keyValue family operation =>
      simp only [runCommand, Option.bind_eq_bind, Option.bind_eq_some_iff, Option.pure_def,
        Option.some.injEq] at hrun
      obtain ⟨⟨after, reply⟩, hrun, rfl⟩ := hrun
      exact covered_runKeyValue hrun
  | vset =>
      simp only [runCommand, Option.bind_eq_bind, Option.bind_eq_some_iff, Option.pure_def,
        Option.some.injEq] at hrun
      obtain ⟨⟨vector, reply⟩, hset, rfl⟩ := hrun
      unfold vsetCommand at hset
      split at hset
      · simp only [Option.bind_eq_bind, Option.bind_eq_some_iff, Option.pure_def,
          Option.some.injEq, Prod.mk.injEq] at hset
        obtain ⟨_, -, _, -, -, rfl⟩ := hset
        dsimp only
        split <;> exact covered_say _
      · obtain ⟨-, rfl⟩ := Prod.mk.inj (Option.some.inj hset)
        exact covered_say _
  | vget =>
      obtain rfl := Option.some.inj hrun
      change Covered (vgetCommand _ _)
      unfold vgetCommand
      split
      · exact covered_say _
      · exact covered_snprintf _
  | vsearch =>
      simp only [runCommand, Option.bind_eq_bind, Option.bind_eq_some_iff, Option.pure_def,
        Option.some.injEq] at hrun
      obtain ⟨reply, hsearch, rfl⟩ := hrun
      unfold vsearchCommand at hsearch
      split at hsearch
      · simp only [Option.bind_eq_bind, Option.bind_eq_some_iff, Option.pure_def,
          Option.some.injEq] at hsearch
        obtain ⟨_, -, _, -, _, -, rfl⟩ := hsearch
        dsimp only
        split
        · exact covered_say _
        · exact covered_searchReply _ _
      · obtain rfl := Option.some.inj hsearch
        exact covered_say _
  | vdel =>
      obtain rfl := Option.some.inj hrun
      change Covered (vdelCommand _ _).2
      unfold vdelCommand
      dsimp only
      split <;> exact covered_say _
  | vcount =>
      obtain rfl := Option.some.inj hrun
      exact covered_sprintf _
  | policy =>
      obtain rfl := Option.some.inj hrun
      exact covered_policyCommand tokens server.cache
  | stats =>
      obtain rfl := Option.some.inj hrun
      exact covered_sprintf _
  | recommend =>
      obtain rfl := Option.some.inj hrun
      exact covered_sprintf _
  | ns =>
      obtain rfl := Option.some.inj hrun
      exact covered_namespaceCommand tokens ns
  | save =>
      simp only [runCommand, saveCommand, Option.bind_eq_bind, Option.bind_eq_some_iff,
        Option.pure_def, Option.some.injEq] at hrun
      obtain ⟨⟨disk, reply⟩, ⟨_, -, hreply⟩, rfl⟩ := hrun
      obtain ⟨-, rfl⟩ := Prod.mk.inj hreply
      dsimp only
      split
      · exact covered_sprintf _
      · exact covered_say _
  | bgsave =>
      obtain rfl := Option.some.inj hrun
      change Covered (bgsaveCommand env server).2
      unfold bgsaveCommand
      split
      · exact covered_sprintf _
      · exact covered_say _
  | lastsave =>
      obtain rfl := Option.some.inj hrun
      change Covered (lastsaveCommand env)
      unfold lastsaveCommand
      split
      · exact covered_sprintf _
      · exact covered_say _

theorem covered_kvsFilterProtocol {env : Env F} {tokens : List CStr} {ns : CStr}
    {outcome : Outcome F}
    (hrun : kvsFilterProtocol true env tokens ns server = some outcome) :
    Covered outcome.reply := by
  unfold kvsFilterProtocol at hrun
  split at hrun
  · exact covered_runCommand hrun
  · obtain rfl := Option.some.inj hrun
    exact covered_say _

/-- `kvs_protocol` adds nothing to what its tokens give: no command reports an error to it. -/
theorem kvsProtocol_eq_filter (env : Env F) (msg : List Byte) {length : ℕ} (hlength : 0 < length)
    (ns : CStr) (server : Server F) :
    kvsProtocol env msg length ns server =
      kvsFilterProtocol true env (tokenStrings (stripLines length msg)) ns server := by
  rw [kvsProtocol, if_neg (by omega), Int.toNat_natCast]
  cases htokens : tokenStrings (stripLines length msg) with
  | nil => rfl
  | cons token tokens =>
      simp only [Option.bind_eq_bind, Option.pure_def]
      cases hfilter : kvsFilterProtocol true env (token :: tokens) ns server with
      | none => rfl
      | some outcome =>
          rw [Option.bind_some, if_neg (not_lt.2 (covered_kvsFilterProtocol hfilter).nonneg)]

end Covered

/-! ## The service -/

/-- The bytes of one message, and what the environment decides while it is served. -/
structure Packet (F : Type) where
  env : Env F
  bytes : List Byte

/-- The tokens of a message with a NUL byte behind it. -/
def Packet.tokens {F : Type} (packet : Packet F) : List CStr :=
  tokenStrings (stripLines packet.bytes.length (packet.bytes ++ [0]))

/-- The command interface; a reply that overruns its buffer has no result. -/
def commandService (F : Type) [CFloat F] : Service (Server F) CStr (Packet F) (List Byte) where
  opening := lit "default"
  serve server ns packet := do
    let outcome ← kvsProtocol packet.env (packet.bytes ++ [0]) packet.bytes.length ns server
    if outcome.reply.buffer.length ≤ bufferLength then
      return (outcome.server, outcome.ns, replyText outcome.reply)
    else none

/-- No room for another pair: only the array engine has a capacity. -/
def Crowded (family : Family) (texts : Texts) : Prop :=
  family = .array ∧ kvsArraySize ≤ {key | texts key ≠ none}.ncard

open Classical in
/-- What an operation does to a dictionary with the capacity of a family's engine: a crowded
one refuses every new pair. -/
noncomputable def boundedStep (family : Family) (operation : Operation) (key value : CStr)
    (texts : Texts) : Texts × Written :=
  if operation = .set ∧ Crowded family texts then (texts, say "ERROR\r\n")
  else dictionaryStep operation key value texts

/-- A key-value command on a dictionary. -/
noncomputable def dictionaryCommand (family : Family) (operation : Operation)
    (tokens : List CStr) (ns : CStr) (texts : Texts) : Texts × Written :=
  match storedKey operation tokens ns with
  | none => (texts, idleReply operation)
  | some key => boundedStep family operation key ((valueToken tokens).getD (lit "")) texts

/-- The commands of one family on a dictionary, and those that choose the namespace. -/
noncomputable def dictionaryService (family : Family) :
    Service Texts CStr (List CStr) (List Byte) where
  opening := lit "default"
  serve texts ns tokens :=
    match tokens.head?.bind findCommand with
    | none => some (texts, ns, ascii "Unknown command\r\n")
    | some .ns =>
        some (texts, (namespaceCommand tokens ns).1, replyText (namespaceCommand tokens ns).2)
    | some (.keyValue own operation) =>
        if own = family then
          let result := dictionaryCommand family operation tokens ns texts
          some (result.1, ns, replyText result.2)
        else none
    | some _ => none

/-- The commands that the dictionary service knows. -/
def Command.inFamily (family : Family) : Command → Bool
  | .ns => true
  | .keyValue own _ => own = family
  | _ => false

theorem Command.inFamily_iff {family : Family} {command : Command} :
    command.inFamily family = true ↔
      command = .ns ∨ ∃ operation, command = .keyValue family operation := by
  cases command <;> simp [Command.inFamily]

/-- The first word is that of a command which the dictionary service knows, or of none. -/
def InFamily (family : Family) (tokens : List CStr) : Prop :=
  ∀ command ∈ tokens.head?.bind findCommand, command.inFamily family = true

instance (family : Family) (tokens : List CStr) : Decidable (InFamily family tokens) :=
  inferInstanceAs (Decidable (∀ command ∈ _, _))

/-- Only the hash engine asks for 7-bit bytes. -/
def SevenBit (family : Family) (bytes : List Byte) : Prop :=
  family = .hash → ∀ byte ∈ bytes, byte.toNat < 128

instance (family : Family) (bytes : List Byte) : Decidable (SevenBit family bytes) :=
  inferInstanceAs (Decidable (_ → _))

/-- A message for the dictionary service that no failed allocation disturbs. -/
structure Packet.Admitted {F : Type} (family : Family) (packet : Packet F) : Prop where
  alloc_eq : packet.env.alloc = allocOk
  nonempty : packet.bytes ≠ []
  sevenBit : SevenBit family packet.bytes
  inFamily : InFamily family packet.tokens

/-! ## Crowded dictionaries -/

theorem full_iff_crowded {family : Family} {engines : Engines} (hsound : Sound engines) :
    Full family engines ↔ Crowded family (textHeld family engines) := by
  have hdomain : {key | textHeld family engines key ≠ none} =
      {key | denote (Families.entries family engines) key ≠ none} := by
    ext key
    exact (textHeld_eq_none_iff hsound).not
  rw [Full, Crowded, hdomain, ncard_denote (hsound.nodupKeys family)]

/-- A command on a sound engine is the operation on the dictionary of its capacity. -/
theorem referenceCommand_bounded {family : Family} {operation : Operation} {engines : Engines}
    {key value : CStr} {argument : Option CStr} (hsound : Sound engines)
    (haddressable : Addressable family key) (coins : Coins)
    (hargument : operation.takesValue = true → argument = some value) :
    ∃ after, referenceCommand ⟨allocOk, coins⟩ family operation engines (some key) argument =
        some (after, (boundedStep family operation key value (textHeld family engines)).2) ∧
      textHeld family after =
        (boundedStep family operation key value (textHeld family engines)).1 := by
  unfold boundedStep
  rw [← full_iff_crowded hsound]
  split
  next hfull =>
    obtain ⟨rfl, hfull⟩ := hfull
    rw [hargument rfl]
    exact ⟨engines, referenceCommand_full hsound hfull coins value, rfl⟩
  next hroom =>
    obtain ⟨after, hafter, -, htexts⟩ := referenceCommand_spec hsound haddressable
      (fun hset hfull => hroom ⟨hset, hfull⟩) coins hargument
    exact ⟨after, hafter, htexts⟩

section Simulation

variable {F : Type} {family : Family} {operation : Operation} {tokens : List CStr} {ns : CStr}

/-- What a request asks of the engines is its command on their dictionary. -/
theorem Request.reference_dictionary {request : Request F} {engines : Engines}
    (hregular : request.Regular family operation) (hsound : Sound engines) :
    ∃ after, request.reference family operation engines =
        some (after, (dictionaryCommand family operation request.tokens request.ns
          (textHeld family engines)).2) ∧
      textHeld family after = (dictionaryCommand family operation request.tokens request.ns
        (textHeld family engines)).1 := by
  unfold Request.reference dictionaryCommand
  rw [← Request.key]
  cases hkey : request.key operation with
  | none => exact ⟨engines, rfl, rfl⟩
  | some key =>
      have hchance : request.env.chance = ⟨allocOk, request.env.coins⟩ := by
        rw [Env.chance, hregular.alloc_eq]
      have hargument : operation.takesValue = true →
          valueToken request.tokens = some ((valueToken request.tokens).getD (lit "")) := by
        intro htakes
        cases hvalue : valueToken request.tokens with
        | none => exact absurd hvalue (valueToken_ne_none hkey htakes)
        | some value => rfl
      rw [hchance]
      exact referenceCommand_bounded hsound (hregular.addressable key hkey) request.env.coins
        hargument

/-- A key of 7-bit tokens in a 7-bit namespace can be placed. -/
theorem addressable_of_sevenBit {key : CStr}
    (htokens : ∀ token ∈ tokens, SevenBit family token.bytes)
    (hns : SevenBit family ns.bytes) (hkey : storedKey operation tokens ns = some key) :
    Addressable family key := by
  rintro rfl
  refine Hash.exists_bucket_of_ascii fun byte hbyte => ?_
  have hmade := makeNamespacedKey_of_storedKey hkey
  unfold makeNamespacedKey at hmade
  split at hmade
  · exact htokens key (mem_of_getElem? hmade) rfl byte hbyte
  · rw [Option.some.injEq] at hmade
    rw [← hmade] at hbyte
    rcases mem_append.1 (mem_of_mem_take hbyte) with hfront | htoken
    · rcases mem_append.1 hfront with hname | hcolon
      · exact hns rfl byte hname
      · have hsmall : ∀ byte ∈ (lit ":").bytes, byte.toNat < 128 := by decide +kernel
        exact hsmall byte hcolon
    · cases hsecond : tokens[1]? with
      | none =>
          have hsmall : ∀ byte ∈ (lit "(null)").bytes, byte.toNat < 128 := by
            decide +kernel
          rw [hsecond] at htoken
          exact hsmall byte htoken
      | some token =>
          rw [hsecond] at htoken
          exact htokens token (mem_of_getElem? hsecond) rfl byte htoken

theorem sevenBit_default (family : Family) : SevenBit family (lit "default").bytes := by
  intro _
  decide +kernel

/-- A namespace chosen with 7-bit tokens is a 7-bit one. -/
theorem namespaceCommand_sevenBit (htokens : ∀ token ∈ tokens, SevenBit family token.bytes)
    (hns : SevenBit family ns.bytes) :
    SevenBit family (namespaceCommand tokens ns).1.bytes := by
  have hname : ∀ {index : ℕ} {name : CStr}, tokens[index]? = some name →
      SevenBit family (setNamespace name).1.bytes := fun hget hhash byte hbyte =>
    htokens _ (mem_of_getElem? hget) hhash byte (mem_of_mem_take hbyte)
  unfold namespaceCommand
  split
  · exact hns
  next hword hmissing =>
    split
    · exact sevenBit_default family
    · exact hname hword
  next hword hsecond =>
    split
    · exact hname hsecond
    · split
      · exact sevenBit_default family
      · exact hns

end Simulation

/-! ## Tokens of 7-bit messages -/

/-- The first token and what follows it consist of bytes of the text. -/
theorem nextToken_subset {text token rest : List Byte}
    (hnext : nextToken text = some (token, rest)) : token ⊆ text ∧ rest ⊆ text := by
  have hdrop : text.dropWhile (· = blank) ⊆ text := (dropWhile_sublist _).subset
  unfold nextToken at hnext
  cases hblank : text.dropWhile (· = blank) with
  | nil => simp [hblank] at hnext
  | cons byte tail =>
      rw [hblank] at hdrop
      have htail : tail ⊆ text := fun other hother => hdrop (mem_cons_of_mem byte hother)
      simp only [hblank] at hnext
      split at hnext
      · obtain ⟨rfl, rfl⟩ := Prod.mk.inj (Option.some.inj hnext)
        exact ⟨List.Subset.trans (takeWhile_sublist _).subset htail,
          List.Subset.trans ((tail_sublist _).trans (dropWhile_sublist _)).subset htail⟩
      · obtain ⟨rfl, rfl⟩ := Prod.mk.inj (Option.some.inj hnext)
        exact ⟨List.Subset.trans (takeWhile_sublist _).subset hdrop,
          List.Subset.trans ((tail_sublist _).trans (dropWhile_sublist _)).subset hdrop⟩

theorem grammarTokens_subset {limit : ℕ} {text token : List Byte}
    (htoken : token ∈ grammarTokens limit text) : token ⊆ text := by
  induction limit generalizing text with
  | zero => cases htoken
  | succ limit ih =>
      unfold grammarTokens at htoken
      cases hnext : nextToken text with
      | none => simp [hnext] at htoken
      | some pair =>
          obtain ⟨first, rest⟩ := pair
          obtain ⟨hfirst, hrest⟩ := nextToken_subset hnext
          simp only [hnext, mem_cons] at htoken
          rcases htoken with rfl | hlater
          · exact hfirst
          · exact List.Subset.trans (ih hlater) hrest

theorem Packet.tokens_sevenBit {F : Type} {family : Family} {packet : Packet F}
    (hbytes : SevenBit family packet.bytes) :
    ∀ token ∈ packet.tokens, SevenBit family token.bytes := by
  intro token htoken hhash byte hbyte
  have hgrammar : token.bytes ∈ grammarTokens kvsMaxTokens
      (CStr.read (stripLines packet.bytes.length (packet.bytes ++ [0]))).bytes := by
    rw [← tokenStrings_eq]
    exact mem_map_of_mem htoken
  have hmem : byte ∈ stripLines packet.bytes.length (packet.bytes ++ [0]) :=
    (takeWhile_sublist _).subset (grammarTokens_subset hgrammar hbyte)
  rw [stripLines_append, mem_append, mem_map, mem_singleton] at hmem
  rcases hmem with ⟨original, horiginal, rfl⟩ | rfl
  · unfold stripByte
    split
    · decide
    · exact hbytes hhash original horiginal
  · decide

/-! ## The simulation -/

section Services

variable {F : Type} [CFloat F] {family : Family} {policy : Policy} {server : Server F} {ns : CStr}

/-- A settled server whose engine holds a dictionary. -/
def Holds (family : Family) (policy : Policy) (server : Server F) (texts : Texts) : Prop :=
  Settled family policy server ∧ texts = textHeld family server.engines

/-- A key-value command on a settled server is the command on its dictionary. -/
theorem Settled.dictionary {operation : Operation} {request : Request F}
    (hsettled : Settled family policy server) (hregular : request.Regular family operation) :
    ∃ after, serve true server request = some (after, (dictionaryCommand family operation
        request.tokens request.ns (textHeld family server.engines)).2) ∧
      Holds family policy after (dictionaryCommand family operation request.tokens request.ns
        (textHeld family server.engines)).1 := by
  obtain rfl := hsettled.policy_eq
  obtain ⟨engines, cache, reply, hserve, hreference, hserved⟩ :=
    serve_cached hregular hsettled.sound hsettled.valid fun _ key _ => hsettled.coherent key
  obtain ⟨after, hafter, htexts⟩ := Request.reference_dictionary hregular hsettled.sound
  obtain ⟨rfl, rfl⟩ := Prod.mk.inj (Option.some.inj (hreference.symm.trans hafter))
  exact ⟨_, hserve, ⟨hserved.contained.sound, hserved.kept.valid, hserved.kept.policy_eq,
    hserved.active hsettled.coherent⟩, htexts.symm⟩

/-- An admitted message on a settled server, by its tokens: the outcome is that of the dictionary
service. -/
theorem Holds.filter {packet : Packet F} {texts : Texts} {outcome : Outcome F}
    (hholds : Holds family policy server texts) (hns : SevenBit family ns.bytes)
    (hadmitted : packet.Admitted family)
    (hfilter : kvsFilterProtocol true packet.env packet.tokens ns server = some outcome) :
    SevenBit family outcome.ns.bytes ∧ ∃ after, Holds family policy outcome.server after ∧
      (dictionaryService family).serve texts ns packet.tokens =
        some (after, outcome.ns, replyText outcome.reply) := by
  obtain ⟨hsettled, rfl⟩ := hholds
  have hseven := Packet.tokens_sevenBit hadmitted.sevenBit
  cases hcommand : packet.tokens.head?.bind findCommand with
  | none =>
      simp only [kvsFilterProtocol, hcommand, Option.some.injEq] at hfilter
      subst hfilter
      refine ⟨hns, _, ⟨hsettled, rfl⟩, ?_⟩
      simp only [dictionaryService, hcommand]
      rfl
  | some command =>
      rcases Command.inFamily_iff.1 (hadmitted.inFamily command hcommand)
        with rfl | ⟨operation, rfl⟩
      · simp only [kvsFilterProtocol, hcommand, runCommand, Option.some.injEq] at hfilter
        subst hfilter
        refine ⟨namespaceCommand_sevenBit hseven hns, _, ⟨hsettled, rfl⟩, ?_⟩
        simp only [dictionaryService, hcommand]
      · have hregular : (Request.mk packet.env ns packet.tokens).Regular family operation :=
          ⟨hcommand, hadmitted.alloc_eq, fun key hkey => addressable_of_sevenBit hseven hns hkey⟩
        obtain ⟨after, hserve, hafter⟩ := hsettled.dictionary hregular
        rw [serve_keyValue hregular.command_eq] at hserve
        simp only [kvsFilterProtocol, hcommand, runCommand, hserve, Option.bind_eq_bind,
          Option.bind_some, Option.pure_def, Option.some.injEq] at hfilter
        subst hfilter
        refine ⟨hns, _, hafter, ?_⟩
        simp only [dictionaryService, hcommand, if_true]

/-- For the messages of one family the command interface is the dictionary service. -/
theorem commandService_simulates (family : Family) (policy : Policy) :
    Simulates (commandService F) (dictionaryService family) Packet.tokens (Holds family policy)
      (fun ns => SevenBit family ns.bytes) (Packet.Admitted family) where
  opening_eq := rfl
  opening_valid := sevenBit_default family
  serve_eq := by
    intro server texts ns packet after next reply hholds hns hadmitted hserve
    simp only [commandService, Option.bind_eq_bind, Option.bind_eq_some_iff] at hserve
    obtain ⟨outcome, hprotocol, hserve⟩ := hserve
    split at hserve
    case isFalse => cases hserve
    case isTrue =>
      simp only [Option.pure_def, Option.some.injEq, Prod.mk.injEq] at hserve
      obtain ⟨rfl, rfl, rfl⟩ := hserve
      rw [kvsProtocol_eq_filter _ _ (length_pos_iff.2 hadmitted.nonempty)] at hprotocol
      exact hholds.filter hns hadmitted hprotocol

theorem ready_start (maxItems : ℤ) (policy : Policy) : Ready (Server.start F maxItems policy) where
  sound := sound_create
  bounded := by
    intro family key value htext
    have hnone := textHeld_create family key
    rw [← show (Server.start F maxItems policy).engines = Engines.create from rfl, htext] at hnone
    cases hnone
  cached :=
    { valid := start_valid maxItems policy
      short := by
        intro other key value hvalue
        have htext := start_coherent maxItems policy .array other key value hvalue
        have hnone := textHeld_create .array key
        rw [← show (Server.start F maxItems policy).engines = Engines.create from rfl, htext]
          at hnone
        cases hnone }
  chained := Vector.chained_create

end Services

end LiteMultiKV.Protocol
