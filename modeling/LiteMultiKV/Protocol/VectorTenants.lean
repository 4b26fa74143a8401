import LiteMultiKV.Engine.VectorContents
import LiteMultiKV.Protocol.Namespaces
import LiteMultiKV.Protocol.Replies

/-!
# Namespaces and vectors

All namespaces share one index.  `VSET`, `VGET` and `VDEL` go through the stored
key, so that they meet vectors of their own namespace only.  `VCOUNT` and
`VSEARCH` look at the whole index, and a `VSET` needs a free place in it.  A
connection does not notice another one as long as these three commands meet an
index in which the vectors of the other one make no difference.
-/

namespace LiteMultiKV.Protocol

open List CText Memory Numeric Run LiteMultiKV.Vector

variable {F : Type}

/-- The key is stored under the name. -/
def OwnedBy (ns key : CStr) : Prop :=
  ns.bytes ++ [colon] <+: key.bytes

instance (ns key : CStr) : Decidable (OwnedBy ns key) :=
  inferInstanceAs (Decidable (_ <+: _))

/-- A name without a colon that is not the default one, as `NAMESPACE` keeps it. -/
structure TenantName (ns : CStr) : Prop where
  named : effective ns ≠ lit "default"
  colon_free : colon ∉ ns.bytes
  length_le : strlen ns ≤ namespaceLimit

theorem TenantName.owns {ns : CStr} (hns : TenantName ns) (key : Option CStr) :
    ∃ stored, makeNamespacedKey ns key = some stored ∧ OwnedBy ns stored := by
  obtain ⟨stored, hstored, hbytes⟩ := makeNamespacedKey_named hns.named key
  refine ⟨stored, hstored, ?_⟩
  have hlength := hns.length_le
  have hfit : (ns.bytes ++ [colon]).length ≤ keyBufferSize - 1 := by
    simp only [strlen, namespaceLimit] at hlength
    simp only [length_append, length_singleton, keyBufferSize]
    omega
  rw [OwnedBy, hbytes, prefix_take_iff]
  exact ⟨⟨keyText key, (append_cons ..).symm⟩, hfit⟩

/-- A stored key has one owner. -/
theorem TenantName.eq_of_owned {ns other key : CStr} (hns : TenantName ns)
    (hother : TenantName other) (hkey : OwnedBy ns key) (hkey' : OwnedBy other key) :
    ns = other := by
  have hshorter : ∀ {left right : CStr}, TenantName right → OwnedBy left key → OwnedBy right key →
      ¬left.bytes.length < right.bytes.length := by
    intro left right hright hleft howned hlt
    have hnested : left.bytes ++ [colon] <+: right.bytes ++ [colon] :=
      prefix_of_prefix_length_le hleft howned (by simp; omega)
    have hstart : right.bytes <+: right.bytes ++ [colon] := ⟨[colon], rfl⟩
    have hinside : left.bytes ++ [colon] <+: right.bytes :=
      prefix_of_prefix_length_le hnested hstart (by simp; omega)
    exact hright.colon_free (hinside.subset (by simp))
  have hlength : ns.bytes.length = other.bytes.length :=
    le_antisymm (not_lt.1 (hshorter hns hkey' hkey)) (not_lt.1 (hshorter hother hkey hkey'))
  have hsame : ns.bytes ++ [colon] = other.bytes ++ [colon] :=
    (prefix_of_prefix_length_le hkey hkey' (by simp; omega)).eq_of_length (by simp; omega)
  exact CStr.ext (append_cancel_right hsame)

/-! ## Vector commands -/

/-- A request among those of both connections, and what the environment decides for it if
the other connection is not there. -/
structure TenantRequest (F : Type) where
  request : Request F
  alone : Env F

/-- The namespace of a connection. -/
def TenantRequest.comesFrom (ns : CStr) (input : TenantRequest F) : Bool :=
  input.request.ns = ns

section Commands

variable [CFloat F]

def serveMixed (server : Server F) (input : TenantRequest F) : Option (Server F × Written) :=
  serve true server input.request

def serveAlone (server : Server F) (input : TenantRequest F) : Option (Server F × Written) :=
  serve true server { input.request with env := input.alone }

/-- A vector command as a function of the vector engine. -/
def vectorCommand (env : Env F) (tokens : List CStr) (key : Option CStr) (vec : KvsVector F) :
    Command → Option (KvsVector F × Written)
  | .vset => vsetCommand env tokens key vec
  | .vget => some (vec, vgetCommand key vec)
  | .vsearch => (vsearchCommand env tokens key vec).map fun reply => (vec, reply)
  | .vdel => some (vdelCommand key vec)
  | .vcount => some (vec, sprintf (formatInt (kvsVectorCount vec) ++ Cache.crlf))
  | _ => none

/-- The five commands. -/
def vectorCommands : List Command :=
  [.vset, .vget, .vsearch, .vdel, .vcount]

theorem serve_vector {request : Request F} {command : Command}
    (hcommand : request.command = some command) (hvector : command ∈ vectorCommands)
    (server : Server F) :
    serve true server request =
      (vectorCommand request.env request.tokens (makeNamespacedKey request.ns request.tokens[1]?)
        server.vector command).map
        fun result => ({ server with vector := result.1 }, result.2) := by
  rw [Request.command] at hcommand
  simp only [vectorCommands, mem_cons, not_mem_nil, or_false] at hvector
  rcases hvector with rfl | rfl | rfl | rfl | rfl
  · simp only [serve, kvsFilterProtocol, hcommand, runCommand, vectorCommand]
    cases vsetCommand request.env request.tokens
      (makeNamespacedKey request.ns request.tokens[1]?) server.vector <;> rfl
  · simp only [serve, kvsFilterProtocol, hcommand, runCommand, vectorCommand]
    rfl
  · simp only [serve, kvsFilterProtocol, hcommand, runCommand, vectorCommand]
    cases vsearchCommand request.env request.tokens
      (makeNamespacedKey request.ns request.tokens[1]?) server.vector <;> rfl
  · simp only [serve, kvsFilterProtocol, hcommand, runCommand, vectorCommand]
    rfl
  · simp only [serve, kvsFilterProtocol, hcommand, runCommand, vectorCommand]
    rfl

/-- The reply to the result of `kvs_vector_set`. -/
def storedReply (code : ℤ) : Written :=
  if code < 0 then say "ERROR\r\n" else say "OK\r\n"

/-- Equal replies, or the text of one vector with different identifiers and levels. -/
def Agrees (reply twin : Written) : Prop :=
  reply = twin ∨ ∃ key vector id level twinId twinLevel,
    reply = showValue (vectorText (F := F) key vector id level) ∧
      twin = showValue (vectorText key vector twinId twinLevel)

/-- What a row of results prints. -/
def labelRow (shown : Option CStr × F) : List Byte :=
  (shown.1.getD (lit "(unknown)")).bytes ++ ascii " " ++ (CFloat.format 4 shown.2).bytes ++
    Cache.crlf

theorem searchReply_label (vec : KvsVector F) (found : List (ℕ × F)) :
    searchReply vec found = (found.map (label vec)).foldl
      (fun written shown => snprintfAt responseMaxLen written (labelRow shown))
      (snprintf responseMaxLen (ascii "RESULT\r\n")) := by
  rw [foldl_map]
  rfl

/-! ## The shared index -/

/-- Some node was stored under the name. -/
def Planted (ns : CStr) (index : HNSWIndex F) : Prop :=
  ∃ node < index.size, ∃ key, OwnedBy ns key ∧
    ∃ found, index.nodes node = some found ∧ found.key = some key

/-- No vector of the name is live. -/
def NoneLive (ns : CStr) (vec : KvsVector F) : Prop :=
  ∀ item ∈ contents vec.index, ¬OwnedBy ns item.1

/-- The engine of both connections and that of the first one alone; the second one has the
name. -/
structure Aside (other : CStr) (mixed alone : KvsVector F) : Prop where
  mixed_tallied : mixed.Tallied
  alone_tallied : alone.Tallied
  contents_eq : contents alone.index =
    (contents mixed.index).filter fun item => ¬OwnedBy other item.1
  size_le : alone.index.size ≤ mixed.index.size
  unplanted : Planted other mixed.index ∨ mixed = alone

variable {other : CStr} {mixed alone after : KvsVector F} {key : CStr}

/-- A planted node stays. -/
theorem Planted.update {vec : KvsVector F} (hplanted : Planted other vec.index)
    (hchained : vec.index.Chained) {update : Update F} {code : ℤ}
    (hstep : updateStep vec update = some (after, code)) : Planted other after.index := by
  obtain ⟨node, hnode, key, howned, found, hfound, hkey⟩ := hplanted
  let fact : ℕ → HNSWNode F → Prop := fun place contents => place = node → contents.key = some key
  have hevery : Everywhere fact vec.index := by
    rintro place - contents hcontents rfl
    obtain rfl : found = contents := by simpa [hfound] using hcontents
    exact hkey
  have hnew : ∀ fresh, update.node vec.index.size = some fresh →
      fact vec.index.size { fresh with id := vec.index.size } :=
    fun fresh _ hplace => absurd hplace hnode.ne'
  obtain ⟨final, answer, hfinal, hafter, hkept, hsize⟩ := updateStep_kept hchained
    (fun _ _ _ _ => Iff.rfl) hevery update hnew
  obtain ⟨rfl, rfl⟩ := Prod.mk.inj (Option.some.inj (hfinal.symm.trans hstep))
  have hlt : node < final.index.size := by
    rw [hsize]
    cases update with
    | del key => exact hnode
    | set chance key value =>
        simp only [noteAppended]
        split <;> omega
  obtain ⟨contents, hcontents, -⟩ := hafter.layered.stored node hlt
  exact ⟨node, hlt, key, howned, contents, hcontents, hkept node hlt contents hcontents rfl⟩

omit [CFloat F] in
/-- Keys of the first connection are kept by the filter. -/
theorem find_filter_foreign (hkey : ¬OwnedBy other key) (held : List (CStr × List F)) :
    ((held.filter fun item => ¬OwnedBy other item.1).find? fun item => item.1 = key) =
      held.find? fun item => item.1 = key := by
  rw [find?_filter]
  refine find?_congr fun item _ => ?_
  by_cases hitem : item.1 = key
  · simp [hitem, hkey]
  · simp [hitem]

omit [CFloat F] in
theorem filter_foreign_own (key : CStr) (held : List (CStr × List F)) :
    (held.filter fun item => item.1 ≠ key).filter (fun item => ¬OwnedBy other item.1) =
      (held.filter fun item => ¬OwnedBy other item.1).filter fun item => item.1 ≠ key := by
  rw [filter_filter, filter_filter]
  exact filter_congr fun item _ => Bool.and_comm _ _

omit [CFloat F] in
theorem filter_foreign_other (hkey : OwnedBy other key) (held : List (CStr × List F)) :
    (held.filter fun item => item.1 ≠ key).filter (fun item => ¬OwnedBy other item.1) =
      held.filter fun item => ¬OwnedBy other item.1 := by
  rw [filter_filter]
  refine filter_congr fun item _ => ?_
  by_cases hitem : item.1 = key
  · simp [hitem, hkey]
  · simp [hitem]

/-- Updates of both engines that keep the other parts of the relation. -/
theorem Aside.updated (haside : Aside other mixed alone) {update twinUpdate : Update F}
    {twin : KvsVector F} {code twinCode : ℤ} (hstep : updateStep mixed update = some (after, code))
    (htwin : updateStep alone twinUpdate = some (twin, twinCode))
    (hsame : ¬Planted other mixed.index → update = twinUpdate) :
    Planted other after.index ∨ after = twin := by
  by_cases hplanted : Planted other mixed.index
  · exact .inl (hplanted.update haside.mixed_tallied.chained hstep)
  · obtain rfl := haside.unplanted.resolve_left hplanted
    obtain rfl := hsame hplanted
    exact .inr (Prod.mk.inj (Option.some.inj (hstep.symm.trans htwin))).1

/-- Both engines delete a key of the first connection alike. -/
theorem Aside.del_own (haside : Aside other mixed alone) (hkey : ¬OwnedBy other key) :
    ∃ after twin code, kvsVectorDel mixed (some key) = (after, code) ∧
      kvsVectorDel alone (some key) = (twin, code) ∧ Aside other after twin := by
  obtain ⟨after, code, hdel, hafter, hsize, hcontents, hcode⟩ :=
    kvsVectorDel_contents haside.mixed_tallied key
  obtain ⟨twin, twinCode, htwinDel, htwin, htwinSize, htwinContents, htwinCode⟩ :=
    kvsVectorDel_contents haside.alone_tallied key
  rw [haside.contents_eq] at htwinContents htwinCode
  rw [find_filter_foreign hkey] at htwinCode
  obtain rfl : code = twinCode := hcode.trans htwinCode.symm
  refine ⟨after, twin, code, hdel, htwinDel, hafter, htwin, ?_, ?_, ?_⟩
  · rw [htwinContents, hcontents, filter_foreign_own]
  · have := haside.size_le
    omega
  · have hstep : updateStep mixed (.del (some key)) = some (after, code) := congrArg some hdel
    have htwinStep : updateStep alone (.del (some key)) = some (twin, code) :=
      congrArg some htwinDel
    exact haside.updated hstep htwinStep fun _ => rfl

/-- A deletion by the second connection. -/
theorem Aside.del_other (haside : Aside other mixed alone) (hkey : OwnedBy other key) :
    ∃ after code, kvsVectorDel mixed (some key) = (after, code) ∧ Aside other after alone := by
  rcases kvsVectorDel_rows haside.mixed_tallied key with
    ⟨-, hdel⟩ | ⟨row, after, hsome, hdel, hafter, hsize, hrows⟩
  · exact ⟨mixed, -2, hdel, haside⟩
  · refine ⟨after, 0, hdel, hafter, haside.alone_tallied, ?_, ?_, .inl ?_⟩
    · have hcontents : contents after.index =
          (contents mixed.index).filter fun item => item.1 ≠ key := by
        rw [← contents_others, ← hrows]
        rfl
      rw [hcontents, filter_foreign_other hkey, haside.contents_eq]
    · have := haside.size_le
      omega
    · have hrow := mem_of_find?_eq_some hsome
      have hfound : row.key = key := by simpa using find?_some hsome
      obtain ⟨hlt, hread⟩ := mem_rows_iff.1 hrow
      obtain ⟨found, hnode, -, hnamed, -⟩ := rowAt_eq_some_iff.1 hread
      have hplanted : Planted other mixed.index :=
        ⟨row.id, hlt, row.key, hfound ▸ hkey, found, hnode, hnamed⟩
      have hstep : updateStep mixed (.del (some key)) = some (after, 0) := congrArg some hdel
      exact hplanted.update haside.mixed_tallied.chained hstep

/-- Both engines store a vector of the first connection alike, if there is room. -/
theorem Aside.set_own (haside : Aside other mixed alone) (hkey : ¬OwnedBy other key)
    {chance twinChance : VectorChance F} (halloc : chance.alloc = allocOk)
    (htwinAlloc : twinChance.alloc = allocOk)
    (hsame : ¬Planted other mixed.index → chance = twinChance) (value : CStr)
    (hroom : ¬Planted other mixed.index ∨ mixed.index.size < maxElements ∨
      parseVector (F := F) value = none) :
    ∃ after twin code, kvsVectorSet chance mixed (some key) (some value) = some (after, code) ∧
      kvsVectorSet twinChance alone (some key) (some value) = some (twin, code) ∧
      Aside other after twin := by
  have hsize := haside.size_le
  cases hparse : parseVector (F := F) value with
  | none =>
      have hrefused : acceptedVector (F := F) (some key) (some value) = none := by
        simp [acceptedVector, hparse]
      exact ⟨mixed, alone, -1, kvsVectorSet_refused hrefused, kvsVectorSet_refused hrefused, haside⟩
  | some vector =>
      have haccepted : acceptedVector (some key) (some value) = some (key, vector) := by
        simp [acceptedVector, hparse]
      by_cases hspace : mixed.index.size < maxElements
      · obtain ⟨after, code, hset, hafter, -, hcase⟩ := kvsVectorSet_contents chance
          haside.mixed_tallied halloc hspace (some key) (some value)
        obtain ⟨twin, twinCode, htwinSet, htwin, -, htwinCase⟩ := kvsVectorSet_contents twinChance
          haside.alone_tallied htwinAlloc (by omega) (some key) (some value)
        rw [haccepted] at hcase htwinCase
        obtain ⟨rfl, hgrown, hcontents⟩ := hcase
        obtain ⟨rfl, htwinGrown, htwinContents⟩ := htwinCase
        refine ⟨after, twin, 0, hset, htwinSet, hafter, htwin, ?_, by omega, ?_⟩
        · rw [hcontents, htwinContents, haside.contents_eq, filter_append, filter_foreign_own]
          simp [hkey]
        · have hstep : updateStep mixed (.set chance (some key) (some value)) = some (after, 0) :=
            hset
          have htwinStep : updateStep alone (.set twinChance (some key) (some value)) =
            some (twin, 0) := htwinSet
          exact haside.updated hstep htwinStep fun hplanted => by rw [hsame hplanted]
      · have hplanted : ¬Planted other mixed.index := by
          rcases hroom with hplanted | hspace' | hnone
          · exact hplanted
          · exact absurd hspace' hspace
          · rw [hparse] at hnone
            cases hnone
        obtain rfl := haside.unplanted.resolve_left hplanted
        obtain rfl := hsame hplanted
        rcases kvsVectorSet_rows chance haside.mixed_tallied halloc (some key) (some value) with
          ⟨-, hset⟩ | ⟨-, -, -, -, hspace', -⟩
        · exact ⟨mixed, mixed, -1, hset, hset, haside⟩
        · exact absurd hspace' hspace

/-- A vector of the second connection. -/
theorem Aside.set_other (haside : Aside other mixed alone) (hkey : OwnedBy other key)
    {chance : VectorChance F} (halloc : chance.alloc = allocOk) (value : CStr) :
    ∃ after code, kvsVectorSet chance mixed (some key) (some value) = some (after, code) ∧
      Aside other after alone := by
  have hsize := haside.size_le
  rcases kvsVectorSet_rows chance haside.mixed_tallied halloc (some key) (some value) with
    ⟨-, hset⟩ | ⟨name, vector, after, haccepted, -, hset, hafter, hgrown, hrows⟩
  · exact ⟨mixed, -1, hset, haside⟩
  · obtain ⟨-, hname, -⟩ := acceptedVector_eq_some_iff.1 haccepted
    obtain rfl := Option.some.inj hname
    refine ⟨after, 0, hset, hafter, haside.alone_tallied, ?_, by omega, .inl ?_⟩
    · have hcontents : contents after.index =
          (contents mixed.index).filter (fun item => item.1 ≠ key) ++ [(key, vector)] := by
        rw [← contents_others, contents, hrows, map_append]
        rfl
      rw [hcontents, filter_append, filter_foreign_other hkey, haside.contents_eq]
      simp [hkey]
    · have hrow : (⟨mixed.index.size, key, vector⟩ : Row F) ∈ rows after.index := by
        rw [hrows]
        simp
      obtain ⟨hlt, hread⟩ := mem_rows_iff.1 hrow
      obtain ⟨found, hnode, -, hnamed, -⟩ := rowAt_eq_some_iff.1 hread
      exact ⟨mixed.index.size, hlt, key, hkey, found, hnode, hnamed⟩

/-! ## Requests -/

/-- Allocations succeed, and no read behind a vector faults. -/
structure Granted (env : Env F) : Prop where
  alloc_eq : env.alloc = allocOk
  mapped_eq : env.mapped = true

/-- A vector command of one of the two connections that gets its memory, with the tokens of a
message. -/
structure TenantRequest.Regular (ns other : CStr) (input : TenantRequest F) : Prop where
  ns_eq : input.request.ns = ns ∨ input.request.ns = other
  command_mem : ∃ command ∈ vectorCommands, input.request.command = some command
  granted : Granted input.request.env
  alone_granted : Granted input.alone
  room : tokenRoom input.request.tokens ≤ messageLimit + 1

/-- The second connection makes no difference to the command: nothing was ever stored under
its name, or a `VSET` finds a free place or no vector, a `VCOUNT` and a `VSEARCH` find none of
its vectors live, and a `VSEARCH` is decided by the vectors it finds. -/
def Sheltered (other : CStr) (vec : KvsVector F) (tokens : List CStr) (command : Command) : Prop :=
  ¬Planted other vec.index ∨
    match command with
    | .vset => 4 ≤ tokens.length → ∀ value, concatTokens (tokens.drop 2) = some value →
        vec.index.size < maxElements ∨ parseVector (F := F) value = none
    | .vcount => NoneLive other vec
    | .vsearch => 5 ≤ tokens.length → NoneLive other vec ∧
        ∀ text, concatTokens (tokens.drop 4) = some text →
          Decided (contents vec.index) (queryOf (contents vec.index) text)
    | _ => True

/-- What the environment decides does not depend on the second connection before it has
stored a vector. -/
def Undisturbed (other : CStr) (vec : KvsVector F) (input : TenantRequest F) : Prop :=
  ¬Planted other vec.index → input.alone = input.request.env

omit [CFloat F] in
theorem Aside.noneLive (haside : Aside other mixed alone) (hnone : NoneLive other mixed) :
    contents alone.index = contents mixed.index := by
  rw [haside.contents_eq]
  exact filter_eq_self.2 fun item hitem => by simpa using hnone item hitem

omit [CFloat F] in
theorem exists_concat {tokens : List CStr} (hroom : tokenRoom tokens ≤ messageLimit + 1)
    (count : ℕ) : ∃ text, concatTokens (tokens.drop count) = some text := by
  apply exists_concatTokens
  have hdrop := tokenRoom_drop_le tokens count
  simp only [messageLimit, joinBufferSize] at hroom ⊢
  omega

theorem vsetCommand_long {env : Env F} {tokens : List CStr} {value : CStr}
    (hgranted : Granted env) (hlong : 4 ≤ tokens.length)
    (hvalue : concatTokens (tokens.drop 2) = some value) (key : Option CStr) (vec : KvsVector F) :
    vsetCommand env tokens key vec =
      (kvsVectorSet env.vectorChance vec key (some value)).map fun result =>
        (result.1, storedReply result.2) := by
  have hset : attempt vec (env.setCall key value) =
      kvsVectorSet env.vectorChance vec key (some value) :=
    attempt_of_passes (.inl hgranted.mapped_eq)
  rw [vsetCommand, if_pos hlong, hvalue, Option.bind_eq_bind, Option.bind_some, hset]
  cases kvsVectorSet env.vectorChance vec key (some value) <;> rfl

theorem vsearchCommand_long {env : Env F} {tokens : List CStr} {text : CStr}
    (hgranted : Granted env) (hlong : 5 ≤ tokens.length)
    (htext : concatTokens (tokens.drop 4) = some text) (key : Option CStr) (vec : KvsVector F) :
    vsearchCommand env tokens key vec =
      (kvsVectorSearch env.vectorChance vec (searchCount tokens[2]) key (some text)).map
        fun result => if result.1 ≤ 0 then say "EMPTY\r\n" else searchReply vec result.2 := by
  have hcount : tokens[2]? = some tokens[2] := getElem?_eq_getElem (by omega)
  rw [vsearchCommand, if_pos hlong, hcount, htext, hgranted.mapped_eq]
  simp only [Option.bind_eq_bind, Option.bind_some, attemptSearch_mapped]
  cases kvsVectorSearch env.vectorChance vec (searchCount tokens[2]) key (some text) <;> rfl

section Own

variable {env twinEnv : Env F} {tokens : List CStr}
variable (haside : Aside other mixed alone) (hkey : ¬OwnedBy other key)
variable (hgranted : Granted env) (htwinGranted : Granted twinEnv)
variable (hroom : tokenRoom tokens ≤ messageLimit + 1)
variable (hsame : ¬Planted other mixed.index → twinEnv = env)
include haside hgranted htwinGranted hroom hsame

include hkey in
theorem Aside.vset_own (hsheltered : Sheltered other mixed tokens .vset) :
    ∃ after twin reply, vsetCommand env tokens (some key) mixed = some (after, reply) ∧
      vsetCommand twinEnv tokens (some key) alone = some (twin, reply) ∧
      Aside other after twin := by
  by_cases hlong : 4 ≤ tokens.length
  · obtain ⟨value, hvalue⟩ := exists_concat hroom 2
    have hspace := hsheltered.imp_right fun hfree => hfree hlong value hvalue
    have hchance : ¬Planted other mixed.index → env.vectorChance = twinEnv.vectorChance :=
      fun hplanted => by rw [hsame hplanted]
    obtain ⟨after, twin, code, hset, htwin, hafter⟩ := haside.set_own hkey
      (show env.vectorChance.alloc = allocOk from hgranted.alloc_eq)
      (show twinEnv.vectorChance.alloc = allocOk from htwinGranted.alloc_eq) hchance value hspace
    refine ⟨after, twin, storedReply code, ?_, ?_, hafter⟩
    · rw [vsetCommand_long hgranted hlong hvalue, hset]
      rfl
    · rw [vsetCommand_long htwinGranted hlong hvalue, htwin]
      rfl
  · exact ⟨mixed, alone, _, if_neg hlong, if_neg hlong, haside⟩

theorem Aside.vsearch_own (hsheltered : Sheltered other mixed tokens .vsearch) :
    ∃ reply, vsearchCommand env tokens (some key) mixed = some reply ∧
      vsearchCommand twinEnv tokens (some key) alone = some reply := by
  by_cases hlong : 5 ≤ tokens.length
  · obtain ⟨text, htext⟩ := exists_concat hroom 4
    rw [vsearchCommand_long hgranted hlong htext, vsearchCommand_long htwinGranted hlong htext]
    rcases hsheltered with hplanted | hshelter
    · obtain rfl := haside.unplanted.resolve_left hplanted
      obtain rfl := hsame hplanted
      obtain ⟨count, found, hsearch⟩ := kvsVectorSearch_isSome twinEnv.vectorChance
        haside.mixed_tallied.chained (searchCount tokens[2]) (some key) (some text)
      rw [hsearch]
      exact ⟨_, rfl, rfl⟩
    · obtain ⟨hnone, hdecided⟩ := hshelter hlong
      have hmemory : env.vectorChance.alloc 0 = true := congrFun hgranted.alloc_eq 0
      have htwinMemory : twinEnv.vectorChance.alloc 0 = true := congrFun htwinGranted.alloc_eq 0
      obtain ⟨count, found, twinFound, hsearch, htwin, hlabels⟩ := kvsVectorSearch_contents
        haside.mixed_tallied haside.alone_tallied (haside.noneLive hnone) hmemory htwinMemory
        (searchCount tokens[2]) key text (hdecided text htext)
      rw [hsearch, htwin]
      refine ⟨_, rfl, ?_⟩
      simp only [Option.map_some, searchReply_label, hlabels]
  · exact ⟨_, if_neg hlong, if_neg hlong⟩

omit hgranted htwinGranted hroom hsame

include hkey in
theorem Aside.vget_own :
    Agrees (F := F) (vgetCommand (some key) mixed) (vgetCommand (some key) alone) := by
  have hmixed := kvsVectorGet_contents haside.mixed_tallied key
  have halone := kvsVectorGet_contents haside.alone_tallied key
  rw [haside.contents_eq, find_filter_foreign hkey] at halone
  cases hfind : (contents mixed.index).find? fun item => item.1 = key with
  | none =>
      rw [hfind] at hmixed halone
      left
      rw [vgetCommand, vgetCommand, hmixed, halone]
  | some item =>
      rw [hfind] at hmixed halone
      obtain ⟨id, level, hmixed⟩ := hmixed
      obtain ⟨twinId, twinLevel, halone⟩ := halone
      right
      refine ⟨key, item.2, id, level, twinId, twinLevel, ?_, ?_⟩
      · rw [vgetCommand, hmixed]
      · rw [vgetCommand, halone]

omit [CFloat F] in
theorem Aside.vcount_own (hsheltered : ¬Planted other mixed.index ∨ NoneLive other mixed) :
    kvsVectorCount mixed = kvsVectorCount alone := by
  rcases hsheltered with hplanted | hnone
  · rw [haside.unplanted.resolve_left hplanted]
  · rw [kvsVectorCount_contents haside.mixed_tallied, kvsVectorCount_contents haside.alone_tallied,
      haside.noneLive hnone]

end Own

/-- Both engines answer a command of the first connection alike. -/
theorem Aside.command_own {env twinEnv : Env F} {tokens : List CStr}
    (haside : Aside other mixed alone) (hkey : ¬OwnedBy other key)
    (hgranted : Granted env) (htwinGranted : Granted twinEnv)
    (hroom : tokenRoom tokens ≤ messageLimit + 1)
    (hsame : ¬Planted other mixed.index → twinEnv = env) {command : Command}
    (hcommand : command ∈ vectorCommands) (hsheltered : Sheltered other mixed tokens command) :
    ∃ after twin reply twinReply,
      vectorCommand env tokens (some key) mixed command = some (after, reply) ∧
      vectorCommand twinEnv tokens (some key) alone command = some (twin, twinReply) ∧
      Agrees (F := F) reply twinReply ∧ Aside other after twin := by
  simp only [vectorCommands, mem_cons, not_mem_nil, or_false] at hcommand
  rcases hcommand with rfl | rfl | rfl | rfl | rfl
  · obtain ⟨after, twin, reply, hset, htwin, hafter⟩ :=
      haside.vset_own hkey hgranted htwinGranted hroom hsame hsheltered
    exact ⟨after, twin, reply, reply, hset, htwin, .inl rfl, hafter⟩
  · exact ⟨mixed, alone, _, _, rfl, rfl, haside.vget_own hkey, haside⟩
  · obtain ⟨reply, hsearch, htwin⟩ :=
      haside.vsearch_own hgranted htwinGranted hroom hsame hsheltered
    exact ⟨mixed, alone, reply, reply, by simp only [vectorCommand]; rw [hsearch]; rfl,
      by simp only [vectorCommand]; rw [htwin]; rfl, .inl rfl, haside⟩
  · obtain ⟨after, twin, code, hdel, htwin, hafter⟩ := haside.del_own hkey
    let reply := if code = 0 then say "OK\r\n" else say "NO EXIST\r\n"
    refine ⟨after, twin, reply, reply, ?_, ?_, .inl rfl, hafter⟩
    · simp only [vectorCommand, vdelCommand, hdel, reply]
    · simp only [vectorCommand, vdelCommand, htwin, reply]
  · refine ⟨mixed, alone, _, _, rfl, rfl, .inl ?_, haside⟩
    rw [haside.vcount_own hsheltered]

/-- A command of the second connection leaves what the first one sees alone. -/
theorem Aside.command_other (haside : Aside other mixed alone) (hkey : OwnedBy other key)
    {env : Env F} {tokens : List CStr} (hgranted : Granted env)
    (hroom : tokenRoom tokens ≤ messageLimit + 1) {command : Command}
    (hcommand : command ∈ vectorCommands) :
    ∃ after reply, vectorCommand env tokens (some key) mixed command = some (after, reply) ∧
      Aside other after alone := by
  simp only [vectorCommands, mem_cons, not_mem_nil, or_false] at hcommand
  rcases hcommand with rfl | rfl | rfl | rfl | rfl
  · by_cases hlong : 4 ≤ tokens.length
    · obtain ⟨value, hvalue⟩ := exists_concat hroom 2
      obtain ⟨after, code, hset, hafter⟩ := haside.set_other hkey
        (show env.vectorChance.alloc = allocOk from hgranted.alloc_eq) value
      refine ⟨after, storedReply code, ?_, hafter⟩
      rw [vectorCommand, vsetCommand_long hgranted hlong hvalue, hset]
      rfl
    · exact ⟨mixed, _, if_neg hlong, haside⟩
  · exact ⟨mixed, _, rfl, haside⟩
  · by_cases hlong : 5 ≤ tokens.length
    · obtain ⟨text, htext⟩ := exists_concat hroom 4
      obtain ⟨count, found, hsearch⟩ := kvsVectorSearch_isSome env.vectorChance
        haside.mixed_tallied.chained (searchCount tokens[2]) (some key) (some text)
      refine ⟨mixed, if count ≤ 0 then say "EMPTY\r\n" else searchReply mixed found, ?_, haside⟩
      rw [vectorCommand, vsearchCommand_long hgranted hlong htext, hsearch]
      rfl
    · refine ⟨mixed, say "ERROR\r\n", ?_, haside⟩
      rw [vectorCommand, vsearchCommand, if_neg hlong]
      rfl
  · obtain ⟨after, code, hdel, hafter⟩ := haside.del_other hkey
    refine ⟨after, if code = 0 then say "OK\r\n" else say "NO EXIST\r\n", ?_, hafter⟩
    simp only [vectorCommand, vdelCommand, hdel]
  · exact ⟨mixed, _, rfl, haside⟩

/-- A connection does not notice the vector commands of another one, if each of its own
commands meets its condition in the state it finds. -/
theorem vector_namespaces_isolated (maxItems : ℤ) (policy : Cache.Policy) {ns other : CStr}
    (hns : TenantName ns) (hother : TenantName other) (hne : ns ≠ other)
    {inputs : List (TenantRequest F)} (hinputs : ∀ input ∈ inputs, input.Regular ns other)
    (halong : Along serveMixed (fun server input => Undisturbed other server.vector input ∧
      (input.request.ns = ns → ∀ command, input.request.command = some command →
        Sheltered other server.vector input.request.tokens command))
      (Server.start F maxItems policy) inputs) :
    ∃ final replies twin twinReplies,
      run serveMixed (Server.start F maxItems policy) inputs = some (final, replies) ∧
      run serveAlone (Server.start F maxItems policy)
        (inputs.filter (TenantRequest.comesFrom ns)) = some (twin, twinReplies) ∧
      Forall₂ (Agrees (F := F)) (answersTo (TenantRequest.comesFrom ns) inputs replies)
        twinReplies := by
  let relation := fun mixed alone : Server F => Aside other mixed.vector alone.vector
  have hstart : relation (Server.start F maxItems policy) (Server.start F maxItems policy) :=
    ⟨tallied_create, tallied_create, rfl, le_rfl, .inr rfl⟩
  refine run_filter_agrees (fun mixed alone input haside hcondition hkeep => ?_)
    (fun mixed alone input haside hcondition hdrop => ?_) hstart (halong.and_forall hinputs)
  · obtain ⟨⟨hundisturbed, hsheltered⟩, hregular⟩ := hcondition
    obtain ⟨command, hmem, hcommand⟩ := hregular.command_mem
    have hown : input.request.ns = ns := by simpa [TenantRequest.comesFrom] using hkeep
    obtain ⟨key, hkey, howned⟩ := hns.owns input.request.tokens[1]?
    obtain ⟨after, twin, reply, twinReply, hserve, htwin, hagrees, hafter⟩ := haside.command_own
      (fun hforeign => hne (hns.eq_of_owned hother howned hforeign)) hregular.granted
      hregular.alone_granted hregular.room hundisturbed hmem (hsheltered hown command hcommand)
    rw [← hkey, ← hown] at hserve htwin
    refine ⟨{ mixed with vector := after }, { alone with vector := twin }, reply, twinReply, ?_, ?_,
      hagrees, hafter⟩
    · rw [serveMixed, serve_vector hcommand hmem, hserve]
      rfl
    · have hcommand' : ({ input.request with env := input.alone } : Request F).command =
          some command := hcommand
      rw [serveAlone, serve_vector hcommand' hmem, htwin]
      rfl
  · obtain ⟨-, hregular⟩ := hcondition
    obtain ⟨command, hmem, hcommand⟩ := hregular.command_mem
    have hforeign : input.request.ns = other := by
      apply hregular.ns_eq.resolve_left
      simpa [TenantRequest.comesFrom] using hdrop
    obtain ⟨key, hkey, howned⟩ := hother.owns input.request.tokens[1]?
    obtain ⟨after, reply, hserve, hafter⟩ := haside.command_other howned hregular.granted
      hregular.room hmem
    rw [← hkey, ← hforeign] at hserve
    refine ⟨{ mixed with vector := after }, reply, ?_, hafter⟩
    rw [serveMixed, serve_vector hcommand hmem, hserve]
    rfl

end Commands

/-- A request that finds the same environment in both runs. -/
def TenantRequest.typed (ns : String) (words : List String) : TenantRequest Float32 where
  request := Request.typed Float32 ns words
  alone := Env.quiet Float32

/-- The second tenant removes its vector before the first one counts. -/
def politeTenant : List (TenantRequest Float32) :=
  [.typed "a" ["VSET", "k", "1", "0.5"], .typed "b" ["VSET", "k", "1", "0.25"],
    .typed "a" ["VGET", "k"], .typed "b" ["VDEL", "k"], .typed "a" ["VCOUNT"]]

/-- What is checked of the commands of the first tenant. -/
def shelteredHere (server : Server Float32) (input : TenantRequest Float32) : Prop :=
  server.vector.index.size < maxElements ∧
    (input.request.command = some .vcount → NoneLive (lit "b") server.vector) ∧
    input.request.command ≠ some .vsearch

instance (server : Server Float32) (input : TenantRequest Float32) :
    Decidable (shelteredHere server input) := by
  unfold shelteredHere NoneLive
  infer_instance

theorem granted_quiet : Granted (Env.quiet Float32) :=
  ⟨rfl, rfl⟩

theorem tenantName_a : TenantName (lit "a") :=
  ⟨by decide, by decide, by decide⟩

theorem tenantName_b : TenantName (lit "b") :=
  ⟨by decide, by decide, by decide⟩

theorem vector_namespaces_isolated_politeTenant :
    ∃ final replies twin twinReplies,
      run serveMixed (Server.start Float32 1000 .lru) politeTenant = some (final, replies) ∧
      run serveAlone (Server.start Float32 1000 .lru)
        (politeTenant.filter (TenantRequest.comesFrom (lit "a"))) = some (twin, twinReplies) ∧
      Forall₂ (Agrees (F := Float32))
        (answersTo (TenantRequest.comesFrom (lit "a")) politeTenant replies) twinReplies := by
  have hhere : Along serveMixed shelteredHere (Server.start Float32 1000 .lru) politeTenant := by
    decide +kernel
  have hregular : ∀ input ∈ politeTenant,
      (input.request.ns = lit "a" ∨ input.request.ns = lit "b") ∧
        (∃ command ∈ vectorCommands, input.request.command = some command) ∧
        tokenRoom input.request.tokens ≤ messageLimit + 1 := by
    decide +kernel
  have hquiet : ∀ input ∈ politeTenant,
      input.request.env = Env.quiet Float32 ∧ input.alone = Env.quiet Float32 := by
    simp [politeTenant, TenantRequest.typed, Request.typed]
  refine vector_namespaces_isolated 1000 .lru tenantName_a tenantName_b (by decide)
    (fun input hinput => ?_) ((hhere.and_forall hquiet).imp fun server input hcondition => ?_)
  · obtain ⟨hnames, hcommand, hroom⟩ := hregular input hinput
    obtain ⟨henv, halone⟩ := hquiet input hinput
    exact ⟨hnames, hcommand, henv ▸ granted_quiet, halone ▸ granted_quiet, hroom⟩
  · obtain ⟨⟨hspace, hcount, hsearch⟩, henv, halone⟩ := hcondition
    refine ⟨fun _ => halone.trans henv.symm, fun _ command hcommand => .inr ?_⟩
    cases command with
    | vset => exact fun _ _ _ => .inl hspace
    | vcount => exact hcount hcommand
    | vsearch => exact absurd hcommand hsearch
    | _ => trivial

/-- One tenant stores a vector, the other one counts. -/
def countedTenant : List (TenantRequest Float32) :=
  [.typed "b" ["VSET", "k", "1", "0.25"], .typed "a" ["VCOUNT"]]

/-- The count shows the vector of the other tenant. -/
theorem count_shows_other_tenant :
    (run serveMixed (Server.start Float32 1000 .lru) countedTenant).map Prod.snd =
        some [say "OK\r\n", say "1\r\n"] ∧
      (run serveAlone (Server.start Float32 1000 .lru)
          (countedTenant.filter (TenantRequest.comesFrom (lit "a")))).map Prod.snd =
        some [say "0\r\n"] ∧
      TenantName (lit "a") ∧ TenantName (lit "b") := by
  exact ⟨by decide +kernel, by decide +kernel, tenantName_a, tenantName_b⟩

end LiteMultiKV.Protocol
