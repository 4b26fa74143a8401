import LiteMultiKV.Cache.Report
import LiteMultiKV.Engine.VectorFaults
import LiteMultiKV.Persist.Rdb
import LiteMultiKV.Protocol.Tokens

/-!
# The command interface

`kvs_filter_protocol` looks the first token up in the command table and runs
the command; `kvs_protocol` splits a message into tokens and calls it.  The
twenty key-value commands are the five operations of four engines.  They share
one cache, which `ENABLE_CACHE` compiles in or out.

A command that has no defined result in C (a null or freed pointer followed, an
index outside its array, an allocation used unchecked after it failed) has the
result `none`.  For a read behind the end of a vector this depends on the
environment: where that memory is mapped the read yields some value.
-/

namespace LiteMultiKV.Protocol

open Cache CText Families Files Memory Numeric Persist LiteMultiKV.Skip LiteMultiKV.Vector

/-- The five operations of a key-value engine. -/
inductive Operation where
  | set
  | get
  | del
  | mod
  | exist
  deriving DecidableEq

inductive Command where
  | keyValue (family : Family) (operation : Operation)
  | vset
  | vget
  | vsearch
  | vdel
  | vcount
  | policy
  | stats
  | recommend
  | ns
  | save
  | bgsave
  | lastsave
  deriving DecidableEq

/-- The array `command` with the cases of the `switch`. -/
def commandTable : List (String × Command) :=
  [("SET", .keyValue .array .set),
    ("GET", .keyValue .array .get),
    ("DEL", .keyValue .array .del),
    ("MOD", .keyValue .array .mod),
    ("EXIST", .keyValue .array .exist),
    ("RSET", .keyValue .rbtree .set),
    ("RGET", .keyValue .rbtree .get),
    ("RDEL", .keyValue .rbtree .del),
    ("RMOD", .keyValue .rbtree .mod),
    ("REXIST", .keyValue .rbtree .exist),
    ("HSET", .keyValue .hash .set),
    ("HGET", .keyValue .hash .get),
    ("HDEL", .keyValue .hash .del),
    ("HMOD", .keyValue .hash .mod),
    ("HEXIST", .keyValue .hash .exist),
    ("SSET", .keyValue .skip .set),
    ("SGET", .keyValue .skip .get),
    ("SDEL", .keyValue .skip .del),
    ("SMOD", .keyValue .skip .mod),
    ("SEXIST", .keyValue .skip .exist),
    ("VSET", .vset),
    ("VGET", .vget),
    ("VSEARCH", .vsearch),
    ("VDEL", .vdel),
    ("VCOUNT", .vcount),
    ("POLICY", .policy),
    ("STATS", .stats),
    ("RECOMMEND", .recommend),
    ("NAMESPACE", .ns),
    ("NS", .ns),
    ("SAVE", .save),
    ("BGSAVE", .bgsave),
    ("LASTSAVE", .lastsave)]

/-- The loop over the command names. -/
def findCommand (token : CStr) : Option Command :=
  (commandTable.find? fun item => strcmp token (lit item.1) = 0).map Prod.snd

/-- `RESPONSE_MAX_LEN`. -/
def responseMaxLen : ℕ := 1024

/-- The size of the static buffers for joined tokens. -/
def joinBufferSize : ℕ := 8192

/-- The global state of the server. -/
structure Server (F : Type) where
  engines : Engines
  vector : KvsVector F
  cache : CacheManager F

/-- What the environment decides during one request, and the disk as the request
finds it. -/
structure Env (F : Type) where
  alloc : Alloc
  coins : Coins
  draws : Draws
  mapped : Bool
  beyond : ℕ → ℕ → Beyond F
  save : SaveChance
  disk : Disk
  pid : ℤ
  mtime : ℤ

/-- What a request leaves behind: the state, the namespace of the connection,
the disk, a background save it has started, and the reply. -/
structure Outcome (F : Type) where
  server : Server F
  ns : CStr
  disk : Disk
  spawned : Option SaveProcess
  reply : Written

/-- A fixed reply. -/
def say (text : String) : Written :=
  sprintf (ascii text)

/-- The reply that shows a stored value. -/
def showValue (value : CStr) : Written :=
  snprintf responseMaxLen (value.bytes ++ crlf)

/-- The reply to the result of a `set`, `del` or `mod`. -/
def codeReply (code : ℤ) (positive : String) : Written :=
  if code < 0 then say "ERROR\r\n"
  else if code = 0 then say "OK\r\n"
  else say positive

section

variable {F : Type}

/-! ## Key-value commands -/

/-- The allocations and coin flips of a request. -/
def Env.chance (env : Env F) : Chance where
  alloc := env.alloc
  coins := env.coins

/-- The invalidation after a successful `del` or `mod`. -/
def dropCached (enableCache : Bool) (cache : CacheManager F) (key : Option CStr) (code : ℤ) :
    Option (CacheManager F) :=
  if enableCache && code = 0 then (kvsCacheDel cache key).map Prod.fst else some cache

/-- A read that the cache did not answer. -/
def readEngine (enableCache : Bool) (alloc : Alloc) (family : Family) (server : Server F)
    (key : Option CStr) : Option (Server F × Written) := do
  match ← engineGet family server.engines key with
  | .null => return (server, say "NO EXIST\r\n")
  | .freed => none
  | .text value =>
      if enableCache then
        let key ← key
        let cache ← kvsCacheLruAdd alloc server.cache key value
        return ({ server with cache := cache }, showValue value)
      else return (server, showValue value)

def getCommand (enableCache : Bool) (alloc : Alloc) (family : Family) (server : Server F)
    (key : Option CStr) : Option (Server F × Written) :=
  if enableCache then do
    let (cache, cached) ← kvsCacheGet server.cache key
    let server := { server with cache := cache }
    match cached with
    | some value => return (server, showValue value)
    | none => readEngine enableCache alloc family server key
  else readEngine enableCache alloc family server key

/-- The cases of the `switch` for one engine. -/
def keyValueCommand (enableCache : Bool) (chance : Chance) (family : Family)
    (operation : Operation) (server : Server F) (key value : Option CStr) :
    Option (Server F × Written) :=
  match operation with
  | .set => do
      let (engines, code) ← engineSet chance family server.engines key value
      return ({ server with engines := engines }, codeReply code "EXIST\r\n")
  | .get => getCommand enableCache chance.alloc family server key
  | .del => do
      let (engines, code) ← engineDel family server.engines key
      let cache ← dropCached enableCache server.cache key code
      return ({ server with engines := engines, cache := cache },
        codeReply code "NO EXIST\r\n")
  | .mod => do
      let (engines, code) ← engineMod chance family server.engines key value
      let cache ← dropCached enableCache server.cache key code
      return ({ server with engines := engines, cache := cache },
        codeReply code "NO EXIST\r\n")
  | .exist => do
      let code ← engineExist family server.engines key
      return (server, if code = 0 then say "EXIST\r\n" else say "NO EXIST\r\n")

/-- The commands whose remaining tokens are joined into one value. -/
def Operation.takesValue : Operation → Bool
  | .set => true
  | .mod => true
  | _ => false

/-- The value argument. -/
def valueToken (tokens : List CStr) : Option CStr :=
  if 3 < tokens.length then some (joinTokens (tokens.drop 2) joinBufferSize) else tokens[2]?

/-- A key-value command with its arguments taken from the tokens. -/
def runKeyValue (enableCache : Bool) (chance : Chance) (family : Family)
    (operation : Operation) (tokens : List CStr) (ns : CStr) (server : Server F) :
    Option (Server F × Written) :=
  if operation.takesValue && tokens.length < 3 then
    some (server, say "ERROR: command requires key and value\r\n")
  else
    keyValueCommand enableCache chance family operation server
      (makeNamespacedKey ns tokens[1]?) (valueToken tokens)

/-! ## Policies and namespaces -/

def policyArgument (name : CStr) : Option Policy :=
  if strcmp name (lit "lru") = 0 then some .lru
  else if strcmp name (lit "lfu") = 0 then some .lfu
  else if strcmp name (lit "arc") = 0 then some .arc
  else none

def policyCommand (tokens : List CStr) (cache : CacheManager F) : CacheManager F × Written :=
  match tokens[1]?, tokens[2]? with
  | some word, some name =>
      if strcmp word (lit "SET") = 0 then
        match policyArgument name with
        | some policy =>
            (kvsCacheSetPolicy cache policy,
              sprintf (ascii "Policy set to " ++ (policyName policy).bytes ++ crlf))
        | none =>
            (cache, sprintf (ascii "Unknown policy: " ++ name.bytes ++
              ascii " (use lru|lfu|arc)\r\n"))
      else
        (cache, sprintf (ascii "Current policy: " ++ (policyName cache.policy).bytes ++ crlf))
  | _, _ =>
      (cache, sprintf (ascii "Current policy: " ++ (policyName cache.policy).bytes ++ crlf))

/-- `strncpy(namespace, name, 63)` into 64 bytes. -/
def setNamespace (name : CStr) : CStr × Written :=
  let ns := name.take 63
  (ns, sprintf (ascii "Namespace set to: " ++ ns.bytes ++ crlf))

def namespaceCommand (tokens : List CStr) (ns : CStr) : CStr × Written :=
  match tokens[1]?, tokens[2]? with
  | none, _ => (ns, sprintf (ascii "Current namespace: " ++ ns.bytes ++ crlf))
  | some word, none =>
      if strcmp word (lit "RESET") = 0 then
        (lit "default", say "Namespace reset to: default\r\n")
      else setNamespace word
  | some word, some name =>
      if strcmp word (lit "SET") = 0 then setNamespace name
      else if strcmp word (lit "RESET") = 0 then
        (lit "default", say "Namespace reset to: default\r\n")
      else (ns, sprintf (ascii "Current namespace: " ++ ns.bytes ++ crlf))

/-! ## Persistence -/

def saveCommand (env : Env F) (server : Server F) : Option (Disk × Written) := do
  let (disk, code) ← rdbSaveDefault env.save server.engines env.disk
  return (disk,
    if 0 ≤ code then
      sprintf (ascii "OK: Saved " ++ formatInt code ++ ascii " keys to dump.rdb\r\n")
    else say "ERROR: Failed to save\r\n")

/-- The save the child runs, on the engines as they are at the fork, and the reply
of the parent. -/
def bgsaveCommand (env : Env F) (server : Server F) : Option SaveProcess × Written :=
  if 0 < env.pid then
    ((liveRecords server.engines).map fun records =>
        startSave env.save.timestamp records rdbFilename,
      sprintf (ascii "Background saving started (pid: " ++ formatInt env.pid ++
        ascii ")\r\n"))
  else (none, say "ERROR: Fork failed\r\n")

def lastsaveCommand (env : Env F) : Written :=
  match env.disk.read rdbFilename with
  | some _ =>
      sprintf (ascii "Last save: " ++ formatLong env.mtime ++ ascii " (timestamp)\r\n")
  | none => say "No dump file found\r\n"

variable [CFloat F]

/-! ## Vector commands -/

/-- The outcomes of a request inside the vector engine. -/
def Env.vectorChance (env : Env F) : VectorChance F where
  alloc := env.alloc
  draws := env.draws
  beyond := env.beyond

/-- The call of `kvs_vector_set` that a request makes. -/
def Env.setCall (env : Env F) (key : Option CStr) (value : CStr) : Attempt F where
  mapped := env.mapped
  update := .set env.vectorChance key (some value)

/-- The `strcat` loops: nothing checks the size of the static buffer. -/
def concatTokens (tokens : List CStr) : Option CStr :=
  let bytes := List.intercalate [blank] (tokens.map CStr.bytes)
  if bytes.length < joinBufferSize then some (CStr.read bytes) else none

def vsetCommand (env : Env F) (tokens : List CStr) (key : Option CStr)
    (vector : KvsVector F) : Option (KvsVector F × Written) :=
  if 4 ≤ tokens.length then do
    let value ← concatTokens (tokens.drop 2)
    let (vector, code) ← attempt vector (env.setCall key value)
    return (vector, if code < 0 then say "ERROR\r\n" else say "OK\r\n")
  else some (vector, say "ERROR\r\n")

def vgetCommand (key : Option CStr) (vector : KvsVector F) : Written :=
  match kvsVectorGet vector key with
  | none => say "NO EXIST\r\n"
  | some text => showValue text

/-- One row of a search result. -/
def resultRow (vector : KvsVector F) (item : ℕ × F) : List Byte :=
  ((kvsVectorGetKeyById vector item.1).getD (lit "(unknown)")).bytes ++ ascii " " ++
    (CFloat.format 4 item.2).bytes ++ crlf

def searchReply (vector : KvsVector F) (found : List (ℕ × F)) : Written :=
  found.foldl (fun written item => snprintfAt responseMaxLen written (resultRow vector item))
    (snprintf responseMaxLen (ascii "RESULT\r\n"))

/-- The number of results asked for. -/
def searchCount (token : CStr) : ℕ :=
  let k := atoi token
  if k ≤ 0 ∨ 100 < k then 10 else k.toNat

def vsearchCommand (env : Env F) (tokens : List CStr) (key : Option CStr)
    (vector : KvsVector F) : Option Written :=
  if 5 ≤ tokens.length then do
    let count ← tokens[2]?
    let query ← concatTokens (tokens.drop 4)
    let (n, found) ← attemptSearch env.mapped env.vectorChance vector (searchCount count) key
      (some query)
    return if n ≤ 0 then say "EMPTY\r\n" else searchReply vector found
  else some (say "ERROR\r\n")

def vdelCommand (key : Option CStr) (vector : KvsVector F) : KvsVector F × Written :=
  let (vector, code) := kvsVectorDel vector key
  (vector, if code = 0 then say "OK\r\n" else say "NO EXIST\r\n")

/-! ## Dispatch -/

/-- The buffer size of `STATS` and `RECOMMEND`. -/
def reportBufferSize : ℕ := 1024

/-- The cases of the `switch` that `ENABLE_CACHE` compiles in. -/
def cacheCommand (command : Command) (tokens : List CStr) (cache : CacheManager F) :
    CacheManager F × Written :=
  match command with
  | .policy => policyCommand tokens cache
  | .stats => (cache, sprintf (kvsCacheGetStats cache reportBufferSize).bytes)
  | .recommend =>
      let (cache, text) := kvsCacheAiRecommend cache reportBufferSize
      (cache, sprintf text.bytes)
  | _ => (cache, say "Unknown command\r\n")

def runCommand (enableCache : Bool) (env : Env F) (command : Command) (tokens : List CStr)
    (ns : CStr) (server : Server F) : Option (Outcome F) :=
  let done := fun (server : Server F) (reply : Written) =>
    ({ server := server, ns := ns, disk := env.disk, spawned := none, reply := reply } :
      Outcome F)
  let key := makeNamespacedKey ns tokens[1]?
  match command with
  | .keyValue family operation => do
      let (server, reply) ←
        runKeyValue enableCache env.chance family operation tokens ns server
      return done server reply
  | .vset => do
      let (vector, reply) ← vsetCommand env tokens key server.vector
      return done { server with vector := vector } reply
  | .vget => some (done server (vgetCommand key server.vector))
  | .vsearch => do
      let reply ← vsearchCommand env tokens key server.vector
      return done server reply
  | .vdel =>
      let (vector, reply) := vdelCommand key server.vector
      some (done { server with vector := vector } reply)
  | .vcount =>
      some (done server (sprintf (formatInt (kvsVectorCount server.vector) ++ crlf)))
  | .ns =>
      let (ns, reply) := namespaceCommand tokens ns
      some { done server reply with ns := ns }
  | .save => do
      let (disk, reply) ← saveCommand env server
      return { done server reply with disk := disk }
  | .bgsave =>
      let (spawned, reply) := bgsaveCommand env server
      some { done server reply with spawned := spawned }
  | .lastsave => some (done server (lastsaveCommand env))
  | command =>
      if enableCache then
        let (cache, reply) := cacheCommand command tokens server.cache
        some (done { server with cache := cache } reply)
      else some (done server (say "Unknown command\r\n"))

/-- What a command with a result has done to the server, by the part that it works on. -/
inductive Ran (enableCache : Bool) (env : Env F) (tokens : List CStr) (ns : CStr)
    (server : Server F) : Command → Outcome F → Prop
  | keyValue {family operation after reply}
      (hcommand : runKeyValue enableCache env.chance family operation tokens ns server =
        some (after, reply)) :
      Ran enableCache env tokens ns server (.keyValue family operation)
        ⟨after, ns, env.disk, none, reply⟩
  | vector {command} (hother : command ≠ .save) (vector : KvsVector F) (reply : Written) :
      Ran enableCache env tokens ns server command
        ⟨{ server with vector := vector }, ns, env.disk, none, reply⟩
  | cache {command} (hother : command ≠ .save) (reply : Written) :
      Ran enableCache env tokens ns server command
        ⟨{ server with cache := (cacheCommand command tokens server.cache).1 }, ns, env.disk,
          none, reply⟩
  | ns (name : CStr) (reply : Written) :
      Ran enableCache env tokens ns server .ns ⟨server, name, env.disk, none, reply⟩
  | save {disk reply} (hsave : saveCommand env server = some (disk, reply)) :
      Ran enableCache env tokens ns server .save ⟨server, ns, disk, none, reply⟩
  | bgsave :
      Ran enableCache env tokens ns server .bgsave
        ⟨server, ns, env.disk, (bgsaveCommand env server).1, (bgsaveCommand env server).2⟩

theorem ran_of_runCommand {enableCache : Bool} {env : Env F} {command : Command}
    {tokens : List CStr} {ns : CStr} {server : Server F} {outcome : Outcome F}
    (hrun : runCommand enableCache env command tokens ns server = some outcome) :
    Ran enableCache env tokens ns server command outcome := by
  cases command with
  | keyValue family operation =>
      obtain ⟨⟨after, reply⟩, hcommand, hdone⟩ := Option.bind_eq_some_iff.1 hrun
      exact Option.some.inj hdone ▸ .keyValue hcommand
  | vset =>
      obtain ⟨⟨vector, reply⟩, -, hdone⟩ := Option.bind_eq_some_iff.1 hrun
      exact Option.some.inj hdone ▸ .vector (by simp) vector reply
  | vsearch =>
      obtain ⟨reply, -, hdone⟩ := Option.bind_eq_some_iff.1 hrun
      exact Option.some.inj hdone ▸ .vector (by simp) server.vector reply
  | save =>
      obtain ⟨⟨disk, reply⟩, hsave, hdone⟩ := Option.bind_eq_some_iff.1 hrun
      exact Option.some.inj hdone ▸ .save hsave
  | ns => exact Option.some.inj hrun ▸ .ns _ _
  | bgsave => exact Option.some.inj hrun ▸ .bgsave
  | policy | stats | recommend =>
      simp only [runCommand] at hrun
      split at hrun
      · exact Option.some.inj hrun ▸ .cache (by simp) _
      · exact Option.some.inj hrun ▸ .vector (by simp) server.vector _
  | vget | vdel | vcount | lastsave =>
      exact Option.some.inj hrun ▸ .vector (by simp) _ _

/-- `kvs_filter_protocol` on a non-empty list of tokens. -/
def kvsFilterProtocol (enableCache : Bool) (env : Env F) (tokens : List CStr) (ns : CStr)
    (server : Server F) : Option (Outcome F) :=
  match tokens.head?.bind findCommand with
  | some command => runCommand enableCache env command tokens ns server
  | none =>
      some { server := server, ns := ns, disk := env.disk, spawned := none,
             reply := say "Unknown command\r\n" }

/-- `ENABLE_CACHE` is on in the server that is built. -/
def kvsProtocol (env : Env F) (msg : List Byte) (length : ℤ) (ns : CStr)
    (server : Server F) : Option (Outcome F) :=
  let unchanged := fun reply : Written =>
    ({ server := server, ns := ns, disk := env.disk, spawned := none, reply := reply } :
      Outcome F)
  if length ≤ 0 then some (unchanged { buffer := [], length := -1 })
  else
    match tokenStrings (stripLines length.toNat msg) with
    | [] => some (unchanged (say "Unknown command\r\n"))
    | tokens => do
        let outcome ← kvsFilterProtocol true env tokens ns server
        return if outcome.reply.length < 0 then
          { outcome with reply := say "ERROR\r\n" }
        else outcome

/-- `init_kvengine`. -/
def initKvengine (F : Type) [CFloat F] (chance : LoadChance) (disk : Disk) :
    Option (Server F) := do
  let (engines, _) ← rdbLoadDefault chance disk Engines.create
  return {
    engines := engines
    vector := kvsVectorCreate F
    cache := kvsCacheInit F 1000 }

end

end LiteMultiKV.Protocol
