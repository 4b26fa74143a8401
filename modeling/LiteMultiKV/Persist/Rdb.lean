import LiteMultiKV.Core.Disk
import LiteMultiKV.Engine.Families

/-!
# The dump file

`kvs_rdb.c` writes the live pairs of the four engines to a temporary file and
renames it.  A save is modelled as a process that makes one system call per
step and is handed the value the call returns, so that it can be run alone
with any results or interleaved with another one.  A load parses the bytes and
calls the `set` operation of the engine each record names.
-/

namespace LiteMultiKV.Persist

open List CText Files Families Memory

/-- `RDB_MAGIC`. -/
def rdbMagic : List Byte :=
  ascii "KVSDB"

/-- `RDB_VERSION`. -/
def rdbVersion : ℤ := 1

/-- `RDB_FILENAME`. -/
def rdbFilename : CStr :=
  lit "dump.rdb"

/-- `ENGINE_ARRAY`, `ENGINE_HASH`, `ENGINE_RBTREE` and `ENGINE_SKIPLIST`. -/
def engineTag : Family → ℤ
  | .array => 0
  | .hash => 1
  | .rbtree => 2
  | .skip => 3

def familyOfTag (tag : ℤ) : Option Family :=
  if tag = 0 then some .array
  else if tag = 1 then some .hash
  else if tag = 2 then some .rbtree
  else if tag = 3 then some .skip
  else none

/-- A live pair with the engine it belongs to. -/
structure Record where
  family : Family
  key : CStr
  value : CStr
  deriving DecidableEq

/-! ## Writing -/

/-- `htonl` of an `int`, byte by byte. -/
def intBytes (value : ℤ) : List Byte :=
  let bits := (value % 2 ^ 32).toNat
  [UInt8.ofNat (bits / 2 ^ 24), UInt8.ofNat (bits / 2 ^ 16), UInt8.ofNat (bits / 2 ^ 8),
    UInt8.ofNat bits]

/-- How the caller tests the value a `write` returns: against the length, for
being negative, or not at all. -/
inductive Check where
  | exact
  | nonnegative
  | unchecked
  deriving DecidableEq

/-- One call of `write`. -/
structure WriteOp where
  bytes : List Byte
  check : Check
  deriving DecidableEq

def WriteOp.passes (op : WriteOp) (result : ℤ) : Bool :=
  match op.check with
  | .exact => result = op.bytes.length
  | .nonnegative => 0 ≤ result
  | .unchecked => true

/-- `rdb_write_int`, whose callers test for a negative result. -/
def rdbWriteInt (value : ℤ) : WriteOp where
  bytes := intBytes value
  check := .nonnegative

def rdbWriteString (text : CStr) : List WriteOp :=
  [rdbWriteInt (strlen text), { bytes := text.bytes, check := .exact }]

/-- `rdb_save_header` at the time `timestamp`. -/
def rdbSaveHeader (timestamp : ℤ) : List WriteOp :=
  [{ bytes := rdbMagic, check := .exact },
    rdbWriteInt rdbVersion,
    { bytes := intBytes (timestamp / 2 ^ 32), check := .exact },
    { bytes := intBytes timestamp, check := .exact }]

def recordOps (record : Record) : List WriteOp :=
  rdbWriteInt (engineTag record.family) ::
    (rdbWriteString record.key ++ rdbWriteString record.value)

/-- All writes of one save; the result of the last one is not looked at. -/
def saveOps (timestamp : ℤ) (records : List Record) : List WriteOp :=
  rdbSaveHeader timestamp ++ records.flatMap recordOps ++
    [{ bytes := intBytes (-1), check := .unchecked }]

/-- The file a save means to write. -/
def encoding (timestamp : ℤ) (records : List Record) : List Byte :=
  (saveOps timestamp records).flatMap WriteOp.bytes

/-- The record of a live pair; its value is dereferenced. -/
def recordOf (family : Family) (item : Σ _ : CStr, StrPtr) : Option Record :=
  match item.2 with
  | .text value => some ⟨family, item.1, value⟩
  | _ => none

/-- The pairs of one engine in the order in which `rdb_save` walks it: table
slots, bucket chains, the recursion of `save_rbtree_node`, the level-0 chain.
Only the array loop skips null values. -/
def savedEntries (family : Family) (engines : Engines) : Store :=
  match family with
  | .array => (entries .array engines).filter fun item => item.2 ≠ .null
  | _ => entries family engines

def recordsOf (family : Family) (engines : Engines) : Option (List Record) :=
  (savedEntries family engines).mapM (recordOf family)

/-- The records of all engines, in file order. -/
def liveRecords (engines : Engines) : Option (List Record) := do
  let array ← recordsOf .array engines
  let hash ← recordsOf .hash engines
  let rbtree ← recordsOf .rbtree engines
  let skip ← recordsOf .skip engines
  return array ++ hash ++ rbtree ++ skip

/-! ## Saving as a process -/

inductive SavePhase where
  | opening
  | writing (inode offset : ℕ) (ops : List WriteOp)
  | unlinking
  | finished (code : ℤ)
  deriving DecidableEq

/-- A running `rdb_save`: what it writes is fixed when it starts. -/
structure SaveProcess where
  filename : CStr
  ops : List WriteOp
  count : ℤ
  phase : SavePhase
  deriving DecidableEq

/-- `snprintf(tmpfile, 256, "%s.tmp", filename)`. -/
def tmpName (filename : CStr) : CStr :=
  (filename.append (lit ".tmp")).take 255

def startSave (timestamp : ℤ) (records : List Record) (filename : CStr) : SaveProcess where
  filename := filename
  ops := saveOps timestamp records
  count := records.length
  phase := .opening

/-- One system call of a save, which returns `result`.  A `write` that returns
`n` has stored the first `n` bytes; a `rename` of a name that is gone fails. -/
def saveStep (result : ℤ) (process : SaveProcess) (disk : Disk) : SaveProcess × Disk :=
  let tmp := tmpName process.filename
  match process.phase with
  | .opening =>
      if result < 0 then ({ process with phase := .finished (-1) }, disk)
      else
        let (disk, inode) := disk.openTrunc tmp
        ({ process with phase := .writing inode 0 process.ops }, disk)
  | .writing inode offset (op :: ops) =>
      let stored := op.bytes.take result.toNat
      let disk := disk.write inode offset stored
      if op.passes result then
        ({ process with phase := .writing inode (offset + stored.length) ops }, disk)
      else ({ process with phase := .unlinking }, disk)
  | .writing _ _ [] =>
      if result < 0 ∨ disk.entry tmp = none then ({ process with phase := .unlinking }, disk)
      else
        ({ process with phase := .finished process.count },
          disk.rename tmp process.filename)
  | .unlinking => ({ process with phase := .finished (-1) }, disk.unlink tmp)
  | .finished _ => (process, disk)

/-- A save that runs alone: `results` are the values its calls return. -/
def saveRun (results : ℕ → ℤ) : ℕ → ℕ → SaveProcess → Disk → Option (Disk × ℤ)
  | 0, _, _, _ => none
  | fuel + 1, i, process, disk =>
      match process.phase with
      | .finished code => some (disk, code)
      | _ =>
          let (process, disk) := saveStep (results i) process disk
          saveRun results fuel (i + 1) process disk

/-- What the environment decides during one `rdb_save`. -/
structure SaveChance where
  timestamp : ℤ
  results : ℕ → ℤ

def rdbSave (chance : SaveChance) (engines : Engines) (filename : CStr) (disk : Disk) :
    Option (Disk × ℤ) := do
  let records ← liveRecords engines
  let process := startSave chance.timestamp records filename
  saveRun chance.results (process.ops.length + 4) 0 process disk

def rdbSaveDefault (chance : SaveChance) (engines : Engines) (disk : Disk) :
    Option (Disk × ℤ) :=
  rdbSave chance engines rdbFilename disk

/-! ## Loading -/

/-- A `read` of exactly `count` bytes. -/
def readExact (count : ℕ) (bytes : List Byte) : Option (List Byte × List Byte) :=
  if bytes.length < count then none else some (bytes.take count, bytes.drop count)

/-- `ntohl` of four bytes. -/
def bytesInt (bytes : List Byte) : ℤ :=
  int32 (bytes.foldl (fun value byte => value * 256 + byte.toNat) 0)

def rdbReadInt (bytes : List Byte) : Option (ℤ × List Byte) :=
  (readExact 4 bytes).map fun (word, rest) => (bytesInt word, rest)

/-- The limit of `rdb_read_string`. -/
def maxStringLength : ℕ := 1024 * 1024

/-- What `rdb_read_string` leaves in the pointer of its caller: the string, nothing,
or a buffer that it has freed. -/
inductive StringRead where
  | text (value : CStr) (rest : List Byte)
  | untouched
  | released

/-- The string read is the C string in the buffer. -/
def rdbReadString (alloc : Bool) (bytes : List Byte) : StringRead :=
  match rdbReadInt bytes with
  | none => .untouched
  | some (length, bytes) =>
      if length ≤ 0 ∨ (maxStringLength : ℤ) < length ∨ !alloc then .untouched
      else
        match readExact length.toNat bytes with
        | none => .released
        | some (text, rest) => .text (CStr.read text) rest

def rdbLoadHeader (bytes : List Byte) : Option (List Byte) := do
  let (magic, bytes) ← readExact 5 bytes
  if magic ≠ rdbMagic then none
  else
    let (version, bytes) ← rdbReadInt bytes
    if version ≠ rdbVersion then none
    else
      let (_, bytes) ← readExact 4 bytes
      let (_, bytes) ← readExact 4 bytes
      return bytes

/-- What the environment decides during one `rdb_load`: whether the `i`-th string
can be allocated, and the outcomes inside the `i`-th `set`. -/
structure LoadChance where
  strings : ℕ → Bool
  sets : ℕ → Chance

/-- The ways in which reading a record ends. -/
inductive RecordRead where
  | record (tag : ℤ) (key value : CStr) (rest : List Byte)
  | stop
  | doubleFree

/-- One record of the loop.  It stops at the terminator and at the first record that
cannot be read; a string cut short has been freed already and is freed again. -/
def readRecord (chance : LoadChance) (i : ℕ) (bytes : List Byte) : RecordRead :=
  match rdbReadInt bytes with
  | none => .stop
  | some (tag, bytes) =>
      if tag = -1 then .stop
      else
        match rdbReadString (chance.strings (2 * i)) bytes with
        | .untouched => .stop
        | .released => .doubleFree
        | .text key bytes =>
            match rdbReadString (chance.strings (2 * i + 1)) bytes with
            | .untouched => .stop
            | .released => .doubleFree
            | .text value bytes => .record tag key value bytes

/-- The record loop of `rdb_load`. -/
def loadLoop (chance : LoadChance) :
    ℕ → ℕ → List Byte → Engines → ℤ → Option (Engines × ℤ)
  | 0, _, _, _, _ => none
  | fuel + 1, i, bytes, engines, count =>
      match readRecord chance i bytes with
      | .stop => some (engines, count)
      | .doubleFree => none
      | .record tag key value rest =>
          match familyOfTag tag with
          | none => loadLoop chance fuel (i + 1) rest engines count
          | some family => do
              let (engines, _) ←
                engineSet (chance.sets i) family engines (some key) (some value)
              loadLoop chance fuel (i + 1) rest engines (count + 1)

def rdbLoad (chance : LoadChance) (file : Option (List Byte)) (engines : Engines) :
    Option (Engines × ℤ) :=
  match file with
  | none => some (engines, 0)
  | some bytes =>
      match rdbLoadHeader bytes with
      | none => some (engines, -1)
      | some body => loadLoop chance (body.length + 1) 0 body engines 0

def rdbLoadDefault (chance : LoadChance) (disk : Disk) (engines : Engines) :
    Option (Engines × ℤ) :=
  rdbLoad chance (disk.read rdbFilename) engines

end LiteMultiKV.Persist
