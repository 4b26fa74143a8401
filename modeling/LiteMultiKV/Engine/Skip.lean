import LiteMultiKV.Core.Chain
import LiteMultiKV.Engine.Memory

/-!
# The skip-list engine

`kvs_skiptable.c` keeps nodes with an array of forward pointers, one per level
up to the level the node was created with, below a header node that has all
levels.  Indexing a forward array outside its length has no defined result.
The coin flips of `randomLevel` are a parameter of the insertion.
-/

namespace LiteMultiKV.Skip

open LiteMultiKV.Chain CText Dictionary Memory

/-- `MAX_LEVEL`. -/
def maxLevel : ℕ := 6

/-- `Node`. -/
structure SkipNode where
  key : CStr
  value : StrPtr
  forward : List (Option ℕ)

/-- `kvs_skip_t`, with the memory of its nodes; `next` is the first address that
no allocation has handed out. -/
structure KvsSkip where
  node : ℕ → SkipNode
  header : ℕ
  level : ℕ
  next : ℕ

/-- `createNode` after its allocations. -/
def createNode (level : ℕ) (key value : CStr) : SkipNode where
  key := key
  value := .text value
  forward := List.replicate (level + 1) none

/-- `p->forward[i]`. -/
def forwardAt (skip : KvsSkip) (i p : ℕ) : Option (Option ℕ) :=
  (skip.node p).forward[i]?

/-- `p->forward[i] = target`. -/
def setForward (skip : KvsSkip) (i p : ℕ) (target : Option ℕ) : Option KvsSkip :=
  if i < (skip.node p).forward.length then
    some { skip with
      node := Function.update skip.node p
        { skip.node p with forward := (skip.node p).forward.set i target } }
  else none

/-- The successive outcomes of `rand() < RAND_MAX / 2`. -/
abbrev Coins := ℕ → Bool

def randomLevelFrom (coins : Coins) : ℕ → ℕ → ℕ
  | 0, level => level
  | remaining + 1, level =>
      if coins level then randomLevelFrom coins remaining (level + 1) else level

def randomLevel (coins : Coins) : ℕ :=
  randomLevelFrom coins maxLevel 0

def kvsSkipCreate : KvsSkip where
  node := fun _ => createNode maxLevel (lit "") (lit "")
  header := 0
  level := 0
  next := 1

/-- The inner loop of the search at level `i`. -/
def advance (skip : KvsSkip) (key : CStr) (i current : ℕ) : Option ℕ :=
  skipWhile (forwardAt skip i) (fun node => strcmp (skip.node node).key key < 0)
    skip.next current

/-- The search loop from level `i` down to 0: the node in front of the key at
level 0, and the array `update`. -/
def descend (skip : KvsSkip) (key : CStr) : ℕ → ℕ → Option (ℕ × List ℕ)
  | 0, current => do
      let current ← advance skip key 0 current
      return (current, [current])
  | i + 1, current => do
      let current ← advance skip key (i + 1) current
      let (last, update) ← descend skip key i current
      return (last, update ++ [current])

/-- The node after the last one in front of the key, if it holds the key. -/
def lookup (skip : KvsSkip) (key : CStr) (last : ℕ) : Option (Option ℕ) := do
  match ← forwardAt skip 0 last with
  | none => return none
  | some node => return if strcmp (skip.node node).key key = 0 then some node else none

/-- The loop that links a new node into its levels `0 .. count - 1`. -/
def linkLevels (update : List ℕ) (node : ℕ) : ℕ → KvsSkip → Option KvsSkip
  | 0, skip => some skip
  | i + 1, skip => do
      let skip ← linkLevels update node i skip
      let previous ← update[i]?
      let target ← forwardAt skip i previous
      let skip ← setForward skip i node target
      setForward skip i previous (some node)

/-- `randomLevel` is drawn, and the level of the list raised, before the four
allocations of the new node. -/
def kvsSkipSet (alloc : Alloc) (coins : Coins) (skip : KvsSkip) :
    Option CStr → Option CStr → Option (KvsSkip × ℤ)
  | some key, some value => do
      let (last, update) ← descend skip key skip.level skip.header
      match ← lookup skip key last with
      | some _ => return (skip, 1)
      | none =>
          let level := randomLevel coins
          let update := update ++ List.replicate (level - skip.level) skip.header
          let skip := { skip with level := max skip.level level }
          if alloc 0 && alloc 1 && alloc 2 && alloc 3 then
            let node := skip.next
            let skip := { skip with
              node := Function.update skip.node node (createNode level key value)
              next := skip.next + 1 }
            let skip ← linkLevels update node (level + 1) skip
            return (skip, 0)
          else return (skip, -1)
  | _, _ => some (skip, -1)

def kvsSkipGet (skip : KvsSkip) : Option CStr → Option StrPtr
  | none => some .null
  | some key => do
      let (last, _) ← descend skip key skip.level skip.header
      match ← lookup skip key last with
      | none => return .null
      | some node => return (skip.node node).value

/-- Write the value field of a node. -/
def setValue (skip : KvsSkip) (node : ℕ) (value : StrPtr) : KvsSkip :=
  { skip with node := Function.update skip.node node { skip.node node with value := value } }

/-- The old value is freed first and the field is written only after the
allocation, so a failure leaves the node pointing at freed memory. -/
def kvsSkipMod (alloc : Alloc) (skip : KvsSkip) :
    Option CStr → Option CStr → Option (KvsSkip × ℤ)
  | some key, some value => do
      let (last, _) ← descend skip key skip.level skip.header
      match ← lookup skip key last with
      | none => return (skip, 1)
      | some node =>
          if alloc 0 then return (setValue skip node (.text value), 0)
          else return (setValue skip node .freed, -2)
  | _, _ => some (skip, -1)

/-- The loop that takes a node out of its levels, from level `i` upwards. -/
def unlinkLevels (update : List ℕ) (node : ℕ) : ℕ → ℕ → KvsSkip → Option KvsSkip
  | 0, _, skip => some skip
  | remaining + 1, i, skip => do
      let previous ← update[i]?
      let target ← forwardAt skip i previous
      if target ≠ some node then return skip
      else
        let target ← forwardAt skip i node
        let skip ← setForward skip i previous target
        unlinkLevels update node remaining (i + 1) skip

/-- The loop that lowers the level over empty top levels. -/
def lowerLevel (skip : KvsSkip) : ℕ → Option ℕ
  | 0 => some 0
  | level + 1 => do
      match ← forwardAt skip (level + 1) skip.header with
      | none => lowerLevel skip level
      | some _ => return level + 1

def kvsSkipDel (skip : KvsSkip) : Option CStr → Option (KvsSkip × ℤ)
  | none => some (skip, -1)
  | some key => do
      let (last, update) ← descend skip key skip.level skip.header
      match ← lookup skip key last with
      | none => return (skip, 1)
      | some node =>
          let skip ← unlinkLevels update node (skip.level + 1) 0 skip
          let level ← lowerLevel skip skip.level
          return ({ skip with level := level }, 0)

def kvsSkipExist (skip : KvsSkip) : Option CStr → Option ℤ
  | none => some (-1)
  | some key => do
      let value ← kvsSkipGet skip (some key)
      return if value = .null then 1 else 0

/-- The entries met from `current` along level 0. -/
def entriesFrom (skip : KvsSkip) : ℕ → Option ℕ → Store
  | 0, _ => []
  | _ + 1, none => []
  | fuel + 1, some node =>
      entry (skip.node node).key (skip.node node).value ::
        entriesFrom skip fuel ((forwardAt skip 0 node).getD none)

/-- The entries in the order of the level-0 chain. -/
def entries (skip : KvsSkip) : Store :=
  entriesFrom skip skip.next ((forwardAt skip 0 skip.header).getD none)

end LiteMultiKV.Skip
