import LiteMultiKV.Core.CFloat
import LiteMultiKV.Engine.Memory

/-!
# The vector engine

`kvs_vector.c` appends every vector to an array of nodes and links the nodes
of each level into one chain that starts at node 0.  A node pointer is the
index of the node in that array.  Deletion only marks a node.

Distances to the entry point are computed over `MAX_DIM` components even when
the vectors are shorter, so they depend on memory beyond the arrays.  What such
a read yields, if it does not fault, is a parameter, chosen anew for each computed
distance, and the linking and searching loops are written over an arbitrary type
of distances.  The functions of this file are those of a process that gets past all
these reads; `VectorFaults` takes the result away from a call that does not.
-/

namespace LiteMultiKV.Vector

open CText Memory Numeric

def maxDim : ℕ := 1536

def maxElements : ℕ := 100000

def efSearch : ℕ := 128

def maxLayers : ℕ := 16

/-- `HNSWNode`; `dim` is the length of `vector`. -/
structure HNSWNode (F : Type) where
  id : ℕ
  level : ℕ
  vector : List F
  key : Option CStr
  isDeleted : Bool
  forward : List (Option ℕ)

structure HNSWIndex (F : Type) where
  size : ℕ
  deletedCount : ℕ
  maxLevel : ℕ
  enterpointId : ℕ
  nodes : ℕ → Option (HNSWNode F)

/-- `kvs_vector_t`. -/
structure KvsVector (F : Type) where
  index : HNSWIndex F
  count : ℤ

def kvsVectorCreate (F : Type) : KvsVector F where
  index :=
    { size := 0
      deletedCount := 0
      maxLevel := 0
      enterpointId := 0
      nodes := fun _ => none }
  count := 0

/-- The successive outcomes of `r < threshold` in `random_level`. -/
abbrev Draws := ℕ → Bool

def randomLevelFrom (draws : Draws) : ℕ → ℕ → ℕ
  | 0, level => level
  | remaining + 1, level =>
      if draws level then randomLevelFrom draws remaining (level + 1) else level

def randomLevel (draws : Draws) : ℕ :=
  randomLevelFrom draws (maxLayers - 1) 0

section Graph

variable {F D : Type}

/-- `node->forward[level]`. -/
def forwardAt (index : HNSWIndex F) (level node : ℕ) : Option (Option ℕ) :=
  (index.nodes node).bind fun contents => contents.forward[level]?

/-- `node->forward[level] = target`. -/
def setForward (index : HNSWIndex F) (level node : ℕ) (target : Option ℕ) :
    Option (HNSWIndex F) := do
  let contents ← index.nodes node
  if level < contents.forward.length then
    return { index with
      nodes := Function.update index.nodes node
        (some { contents with forward := contents.forward.set level target }) }
  else none

/-! ## Insertion -/

/-- The greedy loop of `insert_hnsw` at one level: the node after which the new
one is linked. -/
def seek (index : HNSWIndex F) (closer : D → D → Bool) (dist : ℕ → D) (level : ℕ) :
    ℕ → Option ℕ → ℕ → D → Option ℕ
  | 0, _, _, _ => none
  | fuel + 1, prev, candidate, best => do
      match ← forwardAt index level candidate with
      | none => return prev.getD candidate
      | some next =>
          let contents ← index.nodes candidate
          if level ≤ contents.level && closer (dist next) best then
            seek index closer dist level fuel (some candidate) next (dist next)
          else return prev.getD candidate

/-- Link the new node at one level behind the node that was found. -/
def linkBehind (index : HNSWIndex F) (level node prev : ℕ) : Option (HNSWIndex F) := do
  let target ← forwardAt index level prev
  let index ← setForward index level node target
  setForward index level prev (some node)

/-- The body of the level loop of `insert_hnsw`. -/
def linkLevel (closer : D → D → Bool) (dist : ℕ → ℕ → D) (node newLevel level : ℕ)
    (index : HNSWIndex F) : Option (HNSWIndex F) :=
  if newLevel < level then some index
  else do
    let entry ← index.nodes index.enterpointId
    if entry.level < level then return index
    else
      let prev ← seek index closer (dist level) level (index.size + 1) none
        index.enterpointId (dist level index.enterpointId)
      linkBehind index level node prev

/-- The level loop of `insert_hnsw`, over the levels below `levels`. -/
def linkLevels (closer : D → D → Bool) (dist : ℕ → ℕ → D) (node newLevel : ℕ) :
    ℕ → HNSWIndex F → Option (HNSWIndex F)
  | 0, index => some index
  | level + 1, index => do
      let index ← linkLevel closer dist node newLevel level index
      linkLevels closer dist node newLevel level index

def insertHnsw (closer : D → D → Bool) (dist : ℕ → ℕ → D) (index : HNSWIndex F)
    (node : HNSWNode F) : Option (HNSWIndex F × ℤ) :=
  if maxElements ≤ index.size then some (index, -1)
  else
    let id := index.size
    let grown := { index with
      nodes := Function.update index.nodes id (some { node with id := id })
      size := index.size + 1 }
    if grown.size = 1 then
      some ({ grown with enterpointId := 0, maxLevel := node.level }, 0)
    else do
      let raised := { grown with maxLevel := max node.level index.maxLevel }
      let linked ← linkLevels closer dist id node.level (raised.maxLevel + 1) raised
      return (linked, 0)

/-! ## Search -/

/-- The distances a search computes: at the start of a level, along a level, and
in the final scan. -/
structure SearchDistances (D : Type) where
  start : ℕ → ℕ → D
  along : ℕ → ℕ → D
  scan : ℕ → D

/-- The descent loop of `search_hnsw` at one level. -/
def descendLevel (index : HNSWIndex F) (closer : D → D → Bool) (dist : ℕ → D)
    (level : ℕ) : ℕ → ℕ → D → Option ℕ
  | 0, _, _ => none
  | fuel + 1, curr, best => do
      match ← forwardAt index level curr with
      | none => return curr
      | some next =>
          let contents ← index.nodes next
          if !contents.isDeleted && closer (dist next) best then
            descendLevel index closer dist level fuel next (dist next)
          else return curr

/-- One round of the level loop of `search_hnsw`. -/
def descendAt (index : HNSWIndex F) (closer : D → D → Bool) (dist : SearchDistances D)
    (level curr : ℕ) : Option ℕ := do
  let contents ← index.nodes curr
  if contents.level < level then return curr
  else
    descendLevel index closer (dist.along level) level (index.size + 1) curr
      (dist.start level curr)

/-- The level loop of `search_hnsw`, from `level` down to 1. -/
def descend (index : HNSWIndex F) (closer : D → D → Bool) (dist : SearchDistances D) :
    ℕ → ℕ → Option ℕ
  | 0, curr => some curr
  | level + 1, curr => do
      let curr ← descendAt index closer dist (level + 1) curr
      descend index closer dist level curr

def isLive (index : HNSWIndex F) (node : ℕ) : Bool :=
  (index.nodes node).any fun contents => !contents.isDeleted

/-- The node the descent ends at; there is none when the entry point is
deleted. -/
def descent (index : HNSWIndex F) (closer : D → D → Bool) (dist : SearchDistances D) :
    Option (Option ℕ) :=
  if isLive index index.enterpointId then
    (descend index closer dist index.maxLevel index.enterpointId).map some
  else some none

/-- The nodes collected by the scan, `curr` last. -/
def winners (index : HNSWIndex F) (curr : Option ℕ) : List ℕ :=
  let others := ((List.range index.size).filter fun node =>
    isLive index node && curr ≠ some node).take efSearch
  match curr with
  | some node =>
      if isLive index node && others.length < efSearch then others ++ [node] else others
  | none => others

/-- One round of the exchange sort: the least element against all later ones. -/
def selectLeast (closer : D → D → Bool) : ℕ × D → List (ℕ × D) → (ℕ × D) × List (ℕ × D)
  | least, [] => (least, [])
  | least, item :: items =>
      if closer item.2 least.2 then
        let (first, rest) := selectLeast closer item items
        (first, least :: rest)
      else
        let (first, rest) := selectLeast closer least items
        (first, item :: rest)

/-- The two nested loops that sort the winners. -/
def exchangeSort (closer : D → D → Bool) : ℕ → List (ℕ × D) → List (ℕ × D)
  | 0, items => items
  | _ + 1, [] => []
  | rounds + 1, item :: items =>
      let (first, rest) := selectLeast closer item items
      first :: exchangeSort closer rounds rest

/-- The identifiers and distances of the `k` best. -/
def searchHnsw (index : HNSWIndex F) (closer : D → D → Bool) (dist : SearchDistances D)
    (k : ℕ) : Option (List (ℕ × D)) :=
  if index.size = 0 ∨ index.size ≤ index.enterpointId then some []
  else do
    let curr ← descent index closer dist
    let found := (winners index curr).map fun node => (node, dist.scan node)
    return (exchangeSort closer found.length found).take k

end Graph

/-! ## Distances -/

section

variable {F : Type} [CFloat F]

/-- What a read of component `i` beyond the end of each of the two arrays
yields when it does not fault. -/
abbrev Beyond (F : Type) := ℕ → F × F

/-- The distance where no read faults; `attempt` and `attemptSearch` add the faults. -/
def euclideanDistance (beyond : Beyond F) (a b : List F) (dim : ℕ) : F :=
  CFloat.sqrt ((List.range dim).foldl (fun dist i =>
    let d := a.getD i (beyond i).1 - b.getD i (beyond i).2
    dist + d * d) 0.0)

/-- The vector of a node. -/
def vectorAt (index : HNSWIndex F) (node : ℕ) : List F :=
  match index.nodes node with
  | none => []
  | some contents => contents.vector

/-! ## The engine interface -/

/-- The words of a text, as `strtok_r` with a blank cuts it. -/
def words (text : CStr) : List CStr :=
  ((text.bytes.splitOn 32).filter (· ≠ [])).map CStr.read

/-- `atoi`: `strtol` saturates, the conversion to `int` wraps around. -/
def atoi (text : CStr) : ℤ :=
  let (negative, bytes) := splitSign (text.bytes.dropWhile isSpace)
  let magnitude : ℤ := digitsValue 10 (bytes.takeWhile isDigit)
  int32 (if negative then max (-2 ^ 63) (-magnitude) else min (2 ^ 63 - 1) magnitude)

/-- What the environment decides during one call on the vector engine. -/
structure VectorChance (F : Type) where
  alloc : Alloc
  draws : Draws
  beyond : ℕ → ℕ → Beyond F

/-- `hnsw_create_node`; only the copy of the key may fail silently. -/
def hnswCreateNode (alloc : Alloc) (id : ℕ) (vector : List F) (level : ℕ) (key : CStr) :
    Option (HNSWNode F) :=
  if alloc 1 && alloc 2 && alloc 4 && alloc 5 && alloc 6 then
    some
      { id := id
        level := level
        vector := vector
        key := if alloc 3 then some key else none
        isDeleted := false
        forward := List.replicate (level + 1) none }
  else none

/-- A node that is not deleted and has the key. -/
def holdsKey (index : HNSWIndex F) (key : CStr) (node : ℕ) : Bool :=
  (index.nodes node).any fun contents =>
    !contents.isDeleted && contents.key.any fun own => strcmp own key = 0

/-- The first such node below a bound. -/
def findNode (index : HNSWIndex F) (key : CStr) (bound : ℕ) : Option ℕ :=
  (List.range bound).find? (holdsKey index key)

/-- Mark a node as deleted and count it. -/
def markDeleted (vec : KvsVector F) (node : ℕ) : KvsVector F where
  index :=
    { vec.index with
      nodes := Function.update vec.index.nodes node
        ((vec.index.nodes node).map fun contents => { contents with isDeleted := true })
      deletedCount := vec.index.deletedCount + 1 }
  count := vec.count - 1

/-- The dimension and the components of a vector text. -/
def parseVector (text : CStr) : Option (List F) :=
  match words text with
  | [] => none
  | head :: rest =>
      let stated := atoi head
      let dim := if stated ≤ 0 ∨ (maxDim : ℤ) < stated then maxDim else stated.toNat
      if rest.length < dim then none else some ((rest.take dim).map CFloat.atof)

/-- The insertion after the text has been parsed. -/
def insertVector (chance : VectorChance F) (vec : KvsVector F) (key : CStr)
    (vector : List F) : Option (KvsVector F × ℤ) :=
  match hnswCreateNode chance.alloc vec.index.size vector (randomLevel chance.draws) key with
  | none => some (vec, -1)
  | some node => do
      let dist := fun level other =>
        euclideanDistance (chance.beyond level other) vector (vectorAt vec.index other) maxDim
      let (index, code) ← insertHnsw CFloat.lt dist vec.index node
      if code < 0 then return (vec, -1)
      else
        let vec := { vec with index := index }
        let vec := match findNode index key (index.size - 1) with
          | none => vec
          | some old => markDeleted vec old
        return ({ vec with count := vec.count + 1 }, 0)

def kvsVectorSet (chance : VectorChance F) (vec : KvsVector F) :
    Option CStr → Option CStr → Option (KvsVector F × ℤ)
  | some key, some value =>
      if words value = [] ∨ !chance.alloc 0 then some (vec, -1)
      else
        match parseVector value with
        | none => some (vec, -1)
        | some vector => insertVector chance vec key vector
  | _, _ => some (vec, -1)

/-- The size of the static buffer of `kvs_vector_get`. -/
def getBufferSize : ℕ := 8192

/-- The loop that prints the components after the first `printed` ones. -/
def printComponents (dim : ℕ) : ℕ → List F → Written → Written
  | _, [], written => written
  | j, component :: components, written =>
      if written.length < getBufferSize - 50 then
        printComponents dim (j + 1) components
          (snprintfAt getBufferSize written
            ((CFloat.format 4 component).bytes ++
              ascii (if j + 1 < dim then "," else "]")))
      else written

/-- The text `kvs_vector_get` leaves in its static buffer. -/
def nodeText (key : CStr) (node : HNSWNode F) : CStr :=
  let header := snprintf getBufferSize (ascii "key=" ++ key.bytes ++
    ascii ",id=" ++ formatInt node.id ++
    ascii ",dim=" ++ formatInt node.vector.length ++
    ascii ",level=" ++ formatInt node.level ++ ascii ",vec=[")
  CStr.read (printComponents node.vector.length 0 node.vector header).buffer

def kvsVectorGet (vec : KvsVector F) : Option CStr → Option CStr
  | none => none
  | some key => do
      let slot ← findNode vec.index key vec.index.size
      let node ← vec.index.nodes slot
      let own ← node.key
      return nodeText own node

/-- The query: the dimension of the first live node decides how many words are
read, missing ones are zero. -/
def parseQuery (dim : ℕ) (text : CStr) : List F :=
  let given := ((words text).take dim).map CFloat.atof
  given ++ List.replicate (dim - given.length) 0.0

/-- The number of results and the results. -/
def kvsVectorSearch (chance : VectorChance F) (vec : KvsVector F) (k : ℕ) :
    Option CStr → Option CStr → Option (ℤ × List (ℕ × F))
  | some _, some text =>
      if vec.index.size = 0 then some (0, [])
      else
        match (List.range vec.index.size).find? (isLive vec.index) with
        | none => some (0, [])
        | some first =>
            let dim := (vectorAt vec.index first).length
            if dim = 0 then some (0, [])
            else if !chance.alloc 0 then some (-1, [])
            else do
              let query := parseQuery dim text
              let distanceTo := fun round other size =>
                euclideanDistance (chance.beyond round other) query
                  (vectorAt vec.index other) size
              let found ← searchHnsw vec.index CFloat.lt
                { start := fun level other => distanceTo (2 * level) other maxDim
                  along := fun level other =>
                    distanceTo (2 * level + 1) other (vectorAt vec.index other).length
                  scan := fun other =>
                    distanceTo 0 other (vectorAt vec.index other).length } k
              return (found.length, found)
  | _, _ => some (-1, [])

def kvsVectorDel (vec : KvsVector F) : Option CStr → KvsVector F × ℤ
  | none => (vec, -1)
  | some key =>
      match findNode vec.index key vec.index.size with
      | none => (vec, -2)
      | some node => (markDeleted vec node, 0)

def kvsVectorExist (vec : KvsVector F) : Option CStr → ℤ
  | none => -1
  | some key => if (findNode vec.index key vec.index.size).isSome then 0 else 1

def kvsVectorCount (vec : KvsVector F) : ℤ :=
  (vec.index.size : ℤ) - vec.index.deletedCount

def kvsVectorGetKeyById (vec : KvsVector F) (id : ℕ) : Option CStr :=
  if id < vec.index.size then
    match vec.index.nodes id with
    | none => none
    | some node => if node.isDeleted then none else node.key
  else none

end

end LiteMultiKV.Vector
