import LiteMultiKV.Core.Run
import LiteMultiKV.Engine.VectorGraph

/-!
# The vector engine over whole runs

The first half follows the links of the index over any sequence of insertions
and deletions.  The second half shows what the engine is for: it keeps, for each
key, the vector of the last successful `kvs_vector_set`.  An overwrite appends a
node and marks the old one, so the proof goes through the rows of the index, the
nodes that are not deleted in the order of their insertion.
-/

namespace LiteMultiKV.Vector

open List LiteMultiKV.Chain CText Memory Numeric Run

variable {F D : Type}

/-! ## Links -/

/-- An insertion at some level, with the distances it computes and the comparisons it
makes, or a deletion. -/
inductive IndexCall (F D : Type) where
  | insert (alloc : Alloc) (level : ℕ) (key : CStr) (vector : List F)
      (closer : D → D → Bool) (dist : ℕ → ℕ → D)
  | delete (node : ℕ)

def indexStep (index : HNSWIndex F) : IndexCall F D → Option (HNSWIndex F × ℤ)
  | .insert alloc level key vector closer dist =>
      match hnswCreateNode alloc index.size vector level key with
      | none => some (index, -1)
      | some node => insertHnsw closer dist index node
  | .delete node => some ((markDeleted { index := index, count := 0 } node).index, 0)

/-- The levels of the nodes that were inserted. -/
def noteLevel (levels : List ℕ) : IndexCall F D → ℤ → List ℕ
  | .insert _ level _ _ _ _, answer => if answer = 0 then levels ++ [level] else levels
  | .delete _, _ => levels

/-- The links of an index whose nodes have the given levels. -/
structure LayerChains (index : HNSWIndex F) (levels : List ℕ) : Prop where
  size_eq : index.size = levels.length
  stored : ∀ node < index.size, ∃ contents, index.nodes node = some contents ∧
    levels[node]? = some contents.level ∧ contents.forward.length = contents.level + 1
  chain : ∀ entry level, levels[0]? = some entry → level ≤ entry →
    ∃ chain, Linked (forwardAt index level) 0 chain ∧ (0 :: chain).Nodup ∧
      ∀ node, node ∈ 0 :: chain ↔ ∃ own, levels[node]? = some own ∧ level ≤ own
  above : ∀ entry level node own, levels[0]? = some entry → entry < level →
    levels[node]? = some own → level ≤ own → forwardAt index level node = some none
  entry_eq : index.enterpointId = 0
  top : if levels = [] then index.maxLevel = 0 else
    index.maxLevel ∈ levels ∧ ∀ level ∈ levels, level ≤ index.maxLevel

/-- The levels of the nodes of an index are the noted ones. -/
def HasLevels (index : HNSWIndex F) (levels : List ℕ) : Prop :=
  index.size = levels.length ∧
    ∀ node < index.size, (index.nodes node).map HNSWNode.level = levels[node]?

variable {index after : HNSWIndex F} {levels : List ℕ}

theorem SameNodes.level_eq (hsame : SameNodes index after) (node : ℕ) :
    (after.nodes node).map HNSWNode.level = (index.nodes node).map HNSWNode.level := by
  have hlevel : ∀ other : Option (HNSWNode F), other.map HNSWNode.level =
      (other.map HNSWNode.shape).map fun shape => shape.1.level := by
    intro other
    rw [Option.map_map]
    rfl
  rw [hlevel, hsame.shape_eq node, ← hlevel]

theorem HasLevels.grow {node : HNSWNode F} (hlevels : HasLevels index levels)
    (hsame : SameNodes (index.grow node) after) :
    HasLevels after (levels ++ [node.level]) := by
  obtain ⟨hsize, hnodes⟩ := hlevels
  have hgrown : after.size = index.size + 1 := hsame.size_eq
  refine ⟨by rw [hgrown, length_append, hsize, length_singleton], fun other hother => ?_⟩
  rw [hsame.level_eq other]
  by_cases hlast : other = index.size
  · subst hlast
    rw [grow_node, hsize]
    simp
  · have hlt : other < index.size := by omega
    rw [getElem?_append_left (by omega), ← hnodes other hlt]
    simp [HNSWIndex.grow, hlast]

theorem HasLevels.markDeleted {vec : KvsVector F} (hlevels : HasLevels vec.index levels)
    (node : ℕ) : HasLevels (markDeleted vec node).index levels := by
  refine ⟨hlevels.1, fun other hother => ?_⟩
  rw [← hlevels.2 other hother]
  by_cases hsame : other = node
  · simp [Vector.markDeleted, hsame, Option.map_map, Function.comp_def]
  · simp [Vector.markDeleted, hsame]

/-- One step keeps the layers and adds the level of the inserted node. -/
theorem indexStep_spec (hchained : index.Chained) (hlevels : HasLevels index levels)
    (call : IndexCall F D) :
    ∃ after answer, indexStep index call = some (after, answer) ∧ after.Chained ∧
      HasLevels after (noteLevel levels call answer) := by
  cases call with
  | delete node =>
      have hplain : (KvsVector.mk index 0).index.Chained := hchained
      have hkept : HasLevels (KvsVector.mk index 0).index levels := hlevels
      exact ⟨_, 0, rfl, chained_markDeleted hplain node, hkept.markDeleted node⟩
  | insert alloc level key vector closer dist =>
      cases hnode : hnswCreateNode alloc index.size vector level key with
      | none =>
          exact ⟨index, -1, by simp only [indexStep, hnode], hchained,
            by simpa [noteLevel] using hlevels⟩
      | some node =>
          obtain ⟨rfl, hfresh, -⟩ := hnswCreateNode_fresh hnode
          rcases insertHnsw_spec closer dist hchained hfresh with
            ⟨-, hfull⟩ | ⟨-, after, hinsert, hafter, hsame⟩
          · exact ⟨index, -1, by simp only [indexStep, hnode, hfull], hchained,
              by simpa [noteLevel] using hlevels⟩
          · exact ⟨after, 0, by simp only [indexStep, hnode, hinsert], hafter, hlevels.grow hsame⟩

theorem HNSWIndex.Chained.layerChains (hchained : index.Chained)
    (hlevels : HasLevels index levels) : LayerChains index levels := by
  obtain ⟨hlayered, htop⟩ := hchained
  obtain ⟨hsize, hnodes⟩ := hlevels
  have hown : ∀ node own, levels[node]? = some own → node < index.size := by
    intro node own hnode
    rw [hsize]
    exact (List.getElem?_eq_some_iff.1 hnode).1
  have htall : ∀ level node, node < index.size →
      (Tall index level node ↔ ∃ own, levels[node]? = some own ∧ level ≤ own) := by
    intro level node hnode
    obtain ⟨contents, hcontents, -, -⟩ := hlayered.stored node hnode
    rw [tall_iff hcontents, ← hnodes node hnode, hcontents]
    simp
  refine ⟨hsize, fun node hnode => ?_, fun entry level hentry hlevel => ?_,
    fun entry level node own hentry hlevel hnode hreach => ?_, hlayered.entry_eq, ?_⟩
  · obtain ⟨contents, hcontents, hlength, -⟩ := hlayered.stored node hnode
    exact ⟨contents, hcontents, by rw [← hnodes node hnode, hcontents]; rfl, hlength⟩
  · obtain ⟨chain, hlinked, hnodup, hmembers⟩ := hlayered.lower level
      ((htall level 0 (hown 0 entry hentry)).2 ⟨entry, hentry, hlevel⟩)
    refine ⟨chain, hlinked, hnodup, fun node => ?_⟩
    rw [hmembers]
    constructor
    · rintro ⟨hlt, hreach⟩
      exact (htall level node hlt).1 hreach
    · rintro ⟨own, hnode, hreach⟩
      have hlt := hown node own hnode
      exact ⟨hlt, (htall level node hlt).2 ⟨own, hnode, hreach⟩⟩
  · have hlt := hown node own hnode
    refine hlayered.upper level node ?_ ((htall level node hlt).2 ⟨own, hnode, hreach⟩) hlt
    rw [htall level 0 (hown 0 entry hentry)]
    rintro ⟨found, hfound, hle⟩
    obtain rfl : entry = found := by simpa [hentry] using hfound
    omega
  · split
    case isTrue hempty =>
        rcases htop with ⟨-, hzero⟩ | ⟨node, hnode, -⟩
        · exact hzero
        · simp [hsize, hempty] at hnode
    case isFalse hsome =>
        have hmax : ∀ level ∈ levels, level ≤ index.maxLevel := by
          intro level hlevel
          obtain ⟨node, hnode⟩ := mem_iff_getElem?.1 hlevel
          have hlt := hown node level hnode
          obtain ⟨contents, hcontents, -, hle⟩ := hlayered.stored node hlt
          rw [← hnodes node hlt, hcontents, Option.map_some, Option.some.injEq] at hnode
          exact hnode ▸ hle
        refine ⟨?_, hmax⟩
        rcases htop with ⟨hzero, -⟩ | ⟨node, hnode, hreach⟩
        · exact absurd (length_eq_zero_iff.1 (hsize ▸ hzero)) hsome
        · obtain ⟨own, hown, hle⟩ := (htall _ node hnode).1 hreach
          have hmem := mem_of_getElem? hown
          exact (le_antisymm hle (hmax own hmem)) ▸ hmem

/-- Whatever levels are drawn and however the distances compare, every insertion, deletion
and search has a result, and each layer that node 0 reaches is one chain from node 0. -/
theorem layers_chained (calls : List (IndexCall F D)) :
    ∃ index answers, run indexStep (kvsVectorCreate F).index calls = some (index, answers) ∧
      LayerChains index (observed noteLevel [] calls answers) ∧
      ∀ (E : Type) (closer : E → E → Bool) (dist : SearchDistances E) (k : ℕ),
        ∃ found, searchHnsw index closer dist k = some found := by
  have hstep : ∀ (index : HNSWIndex F) levels (call : IndexCall F D),
      (index.Chained ∧ HasLevels index levels) → True →
        ∃ after answer, indexStep index call = some (after, answer) ∧ after.Chained ∧
          HasLevels after (noteLevel levels call answer) :=
    fun index levels call hkept _ => indexStep_spec hkept.1 hkept.2 call
  have hstart : HasLevels (kvsVectorCreate F).index [] :=
    ⟨rfl, fun node hnode => absurd hnode (Nat.not_lt_zero node)⟩
  obtain ⟨index, answers, hrun, hchained, hlevels⟩ := run_observed hstep
    ⟨chained_create, hstart⟩ (along_of_forall (fun _ _ _ => trivial) _)
  exact ⟨index, answers, hrun, hchained.layerChains hlevels,
    fun E closer dist k => searchHnsw_isSome closer dist hchained k⟩

/-! ## Rows -/

/-- A node that is not deleted. -/
@[ext]
structure Row (F : Type) where
  id : ℕ
  key : CStr
  vector : List F

def rowAt (index : HNSWIndex F) (node : ℕ) : Option (Row F) :=
  (index.nodes node).bind fun contents =>
    if contents.isDeleted then none
    else contents.key.map fun key => { id := node, key := key, vector := contents.vector }

/-- The rows of the first nodes in the order of their insertion. -/
def rowsBelow (index : HNSWIndex F) (bound : ℕ) : List (Row F) :=
  (range bound).filterMap (rowAt index)

def rows (index : HNSWIndex F) : List (Row F) :=
  rowsBelow index index.size

variable {vec : KvsVector F} {key : CStr} {node : ℕ} {row : Row F}

theorem rowAt_eq_some_iff : rowAt index node = some row ↔ ∃ contents,
    index.nodes node = some contents ∧ contents.isDeleted = false ∧
      contents.key = some row.key ∧ contents.vector = row.vector ∧ row.id = node := by
  cases hnode : index.nodes node with
  | none => simp [rowAt, hnode]
  | some contents =>
      cases hdeleted : contents.isDeleted with
      | true => simp [rowAt, hnode, hdeleted]
      | false =>
          simp only [rowAt, hnode, Option.bind_some, hdeleted, Bool.false_eq_true, if_false,
            Option.map_eq_some_iff, Option.some.injEq, Row.ext_iff, exists_eq_left', true_and]
          grind

theorem mem_rows_iff : row ∈ rows index ↔
    row.id < index.size ∧ rowAt index row.id = some row := by
  rw [rows, rowsBelow, mem_filterMap]
  constructor
  · rintro ⟨node, hnode, hrow⟩
    obtain ⟨-, -, -, -, -, rfl⟩ := rowAt_eq_some_iff.1 hrow
    exact ⟨mem_range.1 hnode, hrow⟩
  · rintro ⟨hnode, hrow⟩
    exact ⟨row.id, mem_range.2 hnode, hrow⟩

theorem holdsKey_eq (index : HNSWIndex F) (key : CStr) (node : ℕ) :
    holdsKey index key node = (rowAt index node).any fun row => row.key = key := by
  cases hnode : index.nodes node with
  | none => simp [holdsKey, rowAt, hnode]
  | some contents =>
      cases hdeleted : contents.isDeleted with
      | true => simp [holdsKey, rowAt, hnode, hdeleted]
      | false => cases hkey : contents.key <;>
          simp [holdsKey, rowAt, hnode, hdeleted, hkey, strcmp_eq_zero_iff]

/-- A lookup takes the first row with the key. -/
theorem findNode_eq (index : HNSWIndex F) (key : CStr) (bound : ℕ) :
    findNode index key bound =
      ((rowsBelow index bound).find? fun row => row.key = key).map Row.id := by
  have hholds : holdsKey index key = fun node =>
      (rowAt index node).any fun row => row.key = key := by
    funext node
    exact holdsKey_eq index key node
  rw [rowsBelow, find?_filterMap, findNode, hholds]
  cases hfind : (range bound).find? fun node =>
      (rowAt index node).any fun row => row.key = key with
  | none => rfl
  | some node =>
      have hany := find?_some hfind
      cases hrow : rowAt index node with
      | none => simp [hrow] at hany
      | some row =>
          obtain ⟨-, -, -, -, -, hid⟩ := rowAt_eq_some_iff.1 hrow
          rw [Option.bind_some, hrow, Option.map_some, hid]

theorem SameNodes.rowAt_eq (hsame : SameNodes index after) : rowAt after = rowAt index := by
  have hrow : ∀ (any : HNSWIndex F) (node : ℕ), rowAt any node =
      ((any.nodes node).map HNSWNode.shape).bind fun shape =>
        if shape.1.isDeleted then none
        else shape.1.key.map fun key =>
          { id := node, key := key, vector := shape.1.vector } := by
    intro any node
    rw [rowAt, Option.bind_map]
    rfl
  funext node
  rw [hrow, hsame.shape_eq node, ← hrow]

theorem SameNodes.isLive_eq (hsame : SameNodes index after) : isLive after = isLive index := by
  have hlive : ∀ (any : HNSWIndex F) (node : ℕ), isLive any node =
      ((any.nodes node).map HNSWNode.shape).any fun shape => !shape.1.isDeleted := by
    intro any node
    rw [isLive, Option.any_map]
    rfl
  funext node
  rw [hlive, hsame.shape_eq node, ← hlive]

theorem rowAt_grow (index : HNSWIndex F) (own : HNSWNode F) :
    rowAt (index.grow own) node = if node = index.size then
      if own.isDeleted then none
      else own.key.map fun key => { id := node, key := key, vector := own.vector }
      else rowAt index node := by
  by_cases hnode : node = index.size
  · simp [rowAt, HNSWIndex.grow, hnode]
  · simp [rowAt, HNSWIndex.grow, hnode]

theorem rowsBelow_grow (index : HNSWIndex F) (own : HNSWNode F) :
    rowsBelow (index.grow own) index.size = rows index := by
  refine filterMap_congr fun node hnode => ?_
  rw [rowAt_grow, if_neg (mem_range.1 hnode).ne]

theorem rows_grow {own : HNSWNode F} (hlive : own.isDeleted = false) (hkey : own.key = some key) :
    rows (index.grow own) =
      rows index ++ [{ id := index.size, key := key, vector := own.vector }] := by
  have hsize : (index.grow own).size = index.size + 1 := rfl
  rw [rows, rowsBelow, hsize, range_succ, filterMap_append, ← rowsBelow, rowsBelow_grow]
  simp [rowAt_grow, hlive, hkey]

theorem rowAt_markDeleted (vec : KvsVector F) (node other : ℕ) :
    rowAt (markDeleted vec node).index other =
      (rowAt vec.index other).filter fun row => row.id ≠ node := by
  by_cases hother : other = node
  · cases hrow : rowAt vec.index other with
    | none =>
        cases hnode : vec.index.nodes node <;> simp [rowAt, markDeleted, hother, hnode]
    | some row =>
        obtain ⟨contents, hnode, -, -, -, hid⟩ := rowAt_eq_some_iff.1 hrow
        subst hother
        simp [rowAt, markDeleted, hnode, Option.filter, hid]
  · have hsame : rowAt (markDeleted vec node).index other = rowAt vec.index other := by
      simp [rowAt, markDeleted, hother]
    rw [hsame]
    cases hrow : rowAt vec.index other with
    | none => rfl
    | some row =>
        obtain ⟨contents, -, -, -, -, hid⟩ := rowAt_eq_some_iff.1 hrow
        simp [Option.filter, hid, hother]

theorem isLive_markDeleted (vec : KvsVector F) (node other : ℕ) :
    isLive (markDeleted vec node).index other = (isLive vec.index other && other ≠ node) := by
  by_cases hother : other = node
  · simp [isLive, markDeleted, hother, Option.any_map]
  · simp [isLive, markDeleted, hother]

/-- A node that has a key as long as it is not deleted keeps one. -/
theorem named_markDeleted {other : ℕ}
    (hnamed : isLive vec.index other = (rowAt vec.index other).isSome) (node : ℕ) :
    isLive (markDeleted vec node).index other =
      (rowAt (markDeleted vec node).index other).isSome := by
  rw [isLive_markDeleted, rowAt_markDeleted, hnamed]
  cases hread : rowAt vec.index other with
  | none => rfl
  | some row =>
      obtain ⟨-, -, -, -, -, rfl⟩ := rowAt_eq_some_iff.1 hread
      by_cases hid : row.id = node <;> simp [Option.filter, hid]

theorem named_grow {own : HNSWNode F} {other : ℕ} (hlive : own.isDeleted = false)
    (hkey : own.key = some key) (hnamed : other < index.size →
      isLive index other = (rowAt index other).isSome) (hother : other < index.size + 1) :
    isLive (index.grow own) other = (rowAt (index.grow own) other).isSome := by
  rw [rowAt_grow]
  by_cases hlast : other = index.size
  · simp [isLive, HNSWIndex.grow, hlast, hlive, hkey]
  · rw [if_neg hlast, ← hnamed (by omega)]
    simp [isLive, HNSWIndex.grow, hlast]

/-- A deletion takes one row out. -/
theorem rows_markDeleted (vec : KvsVector F) (node : ℕ) :
    rows (markDeleted vec node).index = (rows vec.index).filter fun row => row.id ≠ node := by
  rw [rows, rows, rowsBelow, rowsBelow, filter_filterMap]
  refine congrArg (fun read => (range vec.index.size).filterMap read) ?_
  funext other
  exact rowAt_markDeleted vec node other

theorem nodup_rows (index : HNSWIndex F) : (rows index).Nodup := by
  refine Nodup.filterMap (fun node other row hnode hother => ?_) nodup_range
  obtain ⟨-, -, -, -, -, rfl⟩ := rowAt_eq_some_iff.1 hnode
  obtain ⟨-, -, -, -, -, hid⟩ := rowAt_eq_some_iff.1 hother
  exact hid

theorem eq_of_id_eq {other : Row F} (hrow : row ∈ rows index) (hother : other ∈ rows index)
    (hid : row.id = other.id) : row = other := by
  have hread := (mem_rows_iff.1 hrow).2
  rw [hid, (mem_rows_iff.1 hother).2] at hread
  exact (Option.some.inj hread).symm

/-! ## Counters -/

/-- The counters agree with the rows, and no two rows have the same key. -/
structure KvsVector.Tallied (vec : KvsVector F) : Prop where
  chained : vec.index.Chained
  named : ∀ node < vec.index.size, isLive vec.index node = (rowAt vec.index node).isSome
  distinct : ∀ row ∈ rows vec.index, ∀ other ∈ rows vec.index, row.key = other.key → row = other
  deleted : vec.index.deletedCount + (rows vec.index).length = vec.index.size
  count_eq : vec.count = (rows vec.index).length

theorem tallied_create : (kvsVectorCreate F).Tallied where
  chained := chained_create
  named := fun node hnode => absurd hnode (Nat.not_lt_zero node)
  distinct := fun _ hrow => absurd hrow not_mem_nil
  deleted := rfl
  count_eq := rfl

/-- The rows with another key. -/
def others (index : HNSWIndex F) (key : CStr) : List (Row F) :=
  (rows index).filter fun row => row.key ≠ key

variable (htallied : vec.Tallied)
include htallied

theorem find_row (key : CStr) :
    ((rows vec.index).find? fun row => row.key = key) = none ∧
        others vec.index key = rows vec.index ∨
      ∃ row ∈ rows vec.index, row.key = key ∧
        ((rows vec.index).find? fun row => row.key = key) = some row ∧
        others vec.index key = (rows vec.index).filter (fun other => other.id ≠ row.id) ∧
        (others vec.index key).length + 1 = (rows vec.index).length := by
  classical
  cases hfind : (rows vec.index).find? fun row => row.key = key with
  | none =>
      refine .inl ⟨rfl, filter_eq_self.2 fun row hrow => ?_⟩
      simpa using find?_eq_none.1 hfind row hrow
  | some row =>
      have hrow := mem_of_find?_eq_some hfind
      have hkey : row.key = key := by simpa using find?_some hfind
      have hsame : ∀ other ∈ rows vec.index, (other.key = key ↔ other = row) := by
        intro other hother
        constructor
        · exact fun heq => htallied.distinct other hother row hrow (heq.trans hkey.symm)
        · exact fun heq => heq ▸ hkey
      have herase : others vec.index key = (rows vec.index).erase row := by
        rw [(nodup_rows vec.index).erase_eq_filter]
        refine filter_congr fun other hother => ?_
        by_cases heq : other = row
        · simp [heq, hkey]
        · simp [heq, hsame other hother]
      refine .inr ⟨row, hrow, hkey, rfl, filter_congr fun other hother => ?_, ?_⟩
      · simp only [decide_eq_decide, ne_eq, not_iff_not, hsame other hother]
        exact ⟨fun heq => heq ▸ rfl, eq_of_id_eq hother hrow⟩
      · rw [herase, length_erase_of_mem hrow]
        have := length_pos_of_mem hrow
        omega

/-- Marking the row of a key. -/
theorem KvsVector.Tallied.markDeleted {row : Row F}
    (hothers : others vec.index row.key =
      (rows vec.index).filter (fun other => other.id ≠ row.id))
    (hlength : (others vec.index row.key).length + 1 = (rows vec.index).length) :
    (markDeleted vec row.id).Tallied ∧
      rows (Vector.markDeleted vec row.id).index = others vec.index row.key := by
  have hrows : rows (Vector.markDeleted vec row.id).index = others vec.index row.key := by
    rw [rows_markDeleted, hothers]
  obtain ⟨hchained, hnamed, hdistinct, hdeleted, hcount⟩ := htallied
  refine ⟨⟨chained_markDeleted hchained _, fun node hnode => ?_, ?_, ?_, ?_⟩, hrows⟩
  · exact named_markDeleted (hnamed node hnode) row.id
  · intro first hfirst second hsecond
    rw [hrows] at hfirst hsecond
    exact hdistinct first (mem_of_mem_filter hfirst) second (mem_of_mem_filter hsecond)
  · rw [hrows]
    simp only [Vector.markDeleted]
    omega
  · rw [hrows]
    simp only [Vector.markDeleted]
    omega

/-- What a deletion does. -/
theorem kvsVectorDel_rows (key : CStr) :
    ((rows vec.index).find? (fun row => row.key = key) = none ∧
        kvsVectorDel vec (some key) = (vec, -2)) ∨
      ∃ row after, (rows vec.index).find? (fun row => row.key = key) = some row ∧
        kvsVectorDel vec (some key) = (after, 0) ∧ after.Tallied ∧
        after.index.size = vec.index.size ∧ rows after.index = others vec.index key := by
  have hnode := findNode_eq vec.index key vec.index.size
  rw [← rows] at hnode
  rcases find_row htallied key with ⟨hnone, -⟩ | ⟨row, hrow, rfl, hsome, hothers, hlength⟩
  · refine .inl ⟨hnone, ?_⟩
    rw [hnone, Option.map_none] at hnode
    simp only [kvsVectorDel, hnode]
  · obtain ⟨hafter, hrows⟩ := htallied.markDeleted hothers hlength
    refine .inr ⟨row, markDeleted vec row.id, hsome, ?_, hafter, rfl, hrows⟩
    rw [hsome, Option.map_some] at hnode
    simp only [kvsVectorDel, hnode]

/-- The counters after a row of a key has taken the place of its other rows. -/
theorem KvsVector.Tallied.replaced {key : CStr} {final : KvsVector F} {fresh : Row F}
    (hchained : final.index.Chained)
    (hnamed : ∀ node < final.index.size,
      isLive final.index node = (rowAt final.index node).isSome)
    (hkey : fresh.key = key) (hrows : rows final.index = others vec.index key ++ [fresh])
    (hsize : final.index.size = vec.index.size + 1)
    (hdeleted : final.index.deletedCount + (others vec.index key).length =
      vec.index.deletedCount + (rows vec.index).length)
    (hcount : final.count + (rows vec.index).length =
      vec.count + (others vec.index key).length + 1) : final.Tallied := by
  refine ⟨hchained, hnamed, ?_, ?_, ?_⟩
  · have hother : ∀ row ∈ others vec.index key, row.key ≠ fresh.key := by
      intro row hrow
      simpa [hkey] using (mem_filter.1 hrow).2
    intro first hfirst second hsecond heq
    rw [hrows, mem_append, mem_singleton] at hfirst hsecond
    rcases hfirst with hfirst | rfl
    · rcases hsecond with hsecond | rfl
      · exact htallied.distinct first (mem_of_mem_filter hfirst) second
          (mem_of_mem_filter hsecond) heq
      · exact absurd heq (hother first hfirst)
    · rcases hsecond with hsecond | rfl
      · exact absurd heq.symm (hother second hsecond)
      · rfl
  · have := htallied.deleted
    rw [hrows, length_append, length_singleton]
    omega
  · have := htallied.count_eq
    rw [hrows, length_append, length_singleton]
    omega

/-- What an insertion does: the new row takes the place of the old one of its key. -/
theorem insertVector_rows [CFloat F] {chance : VectorChance F} (halloc : chance.alloc = allocOk)
    (key : CStr) (vector : List F) :
    (maxElements ≤ vec.index.size ∧ insertVector chance vec key vector = some (vec, -1)) ∨
      (vec.index.size < maxElements ∧ ∃ final, insertVector chance vec key vector =
        some (final, 0) ∧ final.Tallied ∧ final.index.size = vec.index.size + 1 ∧
        rows final.index = others vec.index key ++
          [{ id := vec.index.size, key := key, vector := vector }]) := by
  let own : HNSWNode F :=
    { id := vec.index.size
      level := randomLevel chance.draws
      vector := vector
      key := some key
      isDeleted := false
      forward := replicate (randomLevel chance.draws + 1) none }
  have hown : hnswCreateNode chance.alloc vec.index.size vector (randomLevel chance.draws) key =
      some own := by
    rw [halloc]
    rfl
  rcases insertHnsw_spec CFloat.lt (fun level other => euclideanDistance
      (chance.beyond level other) vector (vectorAt vec.index other) maxDim) htallied.chained
      (show own.forward = replicate (own.level + 1) none from rfl) with
    ⟨hfull, hinsert⟩ | ⟨hroom, grown, hinsert, hchained, hsame⟩
  · refine .inl ⟨hfull, ?_⟩
    simp only [insertVector, hown, hinsert]
    rfl
  · refine .inr ⟨hroom, ?_⟩
    let fresh : Row F := { id := vec.index.size, key := key, vector := vector }
    have hsize : grown.size = vec.index.size + 1 := hsame.size_eq
    have hrows : rows grown = rows vec.index ++ [fresh] := by
      rw [rows, rowsBelow, hsame.rowAt_eq, hsame.size_eq]
      exact rows_grow rfl rfl
    have hbelow : rowsBelow grown (grown.size - 1) = rows vec.index := by
      rw [rowsBelow, hsame.rowAt_eq, hsize]
      exact rowsBelow_grow vec.index own
    have hnamed : ∀ node < grown.size, isLive grown node = (rowAt grown node).isSome := by
      intro node hnode
      rw [hsame.rowAt_eq, hsame.isLive_eq]
      exact named_grow rfl rfl (htallied.named node) (by omega)
    have hnode := findNode_eq grown key (grown.size - 1)
    rw [hbelow] at hnode
    rcases find_row htallied key with ⟨hnone, hothers⟩ | ⟨row, hrow, hkey, hsome, hothers, hlength⟩
    · rw [hnone, Option.map_none] at hnode
      let final : KvsVector F := { index := grown, count := vec.count + 1 }
      refine ⟨final, by simp [insertVector, hown, hinsert, hnode, final], ?_, hsize, ?_⟩
      · refine htallied.replaced hchained hnamed (show fresh.key = key from rfl) ?_ hsize ?_ ?_
        · rw [hothers]
          exact hrows
        · rw [hothers, hsame.deletedCount_eq]
          rfl
        · simp only [final, hothers]
          omega
      · rw [hothers]
        exact hrows
    · rw [hsome, Option.map_some] at hnode
      let marked := markDeleted { index := grown, count := vec.count } row.id
      let final : KvsVector F := { index := marked.index, count := marked.count + 1 }
      have hreplaced : rows final.index = others vec.index key ++ [fresh] := by
        have hid : row.id < vec.index.size := (mem_rows_iff.1 hrow).1
        refine (rows_markDeleted { index := grown, count := vec.count } row.id).trans ?_
        rw [hrows, filter_append, ← hothers]
        simp [fresh, hid.ne']
      refine ⟨final, by simp [insertVector, hown, hinsert, hnode, final, marked], ?_, hsize,
        hreplaced⟩
      refine htallied.replaced (chained_markDeleted hchained row.id)
        (fun node hnode => named_markDeleted (hnamed node hnode) row.id)
        (show fresh.key = key from rfl) hreplaced hsize ?_ ?_
      · have hdeleted : final.index.deletedCount = vec.index.deletedCount + 1 :=
          congrArg (· + 1) hsame.deletedCount_eq
        omega
      · have hcount : final.count = vec.count - 1 + 1 := rfl
        omega

omit htallied

/-! ## The keyed store -/

section Store

variable [CFloat F]

inductive VectorCall (F : Type) where
  | set (draws : Draws) (beyond : ℕ → ℕ → Beyond F) (key value : Option CStr)
  | get (key : Option CStr)
  | del (key : Option CStr)
  | exist (key : Option CStr)

inductive VectorAnswer where
  | code (code : ℤ)
  | text (text : Option CStr)
  deriving DecidableEq

def vectorStep (vec : KvsVector F) : VectorCall F → Option (KvsVector F × VectorAnswer)
  | .set draws beyond key value =>
      (kvsVectorSet { alloc := allocOk, draws := draws, beyond := beyond } vec key value).map
        fun result => (result.1, .code result.2)
  | .get key => some (vec, .text (kvsVectorGet vec key))
  | .del key => some ((kvsVectorDel vec key).1, .code (kvsVectorDel vec key).2)
  | .exist key => some (vec, .code (kvsVectorExist vec key))

/-- What the engine is for: the number of vectors stored so far and, for each key, the
last one with its number. -/
structure VectorStore (F : Type) where
  stored : ℕ
  latest : CStr → Option (ℕ × List F)

def VectorStore.empty : VectorStore F where
  stored := 0
  latest := fun _ => none

/-- The key and the vector of a well-formed `kvs_vector_set`. -/
def acceptedVector : Option CStr → Option CStr → Option (CStr × List F)
  | some key, some value => (parseVector value).map fun vector => (key, vector)
  | _, _ => none

/-- A successful set is the latest one of its key, a successful deletion forgets the key. -/
def VectorStore.note (store : VectorStore F) : VectorCall F → VectorAnswer → VectorStore F
  | .set _ _ key value, answer =>
      match acceptedVector key value with
      | some (key, vector) =>
          if answer = .code 0 then
            { stored := store.stored + 1
              latest := Function.update store.latest key (some (store.stored, vector)) }
          else store
      | none => store
  | .del (some key), answer =>
      if answer = .code 0 then { store with latest := Function.update store.latest key none }
      else store
  | _, _ => store

/-- The rows are the latest vectors of the keys. -/
structure Keeps (vec : KvsVector F) (store : VectorStore F) : Prop where
  tallied : vec.Tallied
  stored_eq : store.stored = vec.index.size
  mem_rows : ∀ row, row ∈ rows vec.index ↔ store.latest row.key = some (row.id, row.vector)

variable {store : VectorStore F}

omit [CFloat F] in
theorem keeps_create : Keeps (kvsVectorCreate F) VectorStore.empty where
  tallied := tallied_create
  stored_eq := rfl
  mem_rows := fun row => by simp [rows, rowsBelow, kvsVectorCreate, VectorStore.empty]

omit [CFloat F] in
theorem mem_others {key : CStr} {row : Row F} :
    row ∈ others index key ↔ row ∈ rows index ∧ row.key ≠ key := by
  simp [others]

theorem acceptedVector_eq_some_iff {key value : Option CStr} {name : CStr} {vector : List F} :
    acceptedVector key value = some (name, vector) ↔
      ∃ text, key = some name ∧ value = some text ∧ parseVector text = some vector := by
  cases key with
  | none => simp [acceptedVector]
  | some key =>
      cases value with
      | none => simp [acceptedVector]
      | some value =>
          simp only [acceptedVector, Option.map_eq_some_iff, Prod.mk.injEq, Option.some.injEq]
          constructor
          · rintro ⟨vector, hparse, rfl, rfl⟩
            exact ⟨value, rfl, rfl, hparse⟩
          · rintro ⟨text, rfl, rfl, hparse⟩
            exact ⟨vector, hparse, rfl, rfl⟩

theorem kvsVectorSet_refused {chance : VectorChance F} {key value : Option CStr}
    (haccepted : acceptedVector (F := F) key value = none) :
    kvsVectorSet chance vec key value = some (vec, -1) := by
  cases key with
  | none => rfl
  | some key =>
      cases value with
      | none => rfl
      | some value =>
          have hparse : parseVector (F := F) value = none := by
            simpa [acceptedVector] using haccepted
          simp [kvsVectorSet, hparse]

theorem kvsVectorSet_accepted {chance : VectorChance F} {key value : Option CStr} {name : CStr}
    {vector : List F} (haccepted : acceptedVector key value = some (name, vector)) :
    kvsVectorSet chance vec key value =
      if chance.alloc 0 then insertVector chance vec name vector else some (vec, -1) := by
  obtain ⟨text, rfl, rfl, hparse⟩ := acceptedVector_eq_some_iff.1 haccepted
  have hwords : words text ≠ [] := by
    intro hwords
    simp [parseVector, hwords] at hparse
  cases hmemory : chance.alloc 0 <;> simp [kvsVectorSet, hparse, hwords, hmemory]

theorem kvsVectorSet_rows (chance : VectorChance F) (htallied : vec.Tallied)
    (halloc : chance.alloc = allocOk) (key value : Option CStr) :
    ((acceptedVector key value = (none : Option (CStr × List F)) ∨ maxElements ≤ vec.index.size) ∧
        kvsVectorSet chance vec key value = some (vec, -1)) ∨
      ∃ name vector final, acceptedVector key value = some (name, vector) ∧
        vec.index.size < maxElements ∧
        kvsVectorSet chance vec key value = some (final, 0) ∧ final.Tallied ∧
        final.index.size = vec.index.size + 1 ∧
        rows final.index = others vec.index name ++
          [{ id := vec.index.size, key := name, vector := vector }] := by
  cases haccepted : acceptedVector (F := F) key value with
  | none => exact .inl ⟨.inl rfl, kvsVectorSet_refused haccepted⟩
  | some accepted =>
      obtain ⟨name, vector⟩ := accepted
      have hset : kvsVectorSet chance vec key value = insertVector chance vec name vector := by
        rw [kvsVectorSet_accepted haccepted, halloc]
        rfl
      rw [hset]
      rcases insertVector_rows htallied halloc name vector with
        ⟨hfull, hinsert⟩ | ⟨hroom, final, hinsert, hfinal⟩
      · exact .inl ⟨.inr hfull, hinsert⟩
      · exact .inr ⟨name, vector, final, rfl, hroom, hinsert, hfinal⟩

/-- One call keeps the rows and the notes in step. -/
theorem vectorStep_keeps (hkeeps : Keeps vec store) (call : VectorCall F) :
    ∃ final answer, vectorStep vec call = some (final, answer) ∧
      Keeps final (store.note call answer) := by
  obtain ⟨htallied, hstored, hrows⟩ := hkeeps
  cases call with
  | get key => exact ⟨vec, _, rfl, htallied, hstored, hrows⟩
  | exist key => exact ⟨vec, _, rfl, htallied, hstored, hrows⟩
  | set draws beyond key value =>
      rcases kvsVectorSet_rows ⟨allocOk, draws, beyond⟩ htallied rfl key value with
        ⟨-, hset⟩ | ⟨name, vector, final, haccepted, -, hset, hfinal, hsize, hnew⟩
      · refine ⟨vec, .code (-1), by simp [vectorStep, hset], ?_⟩
        have hnote : store.note (.set draws beyond key value) (.code (-1)) = store := by
          simp only [VectorStore.note]
          split <;> simp
        rw [hnote]
        exact ⟨htallied, hstored, hrows⟩
      · refine ⟨final, .code 0, by simp [vectorStep, hset], ?_⟩
        simp only [VectorStore.note, haccepted, if_true]
        refine ⟨hfinal, by rw [hsize, hstored], fun row => ?_⟩
        rw [hnew, mem_append, mem_others, mem_singleton, hrows]
        by_cases hkey : row.key = name
        · subst hkey
          simp [Row.ext_iff, hstored, eq_comm]
        · simp [hkey, Row.ext_iff]
  | del key =>
      cases key with
      | none => exact ⟨vec, .code (-1), rfl, htallied, hstored, hrows⟩
      | some key =>
          rcases kvsVectorDel_rows htallied key with
            ⟨-, hdel⟩ | ⟨-, final, -, hdel, hfinal, hsize, hleft⟩
          · exact ⟨vec, .code (-2), by simp [vectorStep, hdel],
              by simpa [VectorStore.note] using ⟨htallied, hstored, hrows⟩⟩
          · refine ⟨final, .code 0, by simp [vectorStep, hdel], ?_⟩
            simp only [VectorStore.note, if_true]
            refine ⟨hfinal, by rw [hsize, hstored], fun row => ?_⟩
            rw [hleft, mem_others, hrows]
            by_cases hkey : row.key = key
            · simp [hkey]
            · simp [hkey]

/-- The state of the engine is that of a keyed store, as each call of the interface
sees it. -/
structure KeyedAs (vec : KvsVector F) (store : VectorStore F) : Prop where
  live_iff : ∀ key node vector, (node < vec.index.size ∧ ∃ contents,
      vec.index.nodes node = some contents ∧ contents.isDeleted = false ∧
      contents.key = some key ∧ contents.vector = vector) ↔
    store.latest key = some (node, vector)
  named : ∀ node < vec.index.size, ∃ contents, vec.index.nodes node = some contents ∧
    (contents.isDeleted = false → contents.key ≠ none)
  get_eq : ∀ key, kvsVectorGet vec (some key) = (store.latest key).bind fun found =>
    (vec.index.nodes found.1).map (nodeText key)
  exist_eq : ∀ key, kvsVectorExist vec (some key) = if (store.latest key).isSome then 0 else 1
  del_eq : ∀ key, (kvsVectorDel vec (some key)).2 = if (store.latest key).isSome then 0 else -2
  count_size : kvsVectorCount vec = (vec.index.size : ℤ) - vec.index.deletedCount
  count_field : kvsVectorCount vec = vec.count
  count_keys : kvsVectorCount vec = {key | store.latest key ≠ none}.ncard
  refused : ∀ draws beyond key value, ∃ final code,
    kvsVectorSet { alloc := allocOk, draws := draws, beyond := beyond } vec key value =
      some (final, code) ∧
    (code = 0 ∨ code = -1 ∧ final = vec ∧
      (acceptedVector key value = (none : Option (CStr × List F)) ∨
        maxElements ≤ vec.index.size))

omit [CFloat F] in
/-- A key is found exactly when it has a latest vector. -/
theorem Keeps.findNode_eq (hkeeps : Keeps vec store) (key : CStr) :
    findNode vec.index key vec.index.size = (store.latest key).map Prod.fst := by
  obtain ⟨htallied, -, hrows⟩ := hkeeps
  rw [Vector.findNode_eq, ← rows]
  rcases find_row htallied key with ⟨hnone, -⟩ | ⟨row, hrow, rfl, hsome, -⟩
  · rw [hnone]
    cases hlatest : store.latest key with
    | none => rfl
    | some found =>
        have hmem := (hrows ⟨found.1, key, found.2⟩).2 hlatest
        simpa using find?_eq_none.1 hnone _ hmem
  · rw [hsome, (hrows row).1 hrow]
    rfl

omit [CFloat F] in
theorem Keeps.length_rows (hkeeps : Keeps vec store) :
    (rows vec.index).length = {key | store.latest key ≠ none}.ncard := by
  have hnodup : ((rows vec.index).map Row.key).Nodup :=
    (nodup_map_iff_inj_on (nodup_rows vec.index)).2 hkeeps.tallied.distinct
  have hkeys : {key | store.latest key ≠ none} =
      (((rows vec.index).map Row.key).toFinset : Set CStr) := by
    ext key
    simp only [Set.mem_ofPred_eq, coe_toFinset, mem_map]
    constructor
    · intro hsome
      obtain ⟨found, hfound⟩ := Option.ne_none_iff_exists'.1 hsome
      exact ⟨⟨found.1, key, found.2⟩, (hkeeps.mem_rows _).2 hfound, rfl⟩
    · rintro ⟨row, hrow, rfl⟩
      rw [(hkeeps.mem_rows row).1 hrow]
      exact Option.some_ne_none _
  rw [hkeys, Set.ncard_coe_finset, toFinset_card_of_nodup hnodup, length_map]

theorem Keeps.keyedAs (hkeeps : Keeps vec store) : KeyedAs vec store := by
  have hfind := hkeeps.findNode_eq
  have hlength := hkeeps.length_rows
  obtain ⟨htallied, -, hrows⟩ := hkeeps
  have hcount := htallied.count_eq
  have hdeleted := htallied.deleted
  have hlive : ∀ key node vector, (node < vec.index.size ∧ ∃ contents,
      vec.index.nodes node = some contents ∧ contents.isDeleted = false ∧
      contents.key = some key ∧ contents.vector = vector) ↔
      store.latest key = some (node, vector) := by
    intro key node vector
    rw [← hrows ⟨node, key, vector⟩, mem_rows_iff, rowAt_eq_some_iff]
    simp
  refine ⟨hlive, fun node hnode => ?_, fun key => ?_, fun key => ?_, fun key => ?_, rfl, ?_, ?_,
    fun draws beyond key value => ?_⟩
  · obtain ⟨contents, hcontents, -⟩ := htallied.chained.layered.stored node hnode
    refine ⟨contents, hcontents, fun hundeleted hkey => ?_⟩
    have hnamed := htallied.named node hnode
    simp [isLive, rowAt, hcontents, hundeleted, hkey] at hnamed
  · cases hlatest : store.latest key with
    | none => simp [kvsVectorGet, hfind, hlatest]
    | some found =>
        obtain ⟨-, contents, hcontents, -, hkey, -⟩ := (hlive key found.1 found.2).2 hlatest
        simp [kvsVectorGet, hfind, hlatest, hcontents, hkey]
  · simp [kvsVectorExist, hfind]
  · cases hlatest : store.latest key <;> simp [kvsVectorDel, hfind, hlatest]
  · rw [kvsVectorCount]
    omega
  · rw [kvsVectorCount]
    omega
  · rcases kvsVectorSet_rows ⟨allocOk, draws, beyond⟩ htallied rfl key value with
      ⟨hwhy, hset⟩ | ⟨-, -, final, -, -, hset, -⟩
    · exact ⟨vec, -1, hset, .inr ⟨rfl, rfl, hwhy⟩⟩
    · exact ⟨final, 0, hset, .inl rfl⟩

/-- In every reachable state the engine is the keyed store that the calls and their answers
describe. -/
theorem vector_keyed_store (calls : List (VectorCall F)) :
    ∃ vec answers, run vectorStep (kvsVectorCreate F) calls = some (vec, answers) ∧
      KeyedAs vec (observed VectorStore.note VectorStore.empty calls answers) := by
  have hstep : ∀ (vec : KvsVector F) (store : VectorStore F) (call : VectorCall F),
      Keeps vec store → True → ∃ final answer, vectorStep vec call = some (final, answer) ∧
        Keeps final (store.note call answer) :=
    fun vec store call hkeeps _ => vectorStep_keeps hkeeps call
  obtain ⟨vec, answers, hrun, hkeeps⟩ := run_observed hstep keeps_create
    (along_of_forall (fun _ _ _ => trivial) _)
  exact ⟨vec, answers, hrun, hkeeps.keyedAs⟩

end Store

end LiteMultiKV.Vector
