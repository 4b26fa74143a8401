import LiteMultiKV.Engine.VectorStore

/-!
# Updates of the vector engine

Only `kvs_vector_set` and `kvs_vector_del` change the engine.  Whatever memory
they get, a node keeps what it was created with except for its links and its
mark, and the append position of the index moves when a set succeeds.
-/

namespace LiteMultiKV.Vector

open List CText Memory Numeric Run

variable {F : Type}

/-- A call that can change the engine. -/
inductive Update (F : Type) where
  | set (chance : VectorChance F) (key value : Option CStr)
  | del (key : Option CStr)

/-! ## Facts about all nodes -/

/-- Every node of the index satisfies a fact about its place and its contents. -/
def Everywhere (fact : ℕ → HNSWNode F → Prop) (index : HNSWIndex F) : Prop :=
  ∀ node < index.size, ∀ contents, index.nodes node = some contents → fact node contents

/-- The fact reads neither the links nor the mark of a node. -/
def IgnoresMarks (fact : ℕ → HNSWNode F → Prop) : Prop :=
  ∀ node contents deleted forward,
    fact node { contents with isDeleted := deleted, forward := forward } ↔ fact node contents

variable {fact : ℕ → HNSWNode F → Prop} {index grown : HNSWIndex F} {vec after : KvsVector F}

theorem Everywhere.same (hignores : IgnoresMarks fact) (hevery : Everywhere fact index)
    (hsame : SameNodes index grown) : Everywhere fact grown := by
  intro node hnode contents hcontents
  rw [hsame.size_eq] at hnode
  have hshape := hsame.shape_eq node
  rw [hcontents, Option.map_some] at hshape
  obtain ⟨found, hfound, heq⟩ := Option.map_eq_some_iff.1 hshape.symm
  have hfact := hevery node hnode found hfound
  rw [← hignores node found found.isDeleted []] at hfact
  rw [← hignores node contents contents.isDeleted []]
  exact (Prod.mk.inj heq).1 ▸ hfact

theorem Everywhere.grow {node : HNSWNode F} (hevery : Everywhere fact index)
    (hnode : fact index.size { node with id := index.size }) :
    Everywhere fact (index.grow node) := by
  intro other hother contents hcontents
  by_cases hlast : other = index.size
  · subst hlast
    rw [grow_node, Option.some.injEq] at hcontents
    exact hcontents ▸ hnode
  · have hlt : other < index.size := by
      have : other < index.size + 1 := hother
      omega
    exact hevery other hlt contents (by simpa [HNSWIndex.grow, hlast] using hcontents)

theorem Everywhere.markDeleted (hignores : IgnoresMarks fact) (hevery : Everywhere fact vec.index)
    (node : ℕ) : Everywhere fact (markDeleted vec node).index := by
  intro other hother contents hcontents
  by_cases hsame : other = node
  · subst hsame
    simp only [Vector.markDeleted, Function.update_self, Option.map_eq_some_iff] at hcontents
    obtain ⟨found, hfound, rfl⟩ := hcontents
    exact (hignores other found true found.forward).2 (hevery other hother found hfound)
  · exact hevery other hother contents (by simpa [Vector.markDeleted, hsame] using hcontents)

theorem Everywhere.retire [CFloat F] (hignores : IgnoresMarks fact) (hevery : Everywhere fact index)
    (key : CStr) : Everywhere fact (retire index key) := by
  have hplain : Everywhere fact (KvsVector.mk index 0).index := hevery
  unfold Vector.retire
  split
  · exact hevery
  · exact hplain.markDeleted hignores _

/-! ## Steps -/

section Steps

variable [CFloat F]

def updateStep (vec : KvsVector F) : Update F → Option (KvsVector F × ℤ)
  | .set chance key value => kvsVectorSet chance vec key value
  | .del key => some (kvsVectorDel vec key)

/-- The node that an update creates. -/
def Update.node (size : ℕ) : Update F → Option (HNSWNode F)
  | .set chance key value => do
      let (key, vector) ← acceptedVector key value
      if chance.alloc 0 then
        hnswCreateNode chance.alloc size vector (randomLevel chance.draws) key
      else none
  | .del _ => none

/-- What a set creates a node from. -/
theorem Update.node_fresh {update : Update F} {size : ℕ} {node : HNSWNode F}
    (hnode : update.node size = some node) :
    ∃ chance key value name, update = .set chance key value ∧
      acceptedVector key value = some (name, node.vector) ∧
      node.level = randomLevel chance.draws ∧
      node.forward = replicate (node.level + 1) none ∧
      node.key = if chance.alloc 3 then some name else none := by
  cases update with
  | del key => cases hnode
  | set chance key value =>
      simp only [Update.node, Option.bind_eq_bind, Option.bind_eq_some_iff] at hnode
      obtain ⟨⟨name, vector⟩, haccepted, hnode⟩ := hnode
      split at hnode
      · obtain ⟨hlevel, hforward, rfl, -, hkey⟩ := hnswCreateNode_fresh hnode
        exact ⟨chance, key, value, name, rfl, haccepted, hlevel, hforward, hkey⟩
      · cases hnode

/-- A call fails and changes nothing, marks a node, or adds one. -/
theorem updateStep_cases (hchained : vec.index.Chained) (update : Update F) :
    (∃ code < 0, updateStep vec update = some (vec, code) ∧
        ∀ node, update.node vec.index.size = some node → maxElements ≤ vec.index.size) ∨
      (∃ key node, update = .del key ∧ updateStep vec update = some (markDeleted vec node, 0)) ∨
      ∃ node grown key count, update.node vec.index.size = some node ∧
        vec.index.size < maxElements ∧ SameNodes (vec.index.grow node) grown ∧ grown.Chained ∧
        updateStep vec update = some ({ index := retire grown key, count := count }, 0) := by
  cases update with
  | del key =>
      cases key with
      | none => exact .inl ⟨-1, by decide, rfl, fun node hnode => nomatch hnode⟩
      | some key =>
          cases hfind : findNode vec.index key vec.index.size with
          | none =>
              refine .inl ⟨-2, by decide, ?_, fun node hnode => nomatch hnode⟩
              simp only [updateStep, kvsVectorDel, hfind]
          | some node =>
              refine .inr (.inl ⟨some key, node, rfl, ?_⟩)
              simp only [updateStep, kvsVectorDel, hfind]
  | set chance key value =>
      rw [updateStep]
      cases haccepted : acceptedVector (F := F) key value with
      | none =>
          refine .inl ⟨-1, by decide, ?_, fun node hnode => ?_⟩
          · exact kvsVectorSet_refused haccepted
          · simp [Update.node, haccepted] at hnode
      | some accepted =>
          obtain ⟨name, vector⟩ := accepted
          rw [kvsVectorSet_accepted haccepted]
          cases hmemory : chance.alloc 0 with
          | false =>
              refine .inl ⟨-1, by decide, rfl, fun node hnode => ?_⟩
              simp [Update.node, hmemory] at hnode
          | true =>
              have hcreate : (Update.set chance key value).node vec.index.size =
                  hnswCreateNode chance.alloc vec.index.size vector
                    (randomLevel chance.draws) name := by
                simp [Update.node, haccepted, hmemory]
              rw [hcreate, if_pos rfl]
              rcases insertVector_cases chance hchained name vector with
                ⟨hwhy, hinsert⟩ | ⟨node, grown, count, hnode, hroom, hsame, hgrown, hinsert⟩
              · refine .inl ⟨-1, by decide, hinsert, fun node hnode => ?_⟩
                exact hwhy.resolve_left (by simp [hnode])
              · exact .inr (.inr ⟨node, grown, name, count, hnode, hroom, hsame, hgrown, hinsert⟩)

/-- The number of sets that have succeeded. -/
def noteAppended (appended : ℕ) : Update F → ℤ → ℕ
  | .set _ _ _, code => if code = 0 then appended + 1 else appended
  | .del _, _ => appended

omit [CFloat F] in
theorem retire_size (index : HNSWIndex F) (key : CStr) : (retire index key).size = index.size := by
  unfold retire
  split <;> rfl

omit [CFloat F] in
theorem noteAppended_failed (update : Update F) (appended : ℕ) {code : ℤ} (hcode : code < 0) :
    noteAppended appended update code = appended := by
  cases update with
  | set chance key value => exact if_neg hcode.ne
  | del key => rfl

theorem noteAppended_created {update : Update F} {size : ℕ} {node : HNSWNode F}
    (hnode : update.node size = some node) (appended : ℕ) :
    noteAppended appended update 0 = appended + 1 := by
  cases update with
  | set chance key value => rfl
  | del key => cases hnode

/-- A call has a result, keeps the layers and what is known of all nodes, and moves the
append position when a set succeeds. -/
theorem updateStep_kept (hchained : vec.index.Chained) (hignores : IgnoresMarks fact)
    (hevery : Everywhere fact vec.index) (update : Update F)
    (hnew : ∀ node, update.node vec.index.size = some node →
      fact vec.index.size { node with id := vec.index.size }) :
    ∃ after code, updateStep vec update = some (after, code) ∧ after.index.Chained ∧
      Everywhere fact after.index ∧
      after.index.size = noteAppended vec.index.size update code := by
  rcases updateStep_cases hchained update with ⟨code, hcode, hstep, -⟩ |
    ⟨key, node, rfl, hstep⟩ | ⟨node, grown, key, count, hnode, -, hsame, hgrown, hstep⟩
  · exact ⟨vec, code, hstep, hchained, hevery, (noteAppended_failed update _ hcode).symm⟩
  · exact ⟨_, 0, hstep, chained_markDeleted hchained node, hevery.markDeleted hignores node, rfl⟩
  · refine ⟨_, 0, hstep, retire_chained hgrown key, ?_, ?_⟩
    · exact ((hevery.grow (hnew node hnode)).same hignores hsame).retire hignores key
    · rw [noteAppended_created hnode, retire_size, hsame.size_eq]
      rfl

/-! ## Capacity -/

/-- A vector text with a dimension and that many components. -/
def WellFormed (value : CStr) : Prop :=
  ∃ head rest, words value = head :: rest ∧ 1 ≤ atoi head ∧ atoi head ≤ maxDim ∧
    (atoi head).toNat ≤ rest.length

theorem WellFormed.accepted {value : CStr} (hvalue : WellFormed value) (key : CStr) :
    ∃ vector : List F, acceptedVector (some key) (some value) = some (key, vector) := by
  obtain ⟨head, rest, hwords, hpositive, hle, hlength⟩ := hvalue
  have hstated : ¬(atoi head ≤ 0 ∨ (maxDim : ℤ) < atoi head) := by omega
  simp [acceptedVector, parseVector, hwords, hstated, not_lt.2 hlength]

/-- A well-formed set with a free place adds a row and drops those of the key. -/
theorem WellFormed.set_rows {value : CStr} (hvalue : WellFormed value)
    {chance : VectorChance F} (halloc : chance.alloc = allocOk) (htallied : vec.Tallied)
    (hroom : vec.index.size < maxElements) (key : CStr) :
    ∃ vector final, kvsVectorSet chance vec (some key) (some value) = some (final, 0) ∧
      final.Tallied ∧ final.index.size = vec.index.size + 1 ∧
      rows final.index = others vec.index key ++
        [{ id := vec.index.size, key := key, vector := vector }] := by
  obtain ⟨vector, haccepted⟩ := hvalue.accepted (F := F) key
  rcases kvsVectorSet_rows chance htallied halloc (some key) (some value) with
    ⟨hwhy, -⟩ | ⟨name, found, final, hfound, -, hset, hfinal, hgrown, hrows⟩
  · rw [haccepted] at hwhy
    rcases hwhy with hrefused | hfull
    · cases hrefused
    · omega
  · obtain ⟨rfl, rfl⟩ : key = name ∧ vector = found := by simpa [haccepted] using hfound
    exact ⟨vector, final, hset, hfinal, hgrown, hrows⟩

end Steps

/-- All memory is there, and every node stays on the lowest level. -/
def quietChance : VectorChance Float32 where
  alloc := allocOk
  draws := fun _ => false
  beyond := fun _ _ _ => (0.0, 0.0)

def oneVector : CStr := lit "1 0.5"

theorem oneVector_wellFormed : WellFormed oneVector :=
  ⟨lit "1", [lit "0.5"], by decide +kernel, by decide +kernel, by decide +kernel,
    by decide +kernel⟩

end LiteMultiKV.Vector
