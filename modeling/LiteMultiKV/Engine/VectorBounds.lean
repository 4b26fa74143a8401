import LiteMultiKV.Engine.VectorSearch

/-!
# Distance computations and the lengths of vectors

`insert_hnsw` and the start of each level of `search_hnsw` compare `MAX_DIM`
components, whatever the dimensions of the two vectors are; the other
computations take the dimension of the node.  This file lists the computations
that an insertion and a search make, and says when all of them stay inside both
arrays: apart from an index with one node, every vector must have `MAX_DIM`
components.
-/

namespace LiteMultiKV.Vector

open List LiteMultiKV.Chain CText Memory Numeric Run

variable {F D : Type}

/-- A call of `euclidean_distance`: the lengths of the two arrays, and how many components
are read. -/
structure DistanceCall where
  left : ℕ
  right : ℕ
  dim : ℕ
  deriving DecidableEq

/-- Every component that the loop reads lies in both arrays. -/
def DistanceCall.Within (call : DistanceCall) : Prop :=
  ∀ i < call.dim, i < call.left ∧ i < call.right

theorem within_iff {call : DistanceCall} :
    call.Within ↔ call.dim ≤ call.left ∧ call.dim ≤ call.right := by
  constructor
  · intro hwithin
    constructor
    · by_contra hlt
      exact absurd (hwithin call.left (by omega)).1 (lt_irrefl _)
    · by_contra hlt
      exact absurd (hwithin call.right (by omega)).2 (lt_irrefl _)
  · rintro ⟨hleft, hright⟩ i hi
    exact ⟨by omega, by omega⟩

/-! ## The computations of an insertion -/

/-- The nodes whose distances the greedy loop of `insert_hnsw` computes. -/
def seekVisits (index : HNSWIndex F) (closer : D → D → Bool) (dist : ℕ → D) (level : ℕ) :
    ℕ → ℕ → D → List ℕ
  | 0, _, _ => []
  | fuel + 1, candidate, best =>
      match forwardAt index level candidate, index.nodes candidate with
      | some (some next), some contents =>
          if level ≤ contents.level then
            next :: if closer (dist next) best then
              seekVisits index closer dist level fuel next (dist next) else []
          else []
      | _, _ => []

/-- The nodes whose distances are computed at one level. -/
def linkLevelVisits (closer : D → D → Bool) (dist : ℕ → ℕ → D) (newLevel level : ℕ)
    (index : HNSWIndex F) : List ℕ :=
  if newLevel < level then []
  else
    match index.nodes index.enterpointId with
    | none => []
    | some entry =>
        if entry.level < level then []
        else index.enterpointId :: seekVisits index closer (dist level) level (index.size + 1)
          index.enterpointId (dist level index.enterpointId)

/-- The level loop: each level starts from the links that the levels above have left. -/
def linkLevelsVisits (closer : D → D → Bool) (dist : ℕ → ℕ → D) (node newLevel : ℕ) :
    ℕ → HNSWIndex F → List ℕ
  | 0, _ => []
  | level + 1, index =>
      linkLevelVisits closer dist newLevel level index ++
        match linkLevel closer dist node newLevel level index with
        | none => []
        | some index => linkLevelsVisits closer dist node newLevel level index

/-- The nodes whose distances `insert_hnsw` computes. -/
def insertVisits (closer : D → D → Bool) (dist : ℕ → ℕ → D) (index : HNSWIndex F)
    (node : HNSWNode F) : List ℕ :=
  if maxElements ≤ index.size ∨ index.size = 0 then []
  else
    linkLevelsVisits closer dist index.size node.level ((index.grow node).maxLevel + 1)
      (index.grow node)

variable {index : HNSWIndex F} {level : ℕ}

/-- The greedy loop stays on the chain it walks along. -/
theorem seekVisits_subset (closer : D → D → Bool) (dist : ℕ → D) {chain : List ℕ}
    {candidate : ℕ} (hchain : Linked (forwardAt index level) candidate chain) (fuel : ℕ)
    (best : D) : seekVisits index closer dist level fuel candidate best ⊆ chain := by
  induction fuel generalizing candidate chain best with
  | zero => exact nil_subset _
  | succ fuel ih =>
      rw [seekVisits]
      split
      next next contents hread hcontents =>
          cases chain with
          | nil =>
              rw [show forwardAt index level candidate = some none from hchain] at hread
              cases hread
          | cons head chain =>
              rw [hchain.1, Option.some.injEq, Option.some.injEq] at hread
              subst hread
              split
              · refine cons_subset.2 ⟨mem_cons_self, ?_⟩
                split
                · exact fun node hnode => mem_cons_of_mem _ (ih hchain.2 _ hnode)
                · exact nil_subset _
              · exact nil_subset _
      next => exact nil_subset _

/-- At one level only nodes of the chain are visited. -/
theorem linkLevelVisits_lt (closer : D → D → Bool) (dist : ℕ → ℕ → D) {bound : ℕ → ℕ} {node : ℕ}
    (hlayered : Layered index bound) (hbound : bound level = node) (newLevel : ℕ) :
    ∀ other ∈ linkLevelVisits closer dist newLevel level index, other < node := by
  intro other hother
  unfold linkLevelVisits at hother
  split at hother
  · cases hother
  · rw [hlayered.entry_eq] at hother
    split at hother
    next => cases hother
    next entry hentry =>
        split at hother
        · cases hother
        case isFalse hlow =>
            obtain ⟨chain, hlinked, -, hmembers⟩ := hlayered.lower level
              ((tall_iff hentry).2 (not_lt.1 hlow))
            have hmem : other ∈ 0 :: chain := by
              rcases mem_cons.1 hother with rfl | hvisited
              · exact mem_cons_self
              · exact mem_cons_of_mem _ (seekVisits_subset closer _ hlinked _ _ hvisited)
            exact hbound ▸ ((hmembers other).1 hmem).1

/-- The loop visits older nodes, and starts at the entry point on the lowest level. -/
theorem linkLevelsVisits_spec (closer : D → D → Bool) (dist : ℕ → ℕ → D) {bound : ℕ → ℕ}
    {levels node : ℕ} {contents : HNSWNode F} (hlayered : Layered index bound)
    (hsize : index.size = node + 1) (hnode : index.nodes node = some contents)
    (hbound : ∀ level < levels, bound level = node) (hpos : 0 < node) :
    (∀ other ∈ linkLevelsVisits closer dist node contents.level levels index, other < node) ∧
      (0 < levels → 0 ∈ linkLevelsVisits closer dist node contents.level levels index) := by
  induction levels generalizing index bound contents with
  | zero => exact ⟨by simp [linkLevelsVisits], fun hlt => absurd hlt (lt_irrefl 0)⟩
  | succ level ih =>
      have hhere := hbound level (by omega)
      obtain ⟨next, hnext, hsame, hlinked⟩ := linkLevel_spec closer dist hlayered hsize
        hnode hhere hpos
      obtain ⟨found, hfound, hlevel, -⟩ := hsame.found hnode
      obtain ⟨hbelow, hentry⟩ := ih hlinked (hsame.size_eq.trans hsize) hfound
        (fun lower hlower => by rw [Function.update_of_ne (by omega), hbound lower (by omega)])
      rw [hlevel] at hbelow hentry
      rw [linkLevelsVisits, hnext]
      simp only [mem_append]
      refine ⟨fun other hother => ?_, fun _ => ?_⟩
      · rcases hother with hother | hother
        · exact linkLevelVisits_lt closer dist hlayered hhere _ other hother
        · exact hbelow other hother
      · cases level with
        | zero =>
            obtain ⟨first, hfirst, -⟩ := hlayered.stored 0 (by omega)
            left
            simp [linkLevelVisits, hlayered.entry_eq, hfirst]
        | succ level => exact .inr (hentry (by omega))

/-- An insertion computes distances to older nodes, among them the entry point. -/
theorem insertVisits_spec (closer : D → D → Bool) (dist : ℕ → ℕ → D) {node : HNSWNode F}
    (hchained : index.Chained) (hfresh : node.forward = replicate (node.level + 1) none) :
    (∀ other ∈ insertVisits closer dist index node, other < index.size) ∧
      (0 < index.size → index.size < maxElements → 0 ∈ insertVisits closer dist index node) := by
  unfold insertVisits
  split
  case isTrue hnone =>
      exact ⟨by simp, fun hpos hroom => by omega⟩
  case isFalse hsome =>
      have hpos : 0 < index.size := by omega
      have hgrown := grow_layered hchained.layered hpos hfresh
      have hbound : ∀ level < (index.grow node).maxLevel + 1,
          (fun _ => index.size : ℕ → ℕ) level = index.size := fun _ _ => rfl
      obtain ⟨hlt, hentry⟩ := linkLevelsVisits_spec closer dist hgrown rfl (grow_node index node)
        hbound hpos
      exact ⟨hlt, fun _ _ => hentry (by omega)⟩

/-! ## The computations of a search -/

/-- The nodes whose distances the descent loop of `search_hnsw` computes at one level. -/
def descendLevelVisits (index : HNSWIndex F) (closer : D → D → Bool) (dist : ℕ → D)
    (level : ℕ) : ℕ → ℕ → D → List ℕ
  | 0, _, _ => []
  | fuel + 1, curr, best =>
      match forwardAt index level curr with
      | some (some next) =>
          match index.nodes next with
          | none => []
          | some contents =>
              if contents.isDeleted then []
              else
                next :: if closer (dist next) best then
                  descendLevelVisits index closer dist level fuel next (dist next) else []
      | _ => []

theorem descendLevelVisits_subset (closer : D → D → Bool) (dist : ℕ → D) {chain : List ℕ}
    {curr : ℕ} (hchain : Linked (forwardAt index level) curr chain) (fuel : ℕ) (best : D) :
    descendLevelVisits index closer dist level fuel curr best ⊆ chain := by
  induction fuel generalizing curr chain best with
  | zero => exact nil_subset _
  | succ fuel ih =>
      rw [descendLevelVisits]
      cases chain with
      | nil =>
          rw [show forwardAt index level curr = some none from hchain]
          exact nil_subset _
      | cons next chain =>
          rw [hchain.1]
          dsimp only
          split
          · exact nil_subset _
          · split
            · exact nil_subset _
            · refine cons_subset.2 ⟨mem_cons_self, ?_⟩
              split
              · exact fun node hnode => mem_cons_of_mem _ (ih hchain.2 _ hnode)
              · exact nil_subset _

/-- A distance over the dimension of the index. -/
def wholeCall (vector : List F) (index : HNSWIndex F) (node : ℕ) : DistanceCall where
  left := vector.length
  right := (vectorAt index node).length
  dim := maxDim

/-- A distance over the dimension of the node. -/
def ownCall (vector : List F) (index : HNSWIndex F) (node : ℕ) : DistanceCall where
  left := vector.length
  right := (vectorAt index node).length
  dim := (vectorAt index node).length

/-- The computations of one level of the descent. -/
def descendAtCalls (query : List F) (index : HNSWIndex F) (closer : D → D → Bool)
    (dist : SearchDistances D) (level curr : ℕ) : List DistanceCall :=
  match index.nodes curr with
  | none => []
  | some contents =>
      if contents.level < level then []
      else
        wholeCall query index curr ::
          (descendLevelVisits index closer (dist.along level) level (index.size + 1) curr
            (dist.start level curr)).map (ownCall query index)

def descendCalls (query : List F) (index : HNSWIndex F) (closer : D → D → Bool)
    (dist : SearchDistances D) : ℕ → ℕ → List DistanceCall
  | 0, _ => []
  | level + 1, curr =>
      descendAtCalls query index closer dist (level + 1) curr ++
        match descendAt index closer dist (level + 1) curr with
        | none => []
        | some curr => descendCalls query index closer dist level curr

/-- The descent, the scan and the last candidate. -/
def searchCalls (query : List F) (index : HNSWIndex F) (closer : D → D → Bool)
    (dist : SearchDistances D) : List DistanceCall :=
  if index.size = 0 ∨ index.size ≤ index.enterpointId then []
  else
    (if isLive index index.enterpointId then
      descendCalls query index closer dist index.maxLevel index.enterpointId else []) ++
      match descent index closer dist with
      | none => []
      | some curr => (winners index curr).map (ownCall query index)

/-- The call compares the vector with some node of the index. -/
def ComparesNode (vector : List F) (index : HNSWIndex F) (call : DistanceCall) : Prop :=
  ∃ node < index.size, call = wholeCall vector index node ∨ call = ownCall vector index node

theorem descendAtCalls_compare (query : List F) (closer : D → D → Bool)
    (dist : SearchDistances D) {curr : ℕ} (hlayered : Layered index fun _ => index.size)
    (hcurr : curr < index.size) (hplace : curr = 0 ∨ Tall index level 0 ∧ Tall index level curr) :
    ∀ call ∈ descendAtCalls query index closer dist level curr, ComparesNode query index call := by
  obtain ⟨contents, hcontents, -⟩ := hlayered.stored curr hcurr
  intro call hcall
  simp only [descendAtCalls, hcontents] at hcall
  split at hcall
  · cases hcall
  case isFalse hshort =>
      have htall : Tall index level curr := ⟨contents, hcontents, not_lt.1 hshort⟩
      have hentry : Tall index level 0 := by
        rcases hplace with rfl | ⟨hentry, -⟩
        · exact htall
        · exact hentry
      obtain ⟨chain, hlinked, -, hmembers⟩ := hlayered.lower level hentry
      obtain ⟨front, back, rfl, hlast⟩ := exists_lastOf_eq ((hmembers curr).2 ⟨hcurr, htall⟩)
      rcases mem_cons.1 hcall with rfl | hcall
      · exact ⟨curr, hcurr, .inl rfl⟩
      · obtain ⟨node, hnode, rfl⟩ := mem_map.1 hcall
        have hback := descendLevelVisits_subset closer (dist.along level)
          (hlast ▸ hlinked.drop) _ _ hnode
        exact ⟨node, ((hmembers node).1 (mem_cons_of_mem _ (mem_append_right _ hback))).1, .inr rfl⟩

theorem descendCalls_compare (query : List F) (closer : D → D → Bool)
    (dist : SearchDistances D) {curr : ℕ} (hlayered : Layered index fun _ => index.size)
    (hcurr : curr < index.size) (hplace : curr = 0 ∨ Tall index level 0 ∧ Tall index level curr) :
    ∀ call ∈ descendCalls query index closer dist level curr, ComparesNode query index call := by
  induction level generalizing curr with
  | zero => simp [descendCalls]
  | succ level ih =>
      obtain ⟨next, hnext, hstored, hafter⟩ := descendAt_spec closer dist hlayered hcurr hplace
      intro call hcall
      rw [descendCalls, hnext, mem_append] at hcall
      rcases hcall with hcall | hcall
      · exact descendAtCalls_compare query closer dist hlayered hcurr hplace call hcall
      · exact ih hstored (hafter.imp_right fun htall =>
          ⟨htall.1.lower level.le_succ, htall.2.lower level.le_succ⟩) call hcall

theorem winners_subset {curr : Option ℕ}
    (hcurr : ∀ node, curr = some node → node ∈ liveNodes index) :
    winners index curr ⊆ liveNodes index := by
  cases curr with
  | none =>
      rw [winners_none]
      exact take_subset _ _
  | some node =>
      have hnode := hcurr node rfl
      rw [winners_some hnode]
      split
      · exact append_subset.2 ⟨erase_subset, by simpa using hnode⟩
      · exact fun other hother => erase_subset (mem_of_mem_take hother)

/-- Every computation of a search compares the query with a node. -/
theorem searchCalls_compare (query : List F) (closer : D → D → Bool) (dist : SearchDistances D)
    (hchained : index.Chained) :
    ∀ call ∈ searchCalls query index closer dist, ComparesNode query index call := by
  intro call hcall
  unfold searchCalls at hcall
  split at hcall
  · cases hcall
  case isFalse hsome =>
      have hsize : 0 < index.size := by omega
      obtain ⟨curr, hcurr, hlive⟩ := descent_spec closer dist hchained hsize
      rw [hcurr, hchained.layered.entry_eq, mem_append] at hcall
      rcases hcall with hcall | hcall
      · split at hcall
        · exact descendCalls_compare query closer dist hchained.layered hsize (.inl rfl) call hcall
        · cases hcall
      · obtain ⟨node, hnode, rfl⟩ := mem_map.1 hcall
        exact ⟨node, (mem_liveNodes.1 (winners_subset hlive hnode)).1, .inr rfl⟩

/-! ## Runs -/

/-- Every vector has `MAX_DIM` components. -/
def AllWhole (index : HNSWIndex F) : Prop :=
  Everywhere (fun _ contents => contents.vector.length = maxDim) index

theorem AllWhole.length_eq (hwhole : AllWhole index) (hchained : index.Chained) {node : ℕ}
    (hnode : node < index.size) : (vectorAt index node).length = maxDim := by
  obtain ⟨contents, hcontents, -⟩ := hchained.layered.stored node hnode
  rw [vectorAt, hcontents]
  exact hwhole node hnode contents hcontents

/-- Between vectors of `MAX_DIM` components every computation stays inside. -/
theorem ComparesNode.within {vector : List F} {call : DistanceCall}
    (hcompares : ComparesNode vector index call) (hchained : index.Chained)
    (hwhole : AllWhole index) (hvector : vector.length = maxDim) : call.Within := by
  obtain ⟨node, hnode, hcall⟩ := hcompares
  have hlength := hwhole.length_eq hchained hnode
  rw [within_iff]
  rcases hcall with rfl | rfl
  · exact ⟨hvector.ge, hlength.ge⟩
  · exact ⟨(hlength.trans hvector.symm).le, le_rfl⟩

variable [CFloat F]

/-- The computations of an update. -/
def Update.calls (vec : KvsVector F) : Update F → List DistanceCall
  | .set chance key value =>
      match (Update.set chance key value).node vec.index.size with
      | none => []
      | some node =>
          let dist := fun level other => euclideanDistance (chance.beyond level other)
            node.vector (vectorAt vec.index other) maxDim
          (insertVisits CFloat.lt dist vec.index node).map (wholeCall node.vector vec.index)
  | .del _ => []

/-- The computations of `kvs_vector_search`. -/
def kvsVectorSearchCalls (chance : VectorChance F) (vec : KvsVector F) :
    Option CStr → Option CStr → List DistanceCall
  | some _, some text =>
      match (range vec.index.size).find? (isLive vec.index) with
      | none => []
      | some first =>
          let dim := (vectorAt vec.index first).length
          if dim = 0 ∨ !chance.alloc 0 then []
          else
            let query := parseQuery dim text
            searchCalls query vec.index CFloat.lt (searchDistances chance vec.index query)
  | _, _ => []

inductive VectorCommand (F : Type) where
  | update (update : Update F)
  | search (chance : VectorChance F) (k : ℕ) (key query : Option CStr)

/-- One command, with the distances it computes. -/
def distanceStep (vec : KvsVector F) :
    VectorCommand F → Option (KvsVector F × List DistanceCall)
  | .update update => (updateStep vec update).map fun result => (result.1, update.calls vec)
  | .search chance k key query =>
      (kvsVectorSearch chance vec k key query).map fun _ =>
        (vec, kvsVectorSearchCalls chance vec key query)

/-- A new vector and all the others have `MAX_DIM` components, unless it is the first one; a
search that is carried out meets such vectors only, or a single node on the lowest level. -/
def StaysInside (vec : KvsVector F) : VectorCommand F → Prop
  | .update update => ∀ node, update.node vec.index.size = some node →
      0 < vec.index.size → vec.index.size < maxElements →
        node.vector.length = maxDim ∧ AllWhole vec.index
  | .search chance _ key query => key ≠ none → query ≠ none → chance.alloc 0 = true →
      liveNodes vec.index ≠ [] →
        AllWhole vec.index ∨ vec.index.size = 1 ∧ vec.index.maxLevel = 0

/-- What holds as long as all computations have stayed inside. -/
structure Bounded (vec : KvsVector F) : Prop where
  chained : vec.index.Chained
  lengths : Everywhere (fun _ contents => 1 ≤ contents.vector.length ∧
    contents.vector.length ≤ maxDim) vec.index
  whole : vec.index.size ≤ 1 ∨ AllWhole vec.index

variable {vec : KvsVector F}

theorem length_parseVector {text : CStr} {vector : List F}
    (hparse : parseVector text = some vector) :
    1 ≤ vector.length ∧ vector.length ≤ maxDim := by
  cases hwords : words text with
  | nil => simp [parseVector, hwords] at hparse
  | cons head rest =>
      let dim := if atoi head ≤ 0 ∨ (maxDim : ℤ) < atoi head then maxDim else (atoi head).toNat
      have hdim : 1 ≤ dim ∧ dim ≤ maxDim := by
        simp only [dim]
        split
        · exact ⟨by decide, le_rfl⟩
        · omega
      have hcut : (if rest.length < dim then none else some ((rest.take dim).map CFloat.atof)) =
          some vector := by
        rw [← hparse, parseVector, hwords]
      split at hcut
      · cases hcut
      case isFalse hlong =>
          obtain rfl := Option.some.inj hcut
          rwa [length_map, length_take, min_eq_left (not_lt.1 hlong)]

theorem Update.node_length {update : Update F} {size : ℕ} {node : HNSWNode F}
    (hnode : update.node size = some node) :
    1 ≤ node.vector.length ∧ node.vector.length ≤ maxDim := by
  obtain ⟨chance, key, value, name, rfl, haccepted, -⟩ := update.node_fresh hnode
  obtain ⟨text, -, -, hparse⟩ := acceptedVector_eq_some_iff.1 haccepted
  exact length_parseVector hparse

omit [CFloat F] in
/-- In an index with few nodes the entry point speaks for all of them. -/
theorem Bounded.allWhole (hbounded : Bounded vec) (hpos : 0 < vec.index.size)
    (hentry : maxDim ≤ (vectorAt vec.index 0).length) : AllWhole vec.index := by
  rcases hbounded.whole with hone | hwhole
  · intro node hnode contents hcontents
    obtain rfl : node = 0 := by omega
    rw [vectorAt, hcontents] at hentry
    exact le_antisymm (hbounded.lengths 0 hpos contents hcontents).2 hentry
  · exact hwhole

/-- The computations of an update stay inside exactly under the condition. -/
theorem update_within_iff (hbounded : Bounded vec) (update : Update F) :
    (∀ call ∈ update.calls vec, call.Within) ↔ StaysInside vec (.update update) := by
  cases update with
  | del key => simp [Update.calls, StaysInside, Update.node]
  | set chance key value =>
      simp only [Update.calls, StaysInside]
      cases hnode : (Update.set chance key value).node vec.index.size with
      | none => simp
      | some node =>
          obtain ⟨-, -, -, -, -, -, -, hforward, -⟩ := Update.node_fresh hnode
          have hlength := Update.node_length hnode
          let dist := fun level other => euclideanDistance (chance.beyond level other)
            node.vector (vectorAt vec.index other) maxDim
          obtain ⟨hlt, hentry⟩ := insertVisits_spec CFloat.lt dist hbounded.chained hforward
          constructor
          · rintro hwithin other hother hpos hroom
            obtain rfl := Option.some.inj hother
            have hcall := within_iff.1 (hwithin _ (mem_map_of_mem (hentry hpos hroom)))
            exact ⟨le_antisymm hlength.2 hcall.1, hbounded.allWhole hpos hcall.2⟩
          · intro hinside call hcall
            obtain ⟨other, hother, rfl⟩ := mem_map.1 hcall
            have hstored := hlt other hother
            have hroom : vec.index.size < maxElements := by
              by_contra hfull
              simp [insertVisits, not_lt.1 hfull] at hother
            obtain ⟨hvector, hwhole⟩ := hinside node rfl (by omega) hroom
            exact ComparesNode.within ⟨other, hstored, .inl rfl⟩ hbounded.chained hwhole hvector

theorem length_parseQuery (dim : ℕ) (text : CStr) :
    (parseQuery dim text : List F).length = dim := by
  simp only [parseQuery, length_append, length_map, length_take, length_replicate]
  omega

omit [CFloat F] in
/-- In an index with a single node the first level of the descent starts there. -/
theorem wholeCall_mem_searchCalls {query : List F} {dist : SearchDistances D}
    {closer : D → D → Bool} (hchained : index.Chained) (hone : index.size = 1)
    (hlive : isLive index 0 = true) (htop : index.maxLevel ≠ 0) :
    wholeCall query index 0 ∈ searchCalls query index closer dist := by
  have hentry := hchained.layered.entry_eq
  obtain ⟨level, hlevel⟩ := Nat.exists_eq_succ_of_ne_zero htop
  obtain ⟨contents, hcontents, hreach⟩ : Tall index index.maxLevel 0 := by
    rcases hchained.top with ⟨hempty, -⟩ | ⟨node, hnode, htall⟩
    · omega
    · obtain rfl : node = 0 := by omega
      exact htall
  rw [hlevel] at hreach
  rw [searchCalls, if_neg (by omega), hentry, if_pos hlive, hlevel, descendCalls, descendAtCalls,
    hcontents, mem_append, mem_append]
  left
  left
  simp only [not_lt.2 hreach, if_false]
  exact mem_cons_self

omit [CFloat F] in
/-- A query as long as the first live vector. -/
theorem searchCalls_within_iff (hbounded : Bounded vec) (closer : D → D → Bool)
    (dist : SearchDistances D) {first : ℕ} {query : List F} (hfirst : first ∈ liveNodes vec.index)
    (hquery : query.length = (vectorAt vec.index first).length) :
    (∀ call ∈ searchCalls query vec.index closer dist, call.Within) ↔
      AllWhole vec.index ∨ vec.index.size = 1 ∧ vec.index.maxLevel = 0 := by
  obtain ⟨hstored, hlive⟩ := mem_liveNodes.1 hfirst
  have hchained := hbounded.chained
  constructor
  · intro hwithin
    rcases hbounded.whole with hsmall | hwhole
    · obtain rfl : first = 0 := by omega
      by_cases htop : vec.index.maxLevel = 0
      · exact .inr ⟨by omega, htop⟩
      · have hcall := hwithin _ (wholeCall_mem_searchCalls hchained (by omega) hlive htop)
        exact .inl (hbounded.allWhole hstored (within_iff.1 hcall).2)
    · exact .inl hwhole
  · rintro (hwhole | ⟨hone, htop⟩) call hcall
    · exact (searchCalls_compare query closer dist hchained call hcall).within hchained hwhole
        (hquery.trans (hwhole.length_eq hchained hstored))
    · -- without levels above the lowest one only the scan computes distances
      obtain ⟨curr, hcurr, hthere⟩ := descent_spec closer dist hchained (by omega)
      rw [searchCalls, if_neg (by rw [hchained.layered.entry_eq]; omega), htop, hcurr,
        mem_append] at hcall
      rcases hcall with hcall | hcall
      · simp [descendCalls] at hcall
      · obtain ⟨node, hnode, rfl⟩ := mem_map.1 hcall
        have hlt := (mem_liveNodes.1 (winners_subset hthere hnode)).1
        obtain rfl : node = first := by omega
        exact within_iff.2 ⟨hquery.ge, le_rfl⟩

/-- The computations of a search stay inside exactly under the condition. -/
theorem search_within_iff (hbounded : Bounded vec) (chance : VectorChance F) (k : ℕ)
    (key query : Option CStr) :
    (∀ call ∈ kvsVectorSearchCalls chance vec key query, call.Within) ↔
      StaysInside vec (.search chance k key query) := by
  cases key with
  | none => simp [kvsVectorSearchCalls, StaysInside]
  | some key =>
  cases query with
  | none => simp [kvsVectorSearchCalls, StaysInside]
  | some text =>
      have hhead : (liveNodes vec.index).head? =
          (range vec.index.size).find? (isLive vec.index) := head?_filter
      simp only [kvsVectorSearchCalls, StaysInside, ← hhead]
      cases hfirst : (liveNodes vec.index).head? with
      | none => simp [head?_eq_none_iff.1 hfirst]
      | some first =>
          have hmem := mem_of_mem_head? hfirst
          obtain ⟨hstored, hlive⟩ := mem_liveNodes.1 hmem
          obtain ⟨contents, hcontents, -⟩ := hbounded.chained.layered.stored first hstored
          have hdim : (vectorAt vec.index first).length ≠ 0 := by
            have := (hbounded.lengths first hstored contents hcontents).1
            rw [vectorAt, hcontents]
            dsimp only
            omega
          cases hmemory : chance.alloc 0 with
          | false => simp
          | true =>
              have hsome : liveNodes vec.index ≠ [] := ne_nil_of_mem hmem
              simp only [hdim, Bool.not_true, Bool.false_eq_true, or_false, if_false, ne_eq,
                reduceCtorEq, not_false_eq_true, forall_const, hsome]
              exact searchCalls_within_iff hbounded _ _ hmem (length_parseQuery _ text)

omit [CFloat F] in
theorem AllWhole.bounded (hwhole : AllWhole vec.index) (hchained : vec.index.Chained) :
    Bounded vec where
  chained := hchained
  lengths := by
    intro node hnode contents hcontents
    have hlength : contents.vector.length = maxDim := hwhole node hnode contents hcontents
    exact ⟨hlength ▸ by decide, hlength.le⟩
  whole := .inr hwhole

/-- What is known of the lengths is kept by commands that stay inside. -/
theorem distanceStep_bounded (hbounded : Bounded vec) (command : VectorCommand F) :
    ∃ after calls, distanceStep vec command = some (after, calls) ∧
      ((∀ call ∈ calls, call.Within) ↔ StaysInside vec command) ∧
      (StaysInside vec command → Bounded after) := by
  cases command with
  | search chance k key query =>
      obtain ⟨count, found, hsearch⟩ := kvsVectorSearch_isSome chance hbounded.chained k key query
      refine ⟨vec, kvsVectorSearchCalls chance vec key query, ?_,
        search_within_iff hbounded chance k key query, fun _ => hbounded⟩
      simp [distanceStep, hsearch]
  | update update =>
      have hwithin := update_within_iff hbounded update
      have ⟨hchained, hlengths, hwhole⟩ := hbounded
      rcases updateStep_cases hchained update with ⟨code, -, hstep, -⟩ |
        ⟨key, node, rfl, hstep⟩ | ⟨node, grown, key, count, hnode, hroom, hsame, hgrown, hstep⟩
      · exact ⟨vec, _, by simp [distanceStep, hstep], hwithin, fun _ => hbounded⟩
      · refine ⟨markDeleted vec node, _, by simp [distanceStep, hstep], hwithin, fun _ => ?_⟩
        exact ⟨chained_markDeleted hchained node,
          hlengths.markDeleted (fun _ _ _ _ => Iff.rfl) node,
          hwhole.imp_right fun hall => hall.markDeleted (fun _ _ _ _ => Iff.rfl) node⟩
      · refine ⟨_, _, by simp only [distanceStep, hstep]; rfl, hwithin, fun hinside => ?_⟩
        refine ⟨retire_chained hgrown key, ?_, ?_⟩
        · have hlength := Update.node_length hnode
          exact ((hlengths.grow hlength).same
            (fun _ _ _ _ => Iff.rfl) hsame).retire (fun _ _ _ _ => Iff.rfl) key
        · rcases Nat.eq_zero_or_pos vec.index.size with hempty | hpos
          · left
            rw [retire_size, hsame.size_eq]
            simp [HNSWIndex.grow, hempty]
          · right
            obtain ⟨hvector, hall⟩ := hinside node hnode hpos hroom
            exact ((Everywhere.grow hall hvector).same
              (fun _ _ _ _ => Iff.rfl) hsame).retire (fun _ _ _ _ => Iff.rfl) key

/-- In a run every computed distance stays inside both vectors exactly if every command meets
its condition in the state it finds. -/
theorem distances_within_iff (commands : List (VectorCommand F)) :
    Every distanceStep (fun _ _ calls => ∀ call ∈ calls, call.Within) (kvsVectorCreate F)
        commands ↔
      Along distanceStep StaysInside (kvsVectorCreate F) commands := by
  have hstart : Bounded (kvsVectorCreate F) :=
    ⟨chained_create, fun node hnode => absurd hnode (Nat.not_lt_zero node), .inl (Nat.zero_le 1)⟩
  refine every_iff_along (fun _ => True) (fun vec command hbounded _ => ?_)
    (fun vec command after calls hbounded _ hstep hwithin => ?_) hstart (fun _ _ => trivial)
  · obtain ⟨after, calls, hstep, hiff, -⟩ := distanceStep_bounded hbounded command
    simp [hstep, ← hiff]
  · obtain ⟨final, found, hfinal, hiff, hkeep⟩ := distanceStep_bounded hbounded command
    obtain ⟨rfl, rfl⟩ := Prod.mk.inj (Option.some.inj (hfinal.symm.trans hstep))
    exact hkeep (hiff.1 hwithin)

/-- Two vectors with one component each. -/
def shortVectors : List (VectorCommand Float32) :=
  [.update (.set quietChance (some (lit "k")) (some oneVector)),
    .update (.set quietChance (some (lit "l")) (some oneVector))]

/-- The second insertion compares 1536 components of two arrays of length 1. -/
theorem short_vectors_read_outside :
    (run distanceStep (kvsVectorCreate Float32) shortVectors).map Prod.snd =
        some [[], [{ left := 1, right := 1, dim := 1536 }]] ∧
      ¬({ left := 1, right := 1, dim := 1536 } : DistanceCall).Within := by
  refine ⟨by decide +kernel, fun hwithin => ?_⟩
  exact absurd (within_iff.1 hwithin).1 (by decide)

end LiteMultiKV.Vector
