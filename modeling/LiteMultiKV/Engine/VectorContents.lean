import LiteMultiKV.Engine.VectorBounds

/-!
# What can be seen of the index

The keys and vectors of the live nodes in the order of their insertion decide
the answers of the engine: the identifiers and levels show only in the text of
`kvs_vector_get`.  A search is decided by them if they all are candidates, no
distance reads beyond the query, and no two distances tie.
-/

namespace LiteMultiKV.Vector

open List CText Memory Numeric

variable {F : Type} {vec : KvsVector F}

/-- The keys and vectors of the live nodes. -/
def contents (index : HNSWIndex F) : List (CStr × List F) :=
  (rows index).map fun row => (row.key, row.vector)

theorem contents_others (index : HNSWIndex F) (key : CStr) :
    (others index key).map (fun row => (row.key, row.vector)) =
      (contents index).filter fun item => item.1 ≠ key := by
  rw [contents, others, filter_map]
  rfl

theorem find_contents (index : HNSWIndex F) (key : CStr) :
    ((contents index).find? fun item => item.1 = key) =
      ((rows index).find? fun row => row.key = key).map fun row => (row.key, row.vector) := by
  rw [contents, find?_map]
  rfl

theorem kvsVectorCount_contents (htallied : vec.Tallied) :
    kvsVectorCount vec = (contents vec.index).length := by
  have hdeleted := htallied.deleted
  rw [kvsVectorCount, contents, length_map]
  omega

theorem kvsVectorDel_contents (htallied : vec.Tallied) (key : CStr) :
    ∃ after code, kvsVectorDel vec (some key) = (after, code) ∧ after.Tallied ∧
      after.index.size = vec.index.size ∧
      contents after.index = (contents vec.index).filter (fun item => item.1 ≠ key) ∧
      code = if ((contents vec.index).find? fun item => item.1 = key).isSome then 0 else -2 := by
  rcases kvsVectorDel_rows htallied key with
    ⟨hnone, hdel⟩ | ⟨row, after, hsome, hdel, hafter, hsize, hrows⟩
  · refine ⟨vec, -2, hdel, htallied, rfl, ?_, by simp [find_contents, hnone]⟩
    rcases find_row htallied key with ⟨-, hothers⟩ | ⟨row, -, -, hsome, -⟩
    · rw [← contents_others, hothers]
      rfl
    · rw [hnone] at hsome
      cases hsome
  · refine ⟨after, 0, hdel, hafter, hsize, ?_, by simp [find_contents, hsome]⟩
    rw [← contents_others, ← hrows]
    rfl

section Interface

variable [CFloat F]

theorem kvsVectorSet_contents (chance : VectorChance F) (htallied : vec.Tallied)
    (halloc : chance.alloc = allocOk) (hroom : vec.index.size < maxElements)
    (key value : Option CStr) :
    ∃ after code, kvsVectorSet chance vec key value = some (after, code) ∧ after.Tallied ∧
      vec.index.size ≤ after.index.size ∧
      match acceptedVector (F := F) key value with
      | none => code = -1 ∧ after = vec
      | some (name, vector) => code = 0 ∧ after.index.size = vec.index.size + 1 ∧
          contents after.index =
            (contents vec.index).filter (fun item => item.1 ≠ name) ++ [(name, vector)] := by
  rcases kvsVectorSet_rows chance htallied halloc key value with
    ⟨hwhy, hset⟩ | ⟨name, vector, after, haccepted, -, hset, hafter, hsize, hrows⟩
  · refine ⟨vec, -1, hset, htallied, le_rfl, ?_⟩
    rw [hwhy.resolve_right (not_le.2 hroom)]
    exact ⟨rfl, rfl⟩
  · refine ⟨after, 0, hset, hafter, by omega, ?_⟩
    rw [haccepted]
    refine ⟨rfl, hsize, ?_⟩
    rw [← contents_others, contents, hrows, map_append]
    rfl

/-- The text of a vector with some identifier and level. -/
def vectorText (key : CStr) (vector : List F) (id level : ℕ) : CStr :=
  nodeText key
    { id := id, level := level, vector := vector, key := some key, isDeleted := false,
      forward := [] }

/-- `kvs_vector_get` shows the vector of the key. -/
theorem kvsVectorGet_contents (htallied : vec.Tallied) (key : CStr) :
    match (contents vec.index).find? fun item => item.1 = key with
    | none => kvsVectorGet vec (some key) = none
    | some (_, vector) => ∃ id level,
        kvsVectorGet vec (some key) = some (vectorText key vector id level) := by
  have hnode := findNode_eq vec.index key vec.index.size
  rw [← rows] at hnode
  rw [find_contents]
  rcases find_row htallied key with ⟨hnone, -⟩ | ⟨row, hrow, rfl, hsome, -⟩
  · rw [hnone, Option.map_none] at hnode ⊢
    simp [kvsVectorGet, hnode]
  · rw [hsome, Option.map_some] at hnode ⊢
    obtain ⟨found, hfound, -, hkey, hvector, -⟩ :=
      rowAt_eq_some_iff.1 (mem_rows_iff.1 hrow).2
    refine ⟨found.id, found.level, ?_⟩
    simp [kvsVectorGet, hnode, hfound, hkey, vectorText, nodeText, hvector]

/-! ## Searches -/

/-- The distance over the dimension of the vector, where nothing is read beyond the
query. -/
def distanceTo (query vector : List F) : F :=
  euclideanDistance (fun _ => (0.0, 0.0)) query vector vector.length

theorem euclideanDistance_inside (beyond : Beyond F) {query vector : List F}
    (hlength : vector.length ≤ query.length) :
    euclideanDistance beyond query vector vector.length = distanceTo query vector := by
  unfold distanceTo euclideanDistance
  refine congrArg CFloat.sqrt (foldl_ext _ _ _ fun dist i hi => ?_)
  have hvector : i < vector.length := mem_range.1 hi
  have hquery : i < query.length := by omega
  simp [getD_eq_getElem?_getD, hvector, hquery]

/-- The dimension of the first vector. -/
def firstDim (held : List (CStr × List F)) : ℕ :=
  (held.head?.map fun item => item.2.length).getD 0

/-- The query that a search of these vectors takes from a text. -/
def queryOf (held : List (CStr × List F)) (text : CStr) : List F :=
  parseQuery (firstDim held) text

/-- The vectors alone decide a search: they all are candidates, have one dimension, and are
strictly ordered by their distances. -/
structure Decided (held : List (CStr × List F)) (query : List F) : Prop where
  fits : held.length ≤ efSearch
  length_eq : ∀ item ∈ held, item.2.length = query.length
  orders : Orders CFloat.lt fun distance => ∃ item ∈ held, distance = distanceTo query item.2
  strict : ∀ item ∈ held, ∀ other ∈ held, item ≠ other →
    CFloat.lt (distanceTo query item.2) (distanceTo query other.2) = true ∨
      CFloat.lt (distanceTo query other.2) (distanceTo query item.2) = true

/-- What a row of results shows. -/
def label (vec : KvsVector F) (item : ℕ × F) : Option CStr × F :=
  (kvsVectorGetKeyById vec item.1, item.2)

omit [CFloat F] in
/-- The live nodes with their keys and vectors. -/
theorem map_liveNodes (htallied : vec.Tallied) :
    (liveNodes vec.index).map
        (fun node => (kvsVectorGetKeyById vec node, vectorAt vec.index node)) =
      (contents vec.index).map fun item => (some item.1, item.2) := by
  have hnodes : ∀ nodes : List ℕ, (∀ node ∈ nodes, node < vec.index.size) →
      (nodes.filter (isLive vec.index)).map
          (fun node => (kvsVectorGetKeyById vec node, vectorAt vec.index node)) =
        (nodes.filterMap (rowAt vec.index)).map fun row => (some row.key, row.vector) := by
    intro nodes
    induction nodes with
    | nil => exact fun _ => rfl
    | cons node nodes ih =>
        intro hstored
        have hnode := hstored node mem_cons_self
        have hrest := ih fun other hother => hstored other (mem_cons_of_mem _ hother)
        have hnamed := htallied.named node hnode
        cases hrow : rowAt vec.index node with
        | none =>
            rw [hrow] at hnamed
            rw [filter_cons_of_neg (by simp [hnamed]), filterMap_cons_none hrow, hrest]
        | some row =>
            rw [hrow] at hnamed
            obtain ⟨found, hfound, hlive, hkey, hvector, -⟩ := rowAt_eq_some_iff.1 hrow
            rw [filter_cons_of_pos hnamed, filterMap_cons_some hrow, map_cons, map_cons, hrest]
            simp [kvsVectorGetKeyById, vectorAt, hnode, hfound, hlive, hkey, hvector]
  rw [contents, map_map]
  exact hnodes _ fun node hnode => mem_range.1 hnode

/-- The rows of a decided search, up to their order. -/
def shownRows (held : List (CStr × List F)) (query : List F) : List (Option CStr × F) :=
  held.map fun item => (some item.1, distanceTo query item.2)

theorem Decided.eq_of_sorted {held : List (CStr × List F)} {query : List F}
    (hdecided : Decided held query) {first second : List (Option CStr × F)}
    (hfirst : first.Perm (shownRows held query)) (hsecond : second.Perm (shownRows held query))
    (hsorted : first.Pairwise fun item other => CFloat.lt other.2 item.2 = false)
    (hsorted' : second.Pairwise fun item other => CFloat.lt other.2 item.2 = false) :
    first = second := by
  refine (hfirst.trans hsecond.symm).eq_of_pairwise (fun item other hitem hother hle hge => ?_)
    hsorted hsorted'
  obtain ⟨left, hleft, rfl⟩ := mem_map.1 (hfirst.subset hitem)
  obtain ⟨right, hright, rfl⟩ := mem_map.1 (hsecond.subset hother)
  by_contra hne
  have hdistinct : left ≠ right := fun heq => hne (heq ▸ rfl)
  rcases hdecided.strict left hleft right hright hdistinct with hlt | hlt
  · exact absurd (hlt.symm.trans hge) (by decide)
  · exact absurd (hlt.symm.trans hle) (by decide)

/-- A search that finds only decided vectors shows the nearest of them in order. -/
theorem searchHnsw_decided (htallied : vec.Tallied) {query : List F}
    (hdecided : Decided (contents vec.index) query) (chance : VectorChance F) (k : ℕ) :
    ∃ found sorted : List (ℕ × F),
      searchHnsw vec.index CFloat.lt (searchDistances chance vec.index query) k = some found ∧
      found = sorted.take k ∧
      (sorted.map (label vec)).Perm (shownRows (contents vec.index) query) ∧
      (sorted.map (label vec)).Pairwise fun item other => CFloat.lt other.2 item.2 = false := by
  let dist := searchDistances chance vec.index query
  have hmap := map_liveNodes htallied
  have hlength : (liveNodes vec.index).length ≤ efSearch := by
    have := congrArg length hmap
    simp only [length_map] at this
    exact this ▸ hdecided.fits
  obtain ⟨curr, hcurr, -, hsearch⟩ := searchHnsw_eq CFloat.lt dist htallied.chained
  have hwinners := winners_perm hcurr hlength
  let items := (winners vec.index curr).map fun node => (node, dist.scan node)
  have hperm := exchangeSort_perm CFloat.lt (winners vec.index curr).length items
  -- a live node, its distance and its key
  have hscan : ∀ node ∈ liveNodes vec.index,
      dist.scan node = distanceTo query (vectorAt vec.index node) ∧
        ∃ item ∈ contents vec.index, vectorAt vec.index node = item.2 := by
    intro node hnode
    have hmem := mem_map_of_mem (f := fun node =>
      (kvsVectorGetKeyById vec node, vectorAt vec.index node)) hnode
    rw [hmap] at hmem
    obtain ⟨item, hitem, heq⟩ := mem_map.1 hmem
    have hvector : item.2 = vectorAt vec.index node := congrArg Prod.snd heq
    refine ⟨euclideanDistance_inside _ ?_, item, hitem, hvector.symm⟩
    rw [← hvector, hdecided.length_eq item hitem]
  have hlabels : (liveNodes vec.index).map (fun node => label vec (node, dist.scan node)) =
      shownRows (contents vec.index) query := by
    have hwide := congrArg (map fun item : Option CStr × List F =>
      (item.1, distanceTo query item.2)) hmap
    rw [map_map, map_map] at hwide
    refine Eq.trans (map_congr_left fun node hnode => ?_) hwide
    simp [label, (hscan node hnode).1]
  refine ⟨_, exchangeSort CFloat.lt (winners vec.index curr).length items, hsearch k, rfl, ?_, ?_⟩
  · refine (hperm.map _).trans ?_
    rw [map_map, ← hlabels]
    exact hwinners.map _
  · rw [pairwise_map]
    refine exchangeSort_sorted hdecided.orders (fun item hitem => ?_) (by simp [items])
    obtain ⟨node, hnode, rfl⟩ := mem_map.1 hitem
    obtain ⟨hdistance, held, hheld, hvector⟩ := hscan node (hwinners.subset hnode)
    exact ⟨held, hheld, hvector ▸ hdistance⟩

/-- The first live vector decides the query. -/
theorem kvsVectorSearch_held (htallied : vec.Tallied) {chance : VectorChance F}
    (hmemory : chance.alloc 0 = true) (k : ℕ) (key text : CStr) :
    kvsVectorSearch chance vec k (some key) (some text) =
      if firstDim (contents vec.index) = 0 then some (0, [])
      else (searchHnsw vec.index CFloat.lt (searchDistances chance vec.index
        (queryOf (contents vec.index) text)) k).map fun found => ((found.length : ℤ), found) := by
  have hhead := congrArg head? (map_liveNodes htallied)
  rw [head?_map, head?_map] at hhead
  cases hfirst : (liveNodes vec.index).head? with
  | none =>
      rw [hfirst, Option.map_none, eq_comm, Option.map_eq_none_iff] at hhead
      have hfind : (range vec.index.size).find? (isLive vec.index) = none :=
        head?_filter.symm.trans hfirst
      simp [firstDim, hhead, kvsVectorSearch, hfind]
  | some first =>
      rw [hfirst, Option.map_some, eq_comm, Option.map_eq_some_iff] at hhead
      obtain ⟨item, hitem, heq⟩ := hhead
      have hdim : firstDim (contents vec.index) = (vectorAt vec.index first).length := by
        rw [← (Prod.mk.inj heq).2, firstDim, hitem]
        rfl
      by_cases hzero : (vectorAt vec.index first).length = 0
      · have hfind : (range vec.index.size).find? (isLive vec.index) = some first :=
          head?_filter.symm.trans hfirst
        rw [hdim, if_pos hzero]
        simp [kvsVectorSearch, hfind, hzero]
      · rw [queryOf, hdim, if_neg hzero]
        exact kvsVectorSearch_eq k key text hmemory hfirst hzero

/-- Two engines with the same decided vectors find the same. -/
theorem kvsVectorSearch_contents {twin : KvsVector F} (htallied : vec.Tallied)
    (htwin : twin.Tallied) (hsame : contents twin.index = contents vec.index)
    {chance other : VectorChance F} (hmemory : chance.alloc 0 = true)
    (hother : other.alloc 0 = true) (k : ℕ) (key text : CStr)
    (hdecided : Decided (contents vec.index) (queryOf (contents vec.index) text)) :
    ∃ count found twinFound,
      kvsVectorSearch chance vec k (some key) (some text) = some (count, found) ∧
      kvsVectorSearch other twin k (some key) (some text) = some (count, twinFound) ∧
      found.map (label vec) = twinFound.map (label twin) := by
  rw [kvsVectorSearch_held htallied hmemory, kvsVectorSearch_held htwin hother, hsame]
  split
  · exact ⟨0, [], [], rfl, rfl, rfl⟩
  · obtain ⟨found, sorted, hsearch, rfl, hperm, hsorted⟩ :=
      searchHnsw_decided htallied hdecided chance k
    obtain ⟨twinFound, twinSorted, htwinSearch, rfl, htwinPerm, htwinSorted⟩ :=
      searchHnsw_decided htwin (hsame ▸ hdecided) other k
    rw [hsame] at htwinSearch htwinPerm
    have hlabels := hdecided.eq_of_sorted hperm htwinPerm hsorted htwinSorted
    have hfound : (sorted.take k).map (label vec) = (twinSorted.take k).map (label twin) := by
      rw [map_take, map_take, hlabels]
    have hlength : (sorted.take k).length = (twinSorted.take k).length := by
      simpa only [length_map] using congrArg length hfound
    refine ⟨_, sorted.take k, twinSorted.take k, by rw [hsearch]; rfl, ?_, hfound⟩
    rw [htwinSearch, hlength]
    rfl

end Interface

end LiteMultiKV.Vector
