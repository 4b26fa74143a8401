import LiteMultiKV.Engine.VectorUpdates

/-!
# Searches

`search_hnsw` walks down the layers to one node, scans the index for up to
`EF_SEARCH` other live nodes, adds the node of the walk if there is room, and
sorts what it has.  As long as the live nodes fit, the results are the nearest
ones.  With more of them the scan can fill the array, and the node of the walk is
dropped however near it is.
-/

namespace LiteMultiKV.Vector

open List CText Memory Numeric Run

variable {F D : Type}

/-! ## The exchange sort -/

/-- On the given distances, not being farther is transitive and follows from being
closer. -/
structure Orders (closer : D → D → Bool) (members : D → Prop) : Prop where
  asymm : ∀ first second, members first → members second →
    closer first second = true → closer second first = false
  trans : ∀ first second third, members first → members second → members third →
    closer second first = false → closer third second = false → closer third first = false

variable {closer : D → D → Bool} {members : D → Prop}

theorem selectLeast_perm (closer : D → D → Bool) (least : ℕ × D) (items : List (ℕ × D)) :
    ((selectLeast closer least items).1 :: (selectLeast closer least items).2).Perm
      (least :: items) := by
  induction items generalizing least with
  | nil => exact .refl _
  | cons item items ih =>
      rw [selectLeast]
      split
      · exact (Perm.swap _ _ _).trans ((ih item).cons least)
      · exact (Perm.swap _ _ _).trans (((ih least).cons item).trans (.swap _ _ _))

theorem selectLeast_mem (closer : D → D → Bool) (least : ℕ × D) (items : List (ℕ × D)) :
    (selectLeast closer least items).1 ∈ least :: items :=
  (selectLeast_perm closer least items).subset mem_cons_self

theorem Orders.irrefl (horders : Orders closer members) {distance : D}
    (hmember : members distance) : closer distance distance = false := by
  cases hself : closer distance distance with
  | false => rfl
  | true => exact hself.symm.trans (horders.asymm _ _ hmember hmember hself)

/-- A round ends with a least element in front. -/
theorem selectLeast_least (horders : Orders closer members) {least : ℕ × D}
    {items : List (ℕ × D)} (hmembers : ∀ item ∈ least :: items, members item.2) :
    ∀ item ∈ least :: items, closer item.2 (selectLeast closer least items).1.2 = false := by
  induction items generalizing least with
  | nil =>
      intro item hitem
      obtain rfl := mem_singleton.1 hitem
      exact horders.irrefl (hmembers item hitem)
  | cons next items ih =>
      have hleast := hmembers least mem_cons_self
      have hnext := hmembers next (by simp)
      rw [selectLeast]
      cases hcloser : closer next.2 least.2 with
      | true =>
          have htail : ∀ item ∈ next :: items, members item.2 := fun item hitem =>
            hmembers item (mem_cons_of_mem least hitem)
          have hfirst := htail _ (selectLeast_mem closer next items)
          intro item hitem
          rcases mem_cons.1 hitem with rfl | hitem
          · exact horders.trans _ _ _ hfirst hnext hleast (ih htail next mem_cons_self)
              (horders.asymm _ _ hnext hleast hcloser)
          · exact ih htail item hitem
      | false =>
          have htail : ∀ item ∈ least :: items, members item.2 := fun item hitem =>
            hmembers item (by simp only [mem_cons] at hitem ⊢; tauto)
          have hfirst := htail _ (selectLeast_mem closer least items)
          intro item hitem
          have hcases : item = next ∨ item ∈ least :: items := by
            simp only [mem_cons] at hitem ⊢
            tauto
          rcases hcases with rfl | hitem
          · exact horders.trans _ _ _ hfirst hleast hnext (ih htail least mem_cons_self) hcloser
          · exact ih htail item hitem

theorem exchangeSort_perm (closer : D → D → Bool) (rounds : ℕ) (items : List (ℕ × D)) :
    (exchangeSort closer rounds items).Perm items := by
  induction rounds generalizing items with
  | zero => exact .refl _
  | succ rounds ih =>
      cases items with
      | nil => exact .refl _
      | cons item items => exact ((ih _).cons _).trans (selectLeast_perm closer item items)

/-- As many rounds as there are elements sort them. -/
theorem exchangeSort_sorted (horders : Orders closer members) {rounds : ℕ}
    {items : List (ℕ × D)} (hmembers : ∀ item ∈ items, members item.2)
    (hrounds : items.length ≤ rounds) :
    (exchangeSort closer rounds items).Pairwise fun first second =>
      closer second.2 first.2 = false := by
  induction rounds generalizing items with
  | zero =>
      rw [length_eq_zero_iff.1 (Nat.le_zero.1 hrounds)]
      exact .nil
  | succ rounds ih =>
      cases items with
      | nil => exact .nil
      | cons item items =>
          have hperm := selectLeast_perm closer item items
          have hleast := selectLeast_least horders hmembers
          have hrest : ∀ other ∈ (selectLeast closer item items).2, other ∈ item :: items :=
            fun other hother => hperm.subset (mem_cons_of_mem _ hother)
          have hlength := hperm.length_eq
          simp only [length_cons] at hlength hrounds
          refine pairwise_cons.2 ⟨fun other hother => ?_, ?_⟩
          · exact hleast other (hrest other ((exchangeSort_perm closer rounds _).subset hother))
          · exact ih (fun other hother => hmembers other (hrest other hother)) (by omega)

/-! ## Candidates -/

/-- The nodes that are not deleted. -/
def liveNodes (index : HNSWIndex F) : List ℕ :=
  (range index.size).filter (isLive index)

variable {index : HNSWIndex F} {dist : SearchDistances D}

theorem mem_liveNodes {node : ℕ} :
    node ∈ liveNodes index ↔ node < index.size ∧ isLive index node = true := by
  simp [liveNodes]

theorem nodup_liveNodes (index : HNSWIndex F) : (liveNodes index).Nodup :=
  nodup_range.filter _

theorem descendLevel_isLive {dist : ℕ → D} {level fuel curr final : ℕ} {best : D}
    (hdescend : descendLevel index closer dist level fuel curr best = some final)
    (hcurr : isLive index curr = true) : isLive index final = true := by
  induction fuel generalizing curr best with
  | zero => cases hdescend
  | succ fuel ih =>
      simp only [descendLevel, Option.bind_eq_bind, Option.bind_eq_some_iff] at hdescend
      obtain ⟨link, -, hdescend⟩ := hdescend
      cases link with
      | none =>
          obtain rfl : curr = final := by simpa using hdescend
          exact hcurr
      | some next =>
          obtain ⟨contents, hcontents, hdescend⟩ := Option.bind_eq_some_iff.1 hdescend
          split at hdescend
          case isTrue hmove =>
              refine ih hdescend ?_
              rw [Bool.and_eq_true] at hmove
              simpa [isLive, hcontents] using hmove.1
          case isFalse =>
              obtain rfl : curr = final := by simpa using hdescend
              exact hcurr

theorem descend_isLive {level curr final : ℕ}
    (hdescend : descend index closer dist level curr = some final)
    (hcurr : isLive index curr = true) : isLive index final = true := by
  induction level generalizing curr with
  | zero =>
      obtain rfl : curr = final := by simpa [descend] using hdescend
      exact hcurr
  | succ level ih =>
      simp only [descend, Option.bind_eq_bind, Option.bind_eq_some_iff] at hdescend
      obtain ⟨next, hnext, hdescend⟩ := hdescend
      refine ih hdescend ?_
      simp only [descendAt, Option.bind_eq_bind, Option.bind_eq_some_iff] at hnext
      obtain ⟨contents, -, hnext⟩ := hnext
      split at hnext
      · obtain rfl : curr = next := by simpa using hnext
        exact hcurr
      · exact descendLevel_isLive hnext hcurr

/-- The walk ends, and if it ends at a node, at a live one. -/
theorem descent_spec (closer : D → D → Bool) (dist : SearchDistances D)
    (hchained : index.Chained) (hsize : 0 < index.size) :
    ∃ curr, descent index closer dist = some curr ∧
      ∀ node, curr = some node → node ∈ liveNodes index := by
  have hentry := hchained.layered.entry_eq
  unfold descent
  split
  case isTrue hlive =>
      rw [hentry] at hlive ⊢
      obtain ⟨final, hfinal, hlt⟩ := descend_spec closer dist hchained.layered hsize (.inl rfl)
      refine ⟨some final, by rw [hfinal]; rfl, ?_⟩
      rintro node hnode
      obtain rfl := Option.some.inj hnode
      exact mem_liveNodes.2 ⟨hlt, descend_isLive hfinal hlive⟩
  case isFalse => exact ⟨none, rfl, fun node hnode => nomatch hnode⟩

theorem winners_none (index : HNSWIndex F) :
    winners index none = (liveNodes index).take efSearch := by
  simp [winners, liveNodes]

/-- The node of the walk comes last, if the other live nodes leave room for it. -/
theorem winners_some {node : ℕ} (hnode : node ∈ liveNodes index) :
    winners index (some node) =
      if (liveNodes index).length ≤ efSearch then (liveNodes index).erase node ++ [node]
      else ((liveNodes index).erase node).take efSearch := by
  have hothers : (range index.size).filter
        (fun other => isLive index other && some node ≠ some other) =
      (liveNodes index).erase node := by
    rw [(nodup_liveNodes index).erase_eq_filter, liveNodes, filter_filter]
    refine filter_congr fun other _ => ?_
    by_cases hsame : other = node
    · simp [hsame]
    · simp [hsame, Ne.symm hsame]
  have hlength := length_erase_of_mem hnode
  have hpos := length_pos_of_mem hnode
  rw [winners, hothers]
  simp only [(mem_liveNodes.1 hnode).2, Bool.true_and, length_take, decide_eq_true_eq]
  by_cases hfit : (liveNodes index).length ≤ efSearch
  · rw [if_pos hfit, if_pos (by omega), take_of_length_le (by omega)]
  · rw [if_neg hfit, if_neg (by omega)]

/-- If the live nodes fit, all of them are candidates. -/
theorem winners_perm {curr : Option ℕ} (hcurr : ∀ node, curr = some node → node ∈ liveNodes index)
    (hfit : (liveNodes index).length ≤ efSearch) : (winners index curr).Perm (liveNodes index) := by
  cases curr with
  | none => rw [winners_none, take_of_length_le hfit]
  | some node =>
      rw [winners_some (hcurr node rfl), if_pos hfit]
      exact (perm_append_singleton _ _).trans (perm_cons_erase (hcurr node rfl)).symm

/-! ## Results -/

/-- A search of a chained index sorts its candidates. -/
theorem searchHnsw_eq (closer : D → D → Bool) (dist : SearchDistances D)
    (hchained : index.Chained) :
    ∃ curr, (∀ node, curr = some node → node ∈ liveNodes index) ∧
      (0 < index.size → descent index closer dist = some curr) ∧
      ∀ k, searchHnsw index closer dist k =
        some ((exchangeSort closer (winners index curr).length
          ((winners index curr).map fun node => (node, dist.scan node))).take k) := by
  have hentry := hchained.layered.entry_eq
  rcases Nat.eq_zero_or_pos index.size with hempty | hsize
  · refine ⟨none, by simp, by simp [hempty], fun k => ?_⟩
    simp [searchHnsw, hempty, winners, exchangeSort]
  · obtain ⟨curr, hcurr, hlive⟩ := descent_spec closer dist hchained hsize
    refine ⟨curr, hlive, fun _ => hcurr, fun k => ?_⟩
    have hstored : ¬(index.size = 0 ∨ index.size ≤ index.enterpointId) := by omega
    simp [searchHnsw, hstored, hcurr]

section Interface

variable [CFloat F]

/-- The distances that `kvs_vector_search` lets the search compute. -/
def searchDistances (chance : VectorChance F) (index : HNSWIndex F) (query : List F) :
    SearchDistances F where
  start := fun level other =>
    euclideanDistance (chance.beyond (2 * level) other) query (vectorAt index other) maxDim
  along := fun level other =>
    euclideanDistance (chance.beyond (2 * level + 1) other) query (vectorAt index other)
      (vectorAt index other).length
  scan := fun other =>
    euclideanDistance (chance.beyond 0 other) query (vectorAt index other)
      (vectorAt index other).length

/-- A search that gets its memory, with a query as long as the first live vector. -/
theorem kvsVectorSearch_eq {chance : VectorChance F} {vec : KvsVector F} (k : ℕ) (key text : CStr)
    (hmemory : chance.alloc 0 = true) {first : ℕ}
    (hfirst : (liveNodes vec.index).head? = some first)
    (hdim : (vectorAt vec.index first).length ≠ 0) :
    kvsVectorSearch chance vec k (some key) (some text) =
      (searchHnsw vec.index CFloat.lt (searchDistances chance vec.index
        (parseQuery (vectorAt vec.index first).length text)) k).map fun found =>
          ((found.length : ℤ), found) := by
  have hfind : (range vec.index.size).find? (isLive vec.index) = some first :=
    head?_filter.symm.trans hfirst
  have hsize : vec.index.size ≠ 0 := by
    have := (mem_liveNodes.1 (mem_of_mem_head? hfirst)).1
    omega
  simp only [kvsVectorSearch, hsize, hfind, hdim, hmemory, if_false, Bool.not_true,
    Bool.false_eq_true]
  cases hsearch : searchHnsw vec.index CFloat.lt (searchDistances chance vec.index
      (parseQuery (vectorAt vec.index first).length text)) k with
  | none => simp only [searchDistances] at hsearch; rw [hsearch]; rfl
  | some found => simp only [searchDistances] at hsearch; rw [hsearch]; rfl

end Interface

section Nearest

variable [LinearOrder D]

/-- The comparison of distances. -/
def nearer (first second : D) : Bool :=
  decide (first < second)

/-- Some of the nearest live nodes, as many as asked for and with their distances. -/
structure Nearest (index : HNSWIndex F) (dist : ℕ → D) (k : ℕ) (found : List (ℕ × D)) : Prop where
  length_eq : found.length = min k (liveNodes index).length
  nodup : (found.map Prod.fst).Nodup
  live : ∀ item ∈ found, item.1 < index.size ∧ isLive index item.1 = true ∧ item.2 = dist item.1
  sorted : found.Pairwise fun first second => first.2 ≤ second.2
  closest : ∀ node < index.size, isLive index node = true → node ∉ found.map Prod.fst →
    ∀ item ∈ found, item.2 ≤ dist node

theorem orders_nearer : Orders (nearer (D := D)) fun _ => True where
  asymm := by
    intro first second _ _ hlt
    simpa [nearer] using (of_decide_eq_true hlt).le
  trans := by
    intro first second third _ _ _ hfirst hsecond
    simp only [nearer, decide_eq_false_iff_not, not_lt] at hfirst hsecond ⊢
    exact hfirst.trans hsecond

/-- The candidates in the order of their distances. -/
theorem sorted_winners (index : HNSWIndex F) (curr : Option ℕ) (dist : SearchDistances D) :
    ∃ sorted, exchangeSort nearer (winners index curr).length
        ((winners index curr).map fun node => (node, dist.scan node)) = sorted ∧
      (sorted.map Prod.fst).Perm (winners index curr) ∧
      (∀ item ∈ sorted, item.2 = dist.scan item.1) ∧
      sorted.Pairwise fun first second => first.2 ≤ second.2 := by
  let items := (winners index curr).map fun node => (node, dist.scan node)
  have hperm := exchangeSort_perm nearer (winners index curr).length items
  refine ⟨_, rfl, ?_, fun item hitem => ?_, ?_⟩
  · have hmap := hperm.map Prod.fst
    have hids : items.map Prod.fst = winners index curr := by simp [items, Function.comp_def]
    rwa [hids] at hmap
  · obtain ⟨node, -, rfl⟩ := mem_map.1 (hperm.subset hitem)
    rfl
  · refine (exchangeSort_sorted orders_nearer (fun _ _ => trivial) (by simp)).imp ?_
    intro first second hnot
    simpa [nearer] using hnot

/-- The first of a sorted list of candidates are nearest if all live nodes are
candidates. -/
theorem nearest_take {dist : ℕ → D} {sorted : List (ℕ × D)}
    (hperm : (sorted.map Prod.fst).Perm (liveNodes index))
    (hdist : ∀ item ∈ sorted, item.2 = dist item.1)
    (hsorted : sorted.Pairwise fun first second => first.2 ≤ second.2) (k : ℕ) :
    Nearest index dist k (sorted.take k) := by
  have hlength : sorted.length = (liveNodes index).length := by
    simpa using hperm.length_eq
  refine ⟨by rw [length_take, hlength], ?_, fun item hitem => ?_, hsorted.take, ?_⟩
  · rw [map_take]
    exact (hperm.nodup_iff.2 (nodup_liveNodes index)).take
  · have hmem := mem_of_mem_take hitem
    obtain ⟨hlt, hlive⟩ := mem_liveNodes.1 (hperm.subset (mem_map_of_mem hmem))
    exact ⟨hlt, hlive, hdist item hmem⟩
  · intro node hlt hlive homitted item hitem
    obtain ⟨other, hother, rfl⟩ := mem_map.1 (hperm.symm.subset (mem_liveNodes.2 ⟨hlt, hlive⟩))
    rw [← take_append_drop k sorted, mem_append] at hother
    rw [← take_append_drop k sorted, pairwise_append] at hsorted
    have hbehind : other ∈ sorted.drop k := hother.resolve_left fun hmem =>
      homitted (mem_map_of_mem hmem)
    rw [← hdist other (mem_of_mem_drop hbehind)]
    exact hsorted.2.2 item hitem other hbehind

/-! ## Runs -/

/-- Every node carries its place as its identifier and, if no copy of a key has failed, a
key. -/
def Labelled (copied : Prop) (node : ℕ) (contents : HNSWNode F) : Prop :=
  contents.id = node ∧ (copied → contents.key ≠ none)

/-- The copy of the key succeeds. -/
def Update.CopiesKey : Update F → Prop
  | .set chance _ _ => chance.alloc 3 = true
  | .del _ => True

variable [CFloat F]

omit [LinearOrder D] in
theorem Update.node_key {update : Update F} {size : ℕ} {node : HNSWNode F}
    (hnode : update.node size = some node) (hcopies : update.CopiesKey) : node.key ≠ none := by
  obtain ⟨chance, key, value, name, rfl, -, -, -, hkey⟩ := update.node_fresh hnode
  have hcopied : chance.alloc 3 = true := hcopies
  rw [hkey, if_pos hcopied]
  exact Option.some_ne_none name

omit [LinearOrder D] in
/-- Every run of updates has a result, and it is a chained and labelled index. -/
theorem run_updates (updates : List (Update F)) :
    ∃ vec codes, run updateStep (kvsVectorCreate F) updates = some (vec, codes) ∧
      vec.index.Chained ∧
      Everywhere (Labelled (∀ update ∈ updates, update.CopiesKey)) vec.index := by
  let copied := ∀ update ∈ updates, update.CopiesKey
  have hstep : ∀ (vec : KvsVector F) update,
      vec.index.Chained ∧ Everywhere (Labelled copied) vec.index → (copied → update.CopiesKey) →
        ∃ after code, updateStep vec update = some (after, code) ∧
          (after.index.Chained ∧ Everywhere (Labelled copied) after.index) ∧ True := by
    rintro vec update ⟨hchained, hlabelled⟩ hcopies
    have hnew : ∀ node, update.node vec.index.size = some node →
        Labelled copied vec.index.size { node with id := vec.index.size } := by
      intro node hnode
      have hkey : copied → node.key ≠ none := fun hall => update.node_key hnode (hcopies hall)
      exact ⟨rfl, hkey⟩
    obtain ⟨after, code, hstep, hafter, hkept, -⟩ := updateStep_kept hchained
      (fun _ _ _ _ => Iff.rfl) hlabelled update hnew
    exact ⟨after, code, hstep, ⟨hafter, hkept⟩, trivial⟩
  have hstart : (kvsVectorCreate F).index.Chained ∧
      Everywhere (Labelled copied) (kvsVectorCreate F).index :=
    ⟨chained_create, fun node hnode => absurd hnode (Nat.not_lt_zero node)⟩
  obtain ⟨⟨vec, codes, hrun, hfinal⟩, -⟩ := run_invariant _ hstep hstart
    (along_of_forall (fun _ update hupdate hall => hall update hupdate) _)
  exact ⟨vec, codes, hrun, hfinal⟩

/-- In every reachable index whose live nodes fit, a search finds the nearest ones, and
their identifiers lead back to their keys. -/
theorem search_exact (updates : List (Update F)) :
    ∃ vec codes, run updateStep (kvsVectorCreate F) updates = some (vec, codes) ∧
      ((liveNodes vec.index).length ≤ efSearch → ∀ (dist : SearchDistances D) (k : ℕ),
        ∃ found, searchHnsw vec.index nearer dist k = some found ∧
          Nearest vec.index dist.scan k found ∧
          ∀ item ∈ found, ∃ contents, vec.index.nodes item.1 = some contents ∧
            contents.id = item.1 ∧ contents.isDeleted = false ∧
            kvsVectorGetKeyById vec item.1 = contents.key ∧
            ((∀ update ∈ updates, update.CopiesKey) → contents.key ≠ none)) := by
  obtain ⟨vec, codes, hrun, hchained, hlabelled⟩ := run_updates updates
  refine ⟨vec, codes, hrun, fun hfit dist k => ?_⟩
  obtain ⟨curr, hcurr, -, hsearch⟩ := searchHnsw_eq nearer dist hchained
  obtain ⟨sorted, hsort, hperm, hdist, hsorted⟩ := sorted_winners vec.index curr dist
  have hnearest := nearest_take (hperm.trans (winners_perm hcurr hfit)) hdist hsorted k
  refine ⟨_, by rw [hsearch, hsort], hnearest, fun item hitem => ?_⟩
  obtain ⟨hlt, hlive, -⟩ := hnearest.live item hitem
  obtain ⟨contents, hcontents, -⟩ := hchained.layered.stored item.1 hlt
  obtain ⟨hid, hkey⟩ := hlabelled item.1 hlt contents hcontents
  have hundeleted : contents.isDeleted = false := by simpa [isLive, hcontents] using hlive
  exact ⟨contents, hcontents, hid, hundeleted, by
    simp [kvsVectorGetKeyById, hlt, hcontents, hundeleted], hkey⟩

omit [CFloat F] in
/-- The first result is a nearest candidate. -/
theorem searchHnsw_first {dist : SearchDistances D} (hchained : index.Chained)
    (hsize : 0 < index.size) {node : ℕ}
    (hdescent : descent index nearer dist = some (some node)) {k : ℕ} (hk : 1 ≤ k) :
    node ∈ liveNodes index ∧ ∃ first rest,
      searchHnsw index nearer dist k = some (first :: rest) ∧
      first.1 ∈ winners index (some node) ∧ first.2 = dist.scan first.1 ∧
      ∀ other ∈ winners index (some node), first.2 ≤ dist.scan other := by
  obtain ⟨curr, hcurr, hthere, hsearch⟩ := searchHnsw_eq nearer dist hchained
  obtain rfl : curr = some node := Option.some.inj ((hthere hsize).symm.trans hdescent)
  have hnode := hcurr node rfl
  obtain ⟨sorted, hsort, hperm, hdist, hsorted⟩ := sorted_winners index (some node) dist
  have hnonempty : winners index (some node) ≠ [] := by
    rw [winners_some hnode]
    split
    case isTrue => simp
    case isFalse hmany =>
        have hlength := length_erase_of_mem hnode
        simp only [efSearch] at hmany ⊢
        refine ne_nil_of_length_pos ?_
        rw [length_take]
        omega
  obtain ⟨k, rfl⟩ : ∃ less, k = less + 1 := ⟨k - 1, by omega⟩
  cases sorted with
  | nil => exact absurd hperm.symm.eq_nil hnonempty
  | cons first tail =>
      refine ⟨hnode, first, tail.take k, by rw [hsearch, hsort, take_succ_cons], ?_,
        hdist first mem_cons_self, fun other hother => ?_⟩
      · exact hperm.subset (by simp)
      · obtain ⟨item, hitem, rfl⟩ := mem_map.1 (hperm.symm.subset hother)
        rw [← hdist item hitem]
        rcases mem_cons.1 hitem with rfl | htail
        · exact le_rfl
        · exact (pairwise_cons.1 hsorted).1 item htail

/-- When the walk down the layers ends at a node, the first result is at least as near if
the live nodes fit, and otherwise exactly if one of the other live nodes that are scanned
is. -/
theorem descent_kept_iff (updates : List (Update F)) :
    ∃ vec codes, run updateStep (kvsVectorCreate F) updates = some (vec, codes) ∧
      ∀ (dist : SearchDistances D) (k node : ℕ), 0 < vec.index.size → 1 ≤ k →
        descent vec.index nearer dist = some (some node) →
        ∃ first rest, searchHnsw vec.index nearer dist k = some (first :: rest) ∧
          (first.2 ≤ dist.scan node ↔
            (liveNodes vec.index).length ≤ efSearch ∨
              ∃ other ∈ ((liveNodes vec.index).erase node).take efSearch,
                dist.scan other ≤ dist.scan node) := by
  obtain ⟨vec, codes, hrun, hchained, -⟩ := run_updates updates
  refine ⟨vec, codes, hrun, fun dist k node hsize hk hdescent => ?_⟩
  obtain ⟨hnode, first, rest, hsearch, hfirst, hdist, hleast⟩ :=
    searchHnsw_first hchained hsize hdescent hk
  refine ⟨first, rest, hsearch, ?_⟩
  rw [winners_some hnode] at hfirst hleast
  by_cases hfit : (liveNodes vec.index).length ≤ efSearch
  · rw [if_pos hfit] at hleast
    exact ⟨fun _ => .inl hfit, fun _ => hleast node (by simp)⟩
  · rw [if_neg hfit] at hfirst hleast
    constructor
    · exact fun hnear => .inr ⟨first.1, hfirst, hdist ▸ hnear⟩
    · rintro (hfits | ⟨other, hother, hnear⟩)
      · exact absurd hfits hfit
      · exact (hleast other hother).trans hnear

end Nearest

/-! ## A full array of candidates -/

/-- Vectors under different keys, all on the lowest level. -/
def distinctSets (count : ℕ) : List (Update Float32) :=
  (range count).map fun index => .set quietChance (some (unaryKey index)) (some oneVector)

theorem run_distinctSets {count : ℕ} (hcount : count ≤ maxElements) :
    ∃ vec codes, run updateStep (kvsVectorCreate Float32) (distinctSets count) =
        some (vec, codes) ∧
      vec.Tallied ∧ vec.index.size = count ∧ Everywhere (fun _ node => node.level = 0) vec.index ∧
      (rows vec.index).map Row.key = (range count).map unaryKey := by
  induction count with
  | zero =>
      exact ⟨_, [], rfl, tallied_create, rfl, fun node hnode => absurd hnode (Nat.not_lt_zero node),
        rfl⟩
  | succ count ih =>
      obtain ⟨vec, codes, hrun, htallied, hsize, hlevels, hkeys⟩ := ih (by omega)
      obtain ⟨vector, final, hset, hfinal, hgrown, hrows⟩ :=
        oneVector_wellFormed.set_rows (rfl : quietChance.alloc = allocOk) htallied (by omega)
          (unaryKey count)
      have hfresh : others vec.index (unaryKey count) = rows vec.index := by
        refine filter_eq_self.2 fun row hrow => ?_
        have hkey : row.key ∈ (range count).map unaryKey := hkeys ▸ mem_map_of_mem hrow
        obtain ⟨index, hindex, hkey⟩ := mem_map.1 hkey
        simp only [ne_eq, decide_eq_true_eq, ← hkey]
        exact fun heq => (mem_range.1 hindex).ne (unaryKey_injective heq)
      have hstep : run updateStep vec
          [.set quietChance (some (unaryKey count)) (some oneVector)] = some (final, [0]) := by
        simp [run, updateStep, hset]
      refine ⟨final, codes ++ [0], ?_, hfinal, by omega, ?_, ?_⟩
      · rw [distinctSets, range_succ, map_append, ← distinctSets, map_singleton, run_append hrun,
          hstep]
        rfl
      · have hnew : ∀ node, (Update.set quietChance (some (unaryKey count))
            (some oneVector)).node vec.index.size = some node → node.level = 0 := by
          intro node hnode
          obtain ⟨chance, _, _, _, heq, -, hlevel, -⟩ := Update.node_fresh hnode
          obtain rfl : quietChance = chance := by
            injection heq
          exact hlevel
        obtain ⟨after, code, hafter, -, hkept, -⟩ := updateStep_kept htallied.chained
          (fun _ _ _ _ => Iff.rfl) hlevels _ hnew
        obtain ⟨rfl, -⟩ := Prod.mk.inj (Option.some.inj (hafter.symm.trans hset))
        exact hkept
      · rw [hrows, hfresh, map_append, hkeys, range_succ, map_append]
        rfl

/-- All of these vectors are live. -/
theorem liveNodes_distinctSets {vec : KvsVector Float32} {count : ℕ} (htallied : vec.Tallied)
    (hsize : vec.index.size = count)
    (hkeys : (rows vec.index).map Row.key = (range count).map unaryKey) :
    liveNodes vec.index = range count := by
  have hlength : (rows vec.index).length = vec.index.size := by
    simpa [hsize] using congrArg length hkeys
  rw [liveNodes, hsize]
  refine filter_eq_self.2 fun node hnode => ?_
  rw [htallied.named node (hsize ▸ mem_range.1 hnode)]
  rw [rows, rowsBelow, length_filterMap_eq_countP, hsize] at hlength
  have hall := countP_eq_length.1 (hlength.trans length_range.symm)
  exact hall node hnode

/-- With 129 vectors the walk ends at the first one.  The scan fills the array of candidates
with the others, and a search that the first vector is nearest to finds another one. -/
theorem nearest_vector_dropped :
    ∃ vec codes, run updateStep (kvsVectorCreate Float32) (distinctSets 129) =
        some (vec, codes) ∧
      let dist : SearchDistances ℕ :=
        { start := fun _ node => node, along := fun _ node => node, scan := fun node => node }
      descent vec.index nearer dist = some (some 0) ∧ isLive vec.index 0 = true ∧
        ∃ first rest, searchHnsw vec.index nearer dist 1 = some (first :: rest) ∧
          dist.scan 0 < first.2 := by
  obtain ⟨vec, codes, hrun, htallied, hsize, hlevels, hkeys⟩ :=
    run_distinctSets (by decide : 129 ≤ maxElements)
  have hlive := liveNodes_distinctSets htallied hsize hkeys
  have hentry : isLive vec.index 0 = true :=
    (mem_liveNodes.1 (hlive ▸ mem_range.2 (by omega : 0 < 129))).2
  have htop : vec.index.maxLevel = 0 := by
    rcases htallied.chained.top with ⟨-, hzero⟩ | ⟨node, hnode, contents, hcontents, hlevel⟩
    · exact hzero
    · rw [hlevels node hnode contents hcontents] at hlevel
      omega
  refine ⟨vec, codes, hrun, ?_⟩
  intro dist
  have hdescent : descent vec.index nearer dist = some (some 0) := by
    rw [descent, htallied.chained.layered.entry_eq, if_pos hentry, htop]
    rfl
  obtain ⟨hnode, first, rest, hsearch, hfirst, hdist, -⟩ :=
    searchHnsw_first htallied.chained (by omega) hdescent le_rfl
  refine ⟨hdescent, hentry, first, rest, hsearch, ?_⟩
  rw [winners_some hnode, hlive, if_neg (by simp [efSearch])] at hfirst
  have hother : first.1 ≠ 0 := fun hzero => by
    have hmem := mem_of_mem_take hfirst
    rw [hzero] at hmem
    exact (nodup_range.mem_erase_iff.1 hmem).1 rfl
  rw [hdist]
  exact Nat.pos_of_ne_zero hother

end LiteMultiKV.Vector
