import LiteMultiKV.Engine.Skip

/-!
# The skip list as a dictionary

The nodes in key order form the level-0 chain, and the chain of every level is
the sublist of the nodes that are tall enough.  The search stops, on each
level, at the last tall node in front of the key.
-/

namespace LiteMultiKV.Skip

open List LiteMultiKV.Chain CText Dictionary Memory

/-- The nodes of a sequence that have a forward pointer at level `i`. -/
def tall (skip : KvsSkip) (i : ℕ) (nodes : List ℕ) : List ℕ :=
  nodes.filter fun node => i < (skip.node node).forward.length

/-- The list holds the nodes `order`, ascending, on linked levels. -/
structure Shape (skip : KvsSkip) (order : List ℕ) : Prop where
  nodup : (skip.header :: order).Nodup
  lt_next : ∀ node ∈ skip.header :: order, node < skip.next
  header_length : (skip.node skip.header).forward.length = maxLevel + 1
  positive : ∀ node ∈ order, 0 < (skip.node node).forward.length
  bounded : ∀ node ∈ order, (skip.node node).forward.length ≤ skip.level + 1
  level_le : skip.level ≤ maxLevel
  linked : ∀ i ≤ maxLevel, Linked (forwardAt skip i) skip.header (tall skip i order)
  sorted : order.Pairwise fun left right => (skip.node left).key < (skip.node right).key

def Valid (skip : KvsSkip) : Prop :=
  ∃ order, Shape skip order

/-- The entry a node holds. -/
def nodeEntry (skip : KvsSkip) (node : ℕ) : Σ _ : CStr, StrPtr :=
  entry (skip.node node).key (skip.node node).value

variable {skip : KvsSkip} {order front back : List ℕ} {key : CStr}

theorem tall_append (skip : KvsSkip) (i : ℕ) (front back : List ℕ) :
    tall skip i (front ++ back) = tall skip i front ++ tall skip i back :=
  filter_append ..

theorem tall_sublist (skip : KvsSkip) (i : ℕ) (nodes : List ℕ) :
    tall skip i nodes <+ nodes :=
  filter_sublist

theorem tall_zero (hpositive : ∀ node ∈ order, 0 < (skip.node node).forward.length) :
    tall skip 0 order = order :=
  filter_eq_self.2 fun node hnode => by simpa using hpositive node hnode

/-- The nodes of level `i + 1` are among those of level `i`, so the last of them
in front of the key is a node of level `i`. -/
theorem tall_succ_split (skip : KvsSkip) (start i : ℕ) (nodes : List ℕ) :
    ∃ reached rest, tall skip i nodes = reached ++ rest ∧
      lastOf start reached = lastOf start (tall skip (i + 1) nodes) := by
  rcases mem_cons.1 (lastOf_mem start (tall skip (i + 1) nodes)) with hstart | hmem
  · exact ⟨[], _, rfl, hstart.symm⟩
  · have hlower : lastOf start (tall skip (i + 1) nodes) ∈ tall skip i nodes := by
      simp only [tall, mem_filter, decide_eq_true_eq] at hmem ⊢
      exact ⟨hmem.1, by omega⟩
    obtain ⟨reached, rest, hsplit⟩ := append_of_mem hlower
    refine ⟨reached ++ [lastOf start (tall skip (i + 1) nodes)], rest, by simp [hsplit], ?_⟩
    simp [lastOf_append]

theorem Shape.length_lt (hshape : Shape skip order) : order.length < skip.next := by
  have hsubset : skip.header :: order ⊆ range skip.next := fun node hnode =>
    mem_range.2 (hshape.lt_next node hnode)
  have hle := (hshape.nodup.subperm hsubset).length_le
  rwa [length_cons, length_range] at hle

/-- Every key cuts the sequence of nodes in two. -/
theorem Shape.split (hshape : Shape skip order) (key : CStr) :
    ∃ front back, order = front ++ back ∧ (∀ node ∈ front, (skip.node node).key < key) ∧
      ∀ node ∈ back, key ≤ (skip.node node).key := by
  have hsorted := hshape.sorted
  clear hshape
  induction order with
  | nil => exact ⟨[], [], rfl, by simp, by simp⟩
  | cons node order ih =>
      obtain ⟨hnode, hrest⟩ := pairwise_cons.1 hsorted
      by_cases hlt : (skip.node node).key < key
      · obtain ⟨front, back, rfl, hfront, hback⟩ := ih hrest
        exact ⟨node :: front, back, rfl, forall_mem_cons.2 ⟨hlt, hfront⟩, hback⟩
      · refine ⟨[], node :: order, rfl, by simp, forall_mem_cons.2 ⟨not_lt.1 hlt, ?_⟩⟩
        exact fun other hother => (not_lt.1 hlt).trans (hnode other hother).le

section Search

variable (hshape : Shape skip (front ++ back))
  (hfront : ∀ node ∈ front, (skip.node node).key < key)
  (hback : ∀ node ∈ back, key ≤ (skip.node node).key)

include hshape hfront hback

/-- One level of the search, started at a node that the level above reached. -/
theorem advance_eq {i : ℕ} (hi : i ≤ maxLevel) {reached rest : List ℕ}
    (hsplit : tall skip i front = reached ++ rest) :
    advance skip key i (lastOf skip.header reached) =
      some (lastOf skip.header (tall skip i front)) := by
  have hlinked := hshape.linked i hi
  rw [tall_append, hsplit, append_assoc] at hlinked
  have hrest : ∀ node ∈ rest, node ∈ front := fun node hnode =>
    (tall_sublist skip i front).subset (hsplit ▸ mem_append_right _ hnode)
  have hlength : rest.length < skip.next := by
    have htall := (tall_sublist skip i front).length_le
    have hall := hshape.length_lt
    rw [hsplit] at htall
    simp only [length_append] at htall hall
    omega
  rw [advance, skipWhile_eq hlinked.drop ?_ ?_ hlength, hsplit, lastOf_append]
  · intro node hnode
    simpa [strcmp_neg_iff] using hfront node (hrest node hnode)
  · intro node hnode
    have hmem := (tall_sublist skip i back).subset (mem_of_mem_head? hnode)
    simpa [strcmp_neg_iff] using hback node hmem

/-- The whole search. -/
theorem descend_eq {i : ℕ} (hi : i ≤ maxLevel) {reached rest : List ℕ}
    (hsplit : tall skip i front = reached ++ rest) :
    descend skip key i (lastOf skip.header reached) =
      some (lastOf skip.header front,
        (range (i + 1)).map fun j => lastOf skip.header (tall skip j front)) := by
  induction i generalizing reached rest with
  | zero =>
      have hadvance := advance_eq hshape hfront hback hi hsplit
      have hall : tall skip 0 front = front :=
        tall_zero fun node hnode => hshape.positive node (mem_append_left _ hnode)
      simp [descend, hadvance, hall]
  | succ i ih =>
      have hadvance := advance_eq hshape hfront hback hi hsplit
      obtain ⟨lower, remaining, hlower, hlast⟩ := tall_succ_split skip skip.header i front
      have hdescend := ih (by omega) hlower
      rw [hlast] at hdescend
      simp [descend, hadvance, hdescend, range_succ]

theorem search_eq :
    descend skip key skip.level skip.header =
      some (lastOf skip.header front,
        (range (skip.level + 1)).map fun j => lastOf skip.header (tall skip j front)) :=
  descend_eq hshape hfront hback hshape.level_le (nil_append (tall skip skip.level front)).symm

end Search

/-- The node behind the last one in front of the key. -/
theorem lookup_eq (hshape : Shape skip (front ++ back)) (key : CStr) :
    lookup skip key (lastOf skip.header front) =
      some (back.head?.filter fun node => (skip.node node).key = key) := by
  have hlinked := hshape.linked 0 (Nat.zero_le _)
  rw [tall_zero hshape.positive] at hlinked
  rw [lookup, hlinked.drop.read_start]
  cases back with
  | nil => rfl
  | cons node back =>
      by_cases hkey : (skip.node node).key = key <;>
        simp [hkey, strcmp_eq_zero_iff, Option.filter]

theorem entriesFrom_eq {start fuel : ℕ} {nodes : List ℕ}
    (hlinked : Linked (forwardAt skip 0) start nodes) (hfuel : nodes.length < fuel) :
    entriesFrom skip fuel ((forwardAt skip 0 start).getD none) =
      nodes.map (nodeEntry skip) := by
  induction nodes generalizing start fuel with
  | nil =>
      obtain ⟨fuel, rfl⟩ : ∃ less, fuel = less + 1 := ⟨fuel - 1, by omega⟩
      simp [hlinked.read_start, entriesFrom]
  | cons node nodes ih =>
      obtain ⟨fuel, rfl⟩ : ∃ less, fuel = less + 1 := ⟨fuel - 1, by omega⟩
      rw [length_cons] at hfuel
      simp [hlinked.read_start, entriesFrom, ih hlinked.2 (by omega : _ < fuel), nodeEntry]

theorem Shape.entries_eq (hshape : Shape skip order) :
    entries skip = order.map (nodeEntry skip) := by
  have hlinked := hshape.linked 0 (Nat.zero_le _)
  rw [tall_zero hshape.positive] at hlinked
  exact entriesFrom_eq hlinked hshape.length_lt

theorem Shape.entries_sorted (hshape : Shape skip order) : SortedKeys (entries skip) := by
  rw [hshape.entries_eq, SortedKeys, pairwise_map]
  exact hshape.sorted

/-- Where the search for a key ends: in front of a gap, or of the node with the
key. -/
theorem Shape.search_cases (hshape : Shape skip order) (key : CStr) :
    ∃ front back, order = front ++ back ∧
      (∀ node ∈ front, (skip.node node).key < key) ∧
      descend skip key skip.level skip.header =
        some (lastOf skip.header front,
          (range (skip.level + 1)).map fun j => lastOf skip.header (tall skip j front)) ∧
      ((lookup skip key (lastOf skip.header front) = some none ∧
          (∀ node ∈ back, key < (skip.node node).key) ∧ denote (entries skip) key = none) ∨
        ∃ node rest, back = node :: rest ∧ (skip.node node).key = key ∧
          lookup skip key (lastOf skip.header front) = some (some node) ∧
          denote (entries skip) key = some (skip.node node).value) := by
  obtain ⟨front, back, rfl, hfront, hback⟩ := hshape.split key
  refine ⟨front, back, rfl, hfront, search_eq hshape hfront hback, ?_⟩
  have hlookup := lookup_eq hshape key
  cases back with
  | nil =>
      refine .inl ⟨hlookup, by simp, ?_⟩
      rw [hshape.entries_eq, map_append]
      exact denote_eq_none_of_between (forall_mem_map.2 hfront) (by simp)
  | cons node rest =>
      have hsorted := (pairwise_append.1 hshape.sorted).2.1
      rw [pairwise_cons] at hsorted
      by_cases hkey : (skip.node node).key = key
      · refine .inr ⟨node, rest, rfl, hkey, by simp [hlookup, hkey, Option.filter], ?_⟩
        rw [denote_eq_some_iff hshape.entries_sorted.nodupKeys, hshape.entries_eq]
        exact mem_map.2 ⟨node, by simp, by rw [nodeEntry, hkey]⟩
      · have hlt : key < (skip.node node).key :=
          lt_of_le_of_ne (hback node mem_cons_self) (Ne.symm hkey)
        have hbehind : ∀ other ∈ node :: rest, key < (skip.node other).key :=
          forall_mem_cons.2 ⟨hlt, fun other hother => hlt.trans (hsorted.1 other hother)⟩
        refine .inl ⟨by simp [hlookup, hkey, Option.filter], hbehind, ?_⟩
        rw [hshape.entries_eq, map_append]
        exact denote_eq_none_of_between (forall_mem_map.2 hfront) (forall_mem_map.2 hbehind)

theorem Shape.search_absent (hshape : Shape skip order)
    (habsent : denote (entries skip) key = none) :
    ∃ front back, order = front ++ back ∧
      (∀ node ∈ front, (skip.node node).key < key) ∧
      (∀ node ∈ back, key < (skip.node node).key) ∧
      descend skip key skip.level skip.header =
        some (lastOf skip.header front,
          (range (skip.level + 1)).map fun j => lastOf skip.header (tall skip j front)) ∧
      lookup skip key (lastOf skip.header front) = some none := by
  obtain ⟨front, back, horder, hfront, hdescend, hcases⟩ := hshape.search_cases key
  rcases hcases with ⟨hlookup, hback, _⟩ | ⟨node, rest, _, _, _, hpresent⟩
  · exact ⟨front, back, horder, hfront, hback, hdescend, hlookup⟩
  · rw [habsent] at hpresent
    cases hpresent

theorem Shape.search_present (hshape : Shape skip order) {value : StrPtr}
    (hpresent : denote (entries skip) key = some value) :
    ∃ front node rest, order = front ++ node :: rest ∧
      (skip.node node).key = key ∧ nodeEntry skip node = entry key value ∧
      descend skip key skip.level skip.header =
        some (lastOf skip.header front,
          (range (skip.level + 1)).map fun j => lastOf skip.header (tall skip j front)) ∧
      lookup skip key (lastOf skip.header front) = some (some node) := by
  obtain ⟨front, back, rfl, _, hdescend, hcases⟩ := hshape.search_cases key
  rcases hcases with ⟨_, _, habsent⟩ | ⟨node, rest, rfl, hkey, hlookup, hstored⟩
  · rw [habsent] at hpresent
    cases hpresent
  · rw [hstored, Option.some.injEq] at hpresent
    exact ⟨front, node, rest, rfl, hkey, by rw [nodeEntry, hkey, hpresent], hdescend, hlookup⟩

/-! ## Writing forward pointers -/

/-- Two memories that differ in forward pointers only. -/
structure Rewired (before after : KvsSkip) : Prop where
  header : after.header = before.header
  level : after.level = before.level
  next : after.next = before.next
  key : ∀ node, (after.node node).key = (before.node node).key
  value : ∀ node, (after.node node).value = (before.node node).value
  length : ∀ node, (after.node node).forward.length = (before.node node).forward.length

theorem Rewired.refl (skip : KvsSkip) : Rewired skip skip :=
  ⟨rfl, rfl, rfl, fun _ => rfl, fun _ => rfl, fun _ => rfl⟩

theorem Rewired.trans {first second third : KvsSkip} (hfirst : Rewired first second)
    (hsecond : Rewired second third) : Rewired first third where
  header := hsecond.header.trans hfirst.header
  level := hsecond.level.trans hfirst.level
  next := hsecond.next.trans hfirst.next
  key := fun node => (hsecond.key node).trans (hfirst.key node)
  value := fun node => (hsecond.value node).trans (hfirst.value node)
  length := fun node => (hsecond.length node).trans (hfirst.length node)

theorem Rewired.tall_eq {after : KvsSkip} (hrewired : Rewired skip after) (i : ℕ)
    (nodes : List ℕ) : tall after i nodes = tall skip i nodes := by
  simp only [tall, hrewired.length]

theorem Rewired.nodeEntry_eq {after : KvsSkip} (hrewired : Rewired skip after) :
    nodeEntry after = nodeEntry skip := by
  funext node
  rw [nodeEntry, hrewired.key, hrewired.value, nodeEntry]

theorem setForward_spec (skip : KvsSkip) (i p : ℕ) (target : Option ℕ)
    (hlength : i < (skip.node p).forward.length) :
    ∃ after, setForward skip i p target = some after ∧ Rewired skip after ∧
      ∀ j q, forwardAt after j q = if j = i ∧ q = p then some target else forwardAt skip j q := by
  refine ⟨_, if_pos hlength, ⟨rfl, rfl, rfl, ?_, ?_, ?_⟩, ?_⟩
  · intro node
    by_cases hnode : node = p <;> simp [hnode]
  · intro node
    by_cases hnode : node = p <;> simp [hnode]
  · intro node
    by_cases hnode : node = p <;> simp [hnode]
  · intro j q
    by_cases hq : q = p
    · subst hq
      by_cases hj : j = i
      · subst hj
        simp [forwardAt, hlength]
      · simp [forwardAt, hj, getElem?_set_ne (Ne.symm hj)]
    · simp [forwardAt, hq]

/-- Linking a node into its levels redirects the pointers in front of it. -/
theorem linkLevels_spec {update : List ℕ} {node count : ℕ} {previous : ℕ → ℕ}
    (hupdate : ∀ i < count, update[i]? = some (previous i))
    (hne : ∀ i < count, previous i ≠ node)
    (hprevious : ∀ i < count, i < (skip.node (previous i)).forward.length)
    (hnode : count ≤ (skip.node node).forward.length) :
    ∃ after, linkLevels update node count skip = some after ∧ Rewired skip after ∧
      ∀ i p, forwardAt after i p =
        if i < count ∧ p = node then forwardAt skip i (previous i)
        else if i < count ∧ p = previous i then some (some node)
        else forwardAt skip i p := by
  induction count with
  | zero => exact ⟨skip, rfl, Rewired.refl skip, by simp⟩
  | succ count ih =>
      obtain ⟨middle, hmiddle, hrewired, hforward⟩ :=
        ih (fun i hi => hupdate i (by omega)) (fun i hi => hne i (by omega))
          (fun i hi => hprevious i (by omega)) (by omega)
      have hcurrent := hprevious count (Nat.lt_succ_self count)
      have hread : forwardAt middle count (previous count) =
          forwardAt skip count (previous count) := by
        simp [hforward]
      obtain ⟨target, htarget⟩ : ∃ target, forwardAt skip count (previous count) =
          some target := ⟨_, getElem?_eq_getElem hcurrent⟩
      obtain ⟨lower, hlower, hlowerRewired, hlowerForward⟩ :=
        setForward_spec middle count node target (by rw [hrewired.length]; omega)
      obtain ⟨after, hafter, hafterRewired, hafterForward⟩ :=
        setForward_spec lower count (previous count) (some node)
          (by rw [hlowerRewired.length, hrewired.length]; exact hcurrent)
      refine ⟨after, ?_, (hrewired.trans hlowerRewired).trans hafterRewired, ?_⟩
      · simp [linkLevels, hmiddle, hupdate count (Nat.lt_succ_self count), hread, htarget,
          hlower, hafter]
      · intro i p
        have hdistinct := hne count (Nat.lt_succ_self count)
        rw [hafterForward, hlowerForward, hforward]
        rcases Nat.lt_trichotomy i count with hlt | rfl | hgt
        · simp [hlt, hlt.ne, Nat.lt_succ_of_lt hlt]
        · by_cases hp : p = node
          · subst hp
            simp [hdistinct.symm, htarget]
          · simp [hp]
        · simp [Nat.not_lt.2 hgt.le, hgt.ne', Nat.not_lt.2 (Nat.succ_le_of_lt hgt)]

/-- Taking a node out of its levels redirects the pointers in front of it; the
loop stops at the first level the node does not have. -/
theorem unlinkLevels_spec {update : List ℕ} {node remaining i : ℕ} {previous : ℕ → ℕ}
    (hupdate : ∀ j, i ≤ j → j < i + remaining → update[j]? = some (previous j))
    (hread : ∀ j, i ≤ j → j < i + remaining → ∃ target,
      forwardAt skip j (previous j) = some target ∧
        (target = some node ↔ j < (skip.node node).forward.length))
    (hheight : (skip.node node).forward.length ≤ i + remaining) :
    ∃ after, unlinkLevels update node remaining i skip = some after ∧ Rewired skip after ∧
      ∀ j p, forwardAt after j p =
        if i ≤ j ∧ j < (skip.node node).forward.length ∧ p = previous j then
          forwardAt skip j node
        else forwardAt skip j p := by
  induction remaining generalizing i skip with
  | zero =>
      refine ⟨skip, rfl, Rewired.refl skip, fun j p => ?_⟩
      rw [if_neg]
      omega
  | succ remaining ih =>
      obtain ⟨target, htarget, hhit⟩ := hread i le_rfl (by omega)
      by_cases hlevel : i < (skip.node node).forward.length
      · obtain rfl := hhit.2 hlevel
        obtain ⟨behind, hbehind⟩ : ∃ behind, forwardAt skip i node = some behind :=
          ⟨_, getElem?_eq_getElem hlevel⟩
        have hinside : i < (skip.node (previous i)).forward.length :=
          (List.getElem?_eq_some_iff.1 htarget).1
        obtain ⟨middle, hmiddle, hrewired, hforward⟩ :=
          setForward_spec skip i (previous i) behind hinside
        have hskip : ∀ j, i < j → ∀ p, forwardAt middle j p = forwardAt skip j p := by
          intro j hj p
          rw [hforward, if_neg (by omega)]
        have hupdate' : ∀ j, i + 1 ≤ j → j < i + 1 + remaining →
            update[j]? = some (previous j) :=
          fun j hj hlt => hupdate j (by omega) (by omega)
        have hread' : ∀ j, i + 1 ≤ j → j < i + 1 + remaining → ∃ target,
            forwardAt middle j (previous j) = some target ∧
              (target = some node ↔ j < (middle.node node).forward.length) := by
          intro j hj hlt
          rw [hskip j (by omega), hrewired.length]
          exact hread j (by omega) (by omega)
        obtain ⟨after, hafter, hafterRewired, hafterForward⟩ :=
          ih hupdate' hread' (by rw [hrewired.length]; omega)
        refine ⟨after, ?_, hrewired.trans hafterRewired, fun j p => ?_⟩
        · simp [unlinkLevels, hupdate i le_rfl (by omega), htarget, hbehind, hmiddle, hafter]
        · rw [hafterForward, hrewired.length]
          rcases Nat.lt_trichotomy j i with hlt | rfl | hgt
          · rw [if_neg (by omega), if_neg (by omega), hforward, if_neg (by omega)]
          · rw [if_neg (by omega), hforward, hbehind]
            simp [hlevel]
          · rw [hskip j hgt, hskip j hgt]
            have hiff : i + 1 ≤ j ↔ i ≤ j := ⟨fun h => by omega, fun _ => hgt⟩
            simp only [hiff]
      · have hmiss : target ≠ some node := fun heq => hlevel (hhit.1 heq)
        refine ⟨skip, ?_, Rewired.refl skip, fun j p => ?_⟩
        · simp [unlinkLevels, hupdate i le_rfl (by omega), htarget, hmiss]
        · rw [if_neg]
          omega

/-- The level is lowered over empty chains only. -/
theorem lowerLevel_spec {level : ℕ} (hlevel : level ≤ maxLevel)
    (hheader : (skip.node skip.header).forward.length = maxLevel + 1) :
    ∃ lowered, lowerLevel skip level = some lowered ∧ lowered ≤ level ∧
      ∀ i, lowered < i → i ≤ level → forwardAt skip i skip.header = some none := by
  induction level with
  | zero => exact ⟨0, rfl, le_rfl, fun i hi hle => by omega⟩
  | succ level ih =>
      obtain ⟨target, htarget⟩ : ∃ target, forwardAt skip (level + 1) skip.header =
          some target := ⟨_, getElem?_eq_getElem (by omega)⟩
      cases target with
      | none =>
          obtain ⟨lowered, hlower, hle, hempty⟩ := ih (by omega)
          refine ⟨lowered, by simp [lowerLevel, htarget, hlower], by omega, ?_⟩
          intro i hi hi'
          rcases Nat.lt_or_eq_of_le hi' with hlt | rfl
          · exact hempty i hi (by omega)
          · exact htarget
      | some node =>
          exact ⟨level + 1, by simp [lowerLevel, htarget], le_rfl, fun i hi hle => by omega⟩

theorem randomLevelFrom_le (coins : Coins) (remaining level : ℕ) :
    randomLevelFrom coins remaining level ≤ level + remaining := by
  induction remaining generalizing level with
  | zero => exact le_rfl
  | succ remaining ih =>
      rw [randomLevelFrom]
      split
      · have := ih (level + 1)
        omega
      · omega

theorem randomLevel_le (coins : Coins) : randomLevel coins ≤ maxLevel := by
  simpa [randomLevel] using randomLevelFrom_le coins maxLevel 0

/-! ## The operations -/

theorem create_shape : Shape kvsSkipCreate [] where
  nodup := by simp
  lt_next := by simp [kvsSkipCreate]
  header_length := by simp [kvsSkipCreate, createNode]
  positive := by simp
  bounded := by simp
  level_le := Nat.zero_le _
  linked := by
    intro i hi
    have hlt : i < maxLevel + 1 := by omega
    simp [tall, Linked, forwardAt, kvsSkipCreate, createNode, hlt]
  sorted := Pairwise.nil

theorem create_valid : Valid kvsSkipCreate :=
  ⟨[], create_shape⟩

theorem create_entries : entries kvsSkipCreate = [] :=
  create_shape.entries_eq

theorem entries_sorted (hvalid : Valid skip) : SortedKeys (entries skip) := by
  obtain ⟨order, hshape⟩ := hvalid
  exact hshape.entries_sorted

theorem get_eq (hvalid : Valid skip) (key : CStr) :
    kvsSkipGet skip (some key) = some (toPtr (denote (entries skip) key)) := by
  obtain ⟨order, hshape⟩ := hvalid
  obtain ⟨front, back, _, _, hdescend, hcases⟩ := hshape.search_cases key
  rcases hcases with ⟨hlookup, _, habsent⟩ | ⟨node, rest, _, _, hlookup, hpresent⟩
  · simp [kvsSkipGet, hdescend, hlookup, habsent, toPtr]
  · simp [kvsSkipGet, hdescend, hlookup, hpresent, toPtr]

theorem set_present (hvalid : Valid skip) (hpresent : denote (entries skip) key ≠ none)
    (alloc : Alloc) (coins : Coins) (value : CStr) :
    kvsSkipSet alloc coins skip (some key) (some value) = some (skip, 1) := by
  obtain ⟨order, hshape⟩ := hvalid
  obtain ⟨old, hold⟩ := Option.ne_none_iff_exists'.1 hpresent
  obtain ⟨front, node, rest, _, _, _, hdescend, hlookup⟩ := hshape.search_present hold
  simp [kvsSkipSet, hdescend, hlookup]

theorem mod_absent (hvalid : Valid skip) (habsent : denote (entries skip) key = none)
    (alloc : Alloc) (value : CStr) :
    kvsSkipMod alloc skip (some key) (some value) = some (skip, 1) := by
  obtain ⟨order, hshape⟩ := hvalid
  obtain ⟨front, back, _, _, _, hdescend, hlookup⟩ := hshape.search_absent habsent
  simp [kvsSkipMod, hdescend, hlookup]

theorem del_absent (hvalid : Valid skip) (habsent : denote (entries skip) key = none) :
    kvsSkipDel skip (some key) = some (skip, 1) := by
  obtain ⟨order, hshape⟩ := hvalid
  obtain ⟨front, back, _, _, _, hdescend, hlookup⟩ := hshape.search_absent habsent
  simp [kvsSkipDel, hdescend, hlookup]

/-- The memory in which the new node is allocated but not yet linked. -/
def withNode (skip : KvsSkip) (level : ℕ) (key value : CStr) : KvsSkip :=
  { skip with
    level := max skip.level level
    node := Function.update skip.node skip.next (createNode level key value)
    next := skip.next + 1 }

theorem withNode_node_of_ne {level node : ℕ} {value : CStr} (hne : node ≠ skip.next) :
    (withNode skip level key value).node node = skip.node node := by
  simp [withNode, hne]

/-- On every level the array `update` holds the last node in front of the key,
also above the old level, where that is the header. -/
theorem update_eq (hshape : Shape skip (front ++ back)) (level : ℕ) {i : ℕ}
    (hi : i ≤ level) :
    ((range (skip.level + 1)).map (fun j => lastOf skip.header (tall skip j front)) ++
      replicate (level - skip.level) skip.header)[i]? =
      some (lastOf skip.header (tall skip i front)) := by
  by_cases hold : i < skip.level + 1
  · rw [getElem?_append_left (by simpa using hold)]
    simp [hold]
  · have hempty : tall skip i front = [] := by
      rw [tall, filter_eq_nil_iff]
      intro node hnode
      have hbound := hshape.bounded node (mem_append_left _ hnode)
      simp only [decide_eq_true_eq]
      omega
    rw [getElem?_append_right (by simpa using hold), hempty, lastOf_nil,
      getElem?_replicate, if_pos]
    simp only [length_map, length_range]
    omega

/-- The last node in front of the key on a level has a pointer on that level. -/
theorem length_lastOf (hshape : Shape skip (front ++ back)) {i : ℕ} (hi : i ≤ maxLevel) :
    i < (skip.node (lastOf skip.header (tall skip i front))).forward.length := by
  rcases mem_cons.1 (lastOf_mem skip.header (tall skip i front)) with hheader | hmem
  · rw [hheader, hshape.header_length]
    omega
  · simpa using (mem_filter.1 hmem).2

theorem lastOf_mem_nodes (skip : KvsSkip) (i : ℕ) (front back : List ℕ) :
    lastOf skip.header (tall skip i front) ∈ skip.header :: (front ++ back) := by
  have hsub : skip.header :: tall skip i front <+ skip.header :: (front ++ back) :=
    ((tall_sublist skip i front).trans (sublist_append_left front back)).cons_cons _
  exact hsub.subset (lastOf_mem _ _)

/-- What linking the new node behind `front` does to the memory. -/
structure Inserted (skip : KvsSkip) (front : List ℕ) (level : ℕ) (key value : CStr)
    (after : KvsSkip) : Prop where
  rewired : Rewired (withNode skip level key value) after
  forward : ∀ i p, forwardAt after i p =
    if i < level + 1 ∧ p = skip.next then
      forwardAt (withNode skip level key value) i (lastOf skip.header (tall skip i front))
    else if i < level + 1 ∧ p = lastOf skip.header (tall skip i front) then
      some (some skip.next)
    else forwardAt (withNode skip level key value) i p

section Insert

variable {level : ℕ} {value : CStr} {after : KvsSkip}

theorem Shape.ne_next (hshape : Shape skip order) {node : ℕ}
    (hnode : node ∈ skip.header :: order) : node ≠ skip.next :=
  (hshape.lt_next node hnode).ne

theorem Inserted.key_old (hinserted : Inserted skip front level key value after) {node : ℕ}
    (hne : node ≠ skip.next) : (after.node node).key = (skip.node node).key := by
  rw [hinserted.rewired.key, withNode_node_of_ne hne]

theorem Inserted.key_new (hinserted : Inserted skip front level key value after) :
    (after.node skip.next).key = key := by
  rw [hinserted.rewired.key]
  simp [withNode, createNode]

theorem Inserted.length_old (hinserted : Inserted skip front level key value after) {node : ℕ}
    (hne : node ≠ skip.next) :
    (after.node node).forward.length = (skip.node node).forward.length := by
  rw [hinserted.rewired.length, withNode_node_of_ne hne]

theorem Inserted.length_new (hinserted : Inserted skip front level key value after) :
    (after.node skip.next).forward.length = level + 1 := by
  rw [hinserted.rewired.length]
  simp [withNode, createNode]

theorem Inserted.tall_old (hinserted : Inserted skip front level key value after) (i : ℕ)
    {nodes : List ℕ} (hne : ∀ node ∈ nodes, node ≠ skip.next) :
    tall after i nodes = tall skip i nodes := by
  apply filter_congr
  intro node hnode
  rw [hinserted.length_old (hne node hnode)]

theorem Inserted.entry_old (hinserted : Inserted skip front level key value after) {node : ℕ}
    (hne : node ≠ skip.next) : nodeEntry after node = nodeEntry skip node := by
  rw [hinserted.rewired.nodeEntry_eq, nodeEntry, withNode_node_of_ne hne, nodeEntry]

theorem Inserted.entry_new (hinserted : Inserted skip front level key value after) :
    nodeEntry after skip.next = entry key (.text value) := by
  rw [hinserted.rewired.nodeEntry_eq]
  simp [nodeEntry, withNode, createNode]

/-- The new node joins the chains of its own levels. -/
theorem Inserted.linked (hinserted : Inserted skip front level key value after)
    (hshape : Shape skip (front ++ back)) {i : ℕ} (hi : i ≤ maxLevel) :
    Linked (forwardAt after i) skip.header (tall after i (front ++ skip.next :: back)) := by
  have hlinked := hshape.linked i hi
  rw [tall_append] at hlinked
  have hsub : skip.header :: (tall skip i front ++ tall skip i back) <+
      skip.header :: (front ++ back) :=
    ((tall_sublist skip i front).append (tall_sublist skip i back)).cons_cons _
  have hread : ∀ node ∈ skip.header :: (front ++ back),
      forwardAt (withNode skip level key value) i node = forwardAt skip i node := by
    intro node hmem
    rw [forwardAt, withNode_node_of_ne (hshape.ne_next hmem), forwardAt]
  have hlast := lastOf_mem_nodes skip i front back
  have hfront : tall after i front = tall skip i front :=
    hinserted.tall_old i fun node hmem =>
      hshape.ne_next (mem_cons_of_mem _ (mem_append_left _ hmem))
  have hback : tall after i back = tall skip i back :=
    hinserted.tall_old i fun node hmem =>
      hshape.ne_next (mem_cons_of_mem _ (mem_append_right _ hmem))
  rw [tall_append, hfront]
  by_cases hin : i < level + 1
  · have hcons : tall after i (skip.next :: back) = skip.next :: tall skip i back := by
      rw [← hback, tall, tall, filter_cons_of_pos (by simpa [hinserted.length_new] using hin)]
    rw [hcons]
    apply hlinked.insert (hshape.nodup.sublist hsub)
    · intro other hother hne
      have hmem := hsub.subset hother
      rw [hinserted.forward, if_neg (by simp [hshape.ne_next hmem]), if_neg (by simp [hne]),
        hread other hmem]
    · rw [hinserted.forward, if_neg (by simp [hshape.ne_next hlast]), if_pos ⟨hin, rfl⟩]
    · rw [hinserted.forward, if_pos ⟨hin, rfl⟩, hread _ hlast]
  · have hcons : tall after i (skip.next :: back) = tall skip i back := by
      rw [← hback, tall, tall, filter_cons_of_neg (by simpa [hinserted.length_new] using hin)]
    rw [hcons]
    refine hlinked.congr fun other hother => ?_
    rw [hinserted.forward, if_neg (by simp [hin]), if_neg (by simp [hin]),
      hread other (hsub.subset hother)]

theorem Inserted.sorted (hinserted : Inserted skip front level key value after)
    (hshape : Shape skip (front ++ back))
    (hfront : ∀ node ∈ front, (skip.node node).key < key)
    (hback : ∀ node ∈ back, key < (skip.node node).key) :
    (front ++ skip.next :: back).Pairwise fun left right =>
      (after.node left).key < (after.node right).key := by
  have hkeyFront : ∀ node ∈ front, (after.node node).key = (skip.node node).key :=
    fun node hmem => hinserted.key_old
      (hshape.ne_next (mem_cons_of_mem _ (mem_append_left _ hmem)))
  have hkeyBack : ∀ node ∈ back, (after.node node).key = (skip.node node).key :=
    fun node hmem => hinserted.key_old
      (hshape.ne_next (mem_cons_of_mem _ (mem_append_right _ hmem)))
  obtain ⟨hsortedFront, hsortedBack, hcross⟩ := pairwise_append.1 hshape.sorted
  rw [pairwise_append, pairwise_cons]
  refine ⟨hsortedFront.imp_of_mem ?_, ⟨?_, hsortedBack.imp_of_mem ?_⟩, ?_⟩
  · intro left right hleft hright hlt
    rwa [hkeyFront left hleft, hkeyFront right hright]
  · intro node hmem
    rw [hinserted.key_new, hkeyBack node hmem]
    exact hback node hmem
  · intro left right hleft hright hlt
    rwa [hkeyBack left hleft, hkeyBack right hright]
  · intro left hleft right hright
    rw [hkeyFront left hleft]
    rcases mem_cons.1 hright with rfl | hright
    · rw [hinserted.key_new]
      exact hfront left hleft
    · rw [hkeyBack right hright]
      exact hcross left hleft right hright

/-- Linking the new node keeps the shape. -/
theorem Inserted.shape (hinserted : Inserted skip front level key value after)
    (hshape : Shape skip (front ++ back)) (hlevel : level ≤ maxLevel)
    (hfront : ∀ node ∈ front, (skip.node node).key < key)
    (hback : ∀ node ∈ back, key < (skip.node node).key) :
    Shape after (front ++ skip.next :: back) := by
  have hheader : after.header = skip.header := hinserted.rewired.header
  have hraised : after.level = max skip.level level := hinserted.rewired.level
  have hnext : after.next = skip.next + 1 := hinserted.rewired.next
  have hmembers : ∀ {node}, node ∈ front ++ skip.next :: back →
      node = skip.next ∨ node ∈ front ++ back := by
    intro node hmem
    simp only [mem_append, mem_cons] at hmem ⊢
    tauto
  have hlength : ∀ node ∈ front ++ back,
      (after.node node).forward.length = (skip.node node).forward.length :=
    fun node hmem => hinserted.length_old (hshape.ne_next (mem_cons_of_mem _ hmem))
  constructor
  · rw [hheader, ← cons_append, nodup_middle, cons_append]
    exact nodup_cons.2 ⟨fun hmem => hshape.ne_next hmem rfl, hshape.nodup⟩
  · rw [hheader, hnext]
    intro node hmem
    rcases mem_cons.1 hmem with rfl | hmem
    · exact Nat.lt_succ_of_lt (hshape.lt_next _ mem_cons_self)
    rcases hmembers hmem with rfl | hmem
    · exact Nat.lt_succ_self _
    · exact Nat.lt_succ_of_lt (hshape.lt_next _ (mem_cons_of_mem _ hmem))
  · rw [hheader, hinserted.length_old (hshape.ne_next mem_cons_self)]
    exact hshape.header_length
  · intro node hmem
    rcases hmembers hmem with rfl | hmem
    · rw [hinserted.length_new]
      omega
    · rw [hlength node hmem]
      exact hshape.positive node hmem
  · intro node hmem
    rw [hraised]
    rcases hmembers hmem with rfl | hmem
    · rw [hinserted.length_new]
      omega
    · have hbound := hshape.bounded node hmem
      rw [hlength node hmem]
      omega
  · rw [hraised]
    exact max_le hshape.level_le hlevel
  · intro i hi
    rw [hheader]
    exact hinserted.linked hshape hi
  · exact hinserted.sorted hshape hfront hback

end Insert

/-- `kvs_skip_set` of an absent key links a new node in front of the greater keys. -/
theorem set_inserted (hshape : Shape skip order) (habsent : denote (entries skip) key = none)
    (coins : Coins) (value : CStr) :
    ∃ front back after, order = front ++ back ∧
      kvsSkipSet allocOk coins skip (some key) (some value) = some (after, 0) ∧
      Inserted skip front (randomLevel coins) key value after ∧
      Shape after (front ++ skip.next :: back) := by
  obtain ⟨front, back, rfl, hfront, hback, hdescend, hlookup⟩ := hshape.search_absent habsent
  have hlevel := randomLevel_le coins
  have hprevious : ∀ i < randomLevel coins + 1, i < ((withNode skip (randomLevel coins) key
      value).node (lastOf skip.header (tall skip i front))).forward.length := by
    intro i hi
    rw [withNode_node_of_ne (hshape.ne_next (lastOf_mem_nodes skip i front back))]
    exact length_lastOf hshape (by omega)
  obtain ⟨after, hlink, hrewired, hforward⟩ := linkLevels_spec
    (fun i hi => update_eq hshape (randomLevel coins) (Nat.le_of_lt_succ hi))
    (fun i _ => hshape.ne_next (lastOf_mem_nodes skip i front back)) hprevious
    (by simp [withNode, createNode] : randomLevel coins + 1 ≤ _)
  have hinserted : Inserted skip front (randomLevel coins) key value after :=
    ⟨hrewired, hforward⟩
  refine ⟨front, back, after, rfl, ?_, hinserted,
    hinserted.shape hshape hlevel hfront hback⟩
  simp only [withNode] at hlink
  simp [kvsSkipSet, hdescend, hlookup, hlink]

theorem set_absent (hvalid : Valid skip) (habsent : denote (entries skip) key = none)
    (coins : Coins) (value : CStr) :
    ∃ after, kvsSkipSet allocOk coins skip (some key) (some value) = some (after, 0) ∧
      Valid after ∧
      Splice [] [entry key (.text value)] (entries skip) (entries after) := by
  obtain ⟨order, hshape⟩ := hvalid
  obtain ⟨front, back, after, rfl, hset, hinserted, hafter⟩ :=
    set_inserted hshape habsent coins value
  refine ⟨after, hset, ⟨_, hafter⟩, ?_⟩
  have hkeep : ∀ nodes : List ℕ, (∀ node ∈ nodes, node ∈ front ++ back) →
      nodes.map (nodeEntry after) = nodes.map (nodeEntry skip) := by
    intro nodes hnodes
    exact map_congr_left fun node hmem =>
      hinserted.entry_old (hshape.ne_next (mem_cons_of_mem _ (hnodes node hmem)))
  rw [hafter.entries_eq, hshape.entries_eq]
  refine ⟨front.map (nodeEntry skip), back.map (nodeEntry skip), by simp, ?_⟩
  rw [map_append, map_cons, hinserted.entry_new,
    hkeep front fun node hmem => mem_append_left _ hmem,
    hkeep back fun node hmem => mem_append_right _ hmem, append_assoc, singleton_append]

/-- A raised level only adds empty chains. -/
theorem raise_shape (hshape : Shape skip order) {level : ℕ} (hlevel : level ≤ maxLevel) :
    Shape { skip with level := max skip.level level } order :=
  { hshape with
    bounded := fun node hnode =>
      (hshape.bounded node hnode).trans (Nat.succ_le_succ (le_max_left _ _))
    level_le := max_le hshape.level_le hlevel }

/-- A denied allocation leaves the level raised and the nodes as they are. -/
theorem set_denied (hvalid : Valid skip) (habsent : denote (entries skip) key = none)
    {alloc : Alloc} (hdenied : (alloc 0 && alloc 1 && alloc 2 && alloc 3) = false)
    (coins : Coins) (value : CStr) :
    ∃ after, kvsSkipSet alloc coins skip (some key) (some value) = some (after, -1) ∧
      Valid after ∧ entries after = entries skip := by
  obtain ⟨order, hshape⟩ := hvalid
  obtain ⟨front, back, _, _, _, hdescend, hlookup⟩ := hshape.search_absent habsent
  have hraised := raise_shape hshape (randomLevel_le coins)
  refine ⟨{ skip with level := max skip.level (randomLevel coins) }, ?_, ⟨order, hraised⟩,
    hraised.entries_eq.trans hshape.entries_eq.symm⟩
  simp only [kvsSkipSet, hdescend, hlookup, hdenied, Option.bind_eq_bind, Option.bind_some]
  simp

/-- An insertion keeps the invariant, whatever allocations fail. -/
theorem set_valid (hvalid : Valid skip) (alloc : Alloc) (coins : Coins) (key value : CStr) :
    ∃ after code, kvsSkipSet alloc coins skip (some key) (some value) = some (after, code) ∧
      Valid after := by
  cases hpresent : denote (entries skip) key with
  | some pointer =>
      exact ⟨skip, 1, set_present hvalid (by simp [hpresent]) alloc coins value, hvalid⟩
  | none =>
      cases halloc : alloc 0 && alloc 1 && alloc 2 && alloc 3 with
      | false =>
          obtain ⟨after, hset, hafter, -⟩ := set_denied hvalid hpresent halloc coins value
          exact ⟨after, -1, hset, hafter⟩
      | true =>
          obtain ⟨after, hset, hafter, -⟩ := set_absent hvalid hpresent coins value
          refine ⟨after, 0, ?_, hafter⟩
          rw [← hset]
          simp [kvsSkipSet, halloc]

/-! ### Modification -/

theorem forward_setValue (skip : KvsSkip) (node : ℕ) (value : StrPtr) (other : ℕ) :
    ((setValue skip node value).node other).forward = (skip.node other).forward := by
  by_cases hother : other = node <;> simp [setValue, hother]

theorem setValue_shape (hshape : Shape skip order) (node : ℕ) (value : StrPtr) :
    Shape (setValue skip node value) order := by
  have hforward := forward_setValue skip node value
  have hkey : ∀ other, ((setValue skip node value).node other).key = (skip.node other).key := by
    intro other
    by_cases hother : other = node <;> simp [setValue, hother]
  have hread : ∀ i, forwardAt (setValue skip node value) i = forwardAt skip i := by
    intro i
    funext other
    rw [forwardAt, hforward, forwardAt]
  exact
    { nodup := hshape.nodup
      lt_next := hshape.lt_next
      header_length := by
        rw [hforward]
        exact hshape.header_length
      positive := by simpa only [hforward] using hshape.positive
      bounded := by
        simp only [hforward]
        exact hshape.bounded
      level_le := hshape.level_le
      linked := by
        intro i hi
        simp only [tall, hforward, hread]
        exact hshape.linked i hi
      sorted := by simpa only [hkey] using hshape.sorted }

/-- Replacing the value of a present key rewrites the value of its node. -/
theorem mod_held (hvalid : Valid skip) {old : StrPtr}
    (hpresent : denote (entries skip) key = some old) (alloc : Alloc) (value : CStr) :
    ∃ after, kvsSkipMod alloc skip (some key) (some value) =
        some (after, if alloc 0 then 0 else -2) ∧ Valid after ∧
      Splice [entry key old] [entry key (if alloc 0 then .text value else .freed)]
        (entries skip) (entries after) := by
  generalize hpointer : (if alloc 0 then StrPtr.text value else .freed) = pointer
  obtain ⟨order, hshape⟩ := hvalid
  obtain ⟨front, node, rest, rfl, hkey, hold, hdescend, hlookup⟩ :=
    hshape.search_present hpresent
  have hafter := setValue_shape hshape node pointer
  refine ⟨setValue skip node pointer, ?_, ⟨_, hafter⟩, ?_⟩
  · rw [← hpointer]
    cases halloc : alloc 0 <;> simp [kvsSkipMod, hdescend, hlookup, halloc]
  · have hnodup := nodup_middle.1 (nodup_cons.1 hshape.nodup).2
    have hkeep : ∀ nodes : List ℕ, node ∉ nodes →
        nodes.map (nodeEntry (setValue skip node pointer)) =
          nodes.map (nodeEntry skip) := by
      intro nodes hfresh
      refine map_congr_left fun other hother => ?_
      have hne : other ≠ node := fun heq => hfresh (heq ▸ hother)
      simp [nodeEntry, setValue, hne]
    have hnode := (nodup_cons.1 hnodup).1
    rw [mem_append, not_or] at hnode
    have hnew : nodeEntry (setValue skip node pointer) node = entry key pointer := by
      simp [nodeEntry, setValue, hkey]
    rw [hafter.entries_eq, hshape.entries_eq]
    refine ⟨front.map (nodeEntry skip), rest.map (nodeEntry skip), ?_, ?_⟩
    · simp [hold]
    · rw [map_append, map_cons, hkeep front hnode.1, hkeep rest hnode.2, hnew,
        append_assoc, singleton_append]

/-! ### Removal -/

section Remove

variable {node : ℕ} {after : KvsSkip}

/-- The chain behind the key starts with the node exactly on its own levels. -/
theorem tall_cons_head (hshape : Shape skip (front ++ node :: back)) (i : ℕ) :
    (tall skip i (node :: back)).head? = some node ↔
      i < (skip.node node).forward.length := by
  by_cases hin : i < (skip.node node).forward.length
  · rw [tall, filter_cons_of_pos (by simpa using hin)]
    simp [hin]
  · rw [tall, filter_cons_of_neg (by simpa using hin)]
    refine ⟨fun hhead => ?_, fun hin' => absurd hin' hin⟩
    have hmem := (tall_sublist skip i back).subset (mem_of_mem_head? hhead)
    have hnodup := (nodup_append'.1 (nodup_cons.1 hshape.nodup).2).2.1
    exact absurd hmem (nodup_cons.1 hnodup).1

/-- Unlinking the node keeps all chains. -/
theorem unlink_linked (hshape : Shape skip (front ++ node :: back))
    (hrewired : Rewired skip after)
    (hforward : ∀ i p, forwardAt after i p =
      if i < (skip.node node).forward.length ∧ p = lastOf skip.header (tall skip i front) then
        forwardAt skip i node
      else forwardAt skip i p) {i : ℕ} (hi : i ≤ maxLevel) :
    Linked (forwardAt after i) skip.header (tall after i (front ++ back)) := by
  have hlinked := hshape.linked i hi
  rw [tall_append] at hlinked
  rw [hrewired.tall_eq, tall_append]
  have hsub : skip.header :: (tall skip i front ++ tall skip i (node :: back)) <+
      skip.header :: (front ++ node :: back) :=
    ((tall_sublist skip i front).append (tall_sublist skip i _)).cons_cons _
  by_cases hin : i < (skip.node node).forward.length
  · have hcons : tall skip i (node :: back) = node :: tall skip i back := by
      rw [tall, tall, filter_cons_of_pos (by simpa using hin)]
    rw [hcons] at hlinked hsub
    apply hlinked.remove (hshape.nodup.sublist hsub)
    · intro other _ hne
      rw [hforward, if_neg (by simp [hne])]
    · rw [hforward, if_pos ⟨hin, rfl⟩]
  · have hcons : tall skip i (node :: back) = tall skip i back := by
      rw [tall, tall, filter_cons_of_neg (by simpa using hin)]
    rw [hcons] at hlinked
    refine hlinked.congr fun other _ => ?_
    rw [hforward, if_neg (by simp [hin])]

theorem unlink_shape (hshape : Shape skip (front ++ node :: back))
    (hrewired : Rewired skip after)
    (hforward : ∀ i p, forwardAt after i p =
      if i < (skip.node node).forward.length ∧ p = lastOf skip.header (tall skip i front) then
        forwardAt skip i node
      else forwardAt skip i p) :
    Shape after (front ++ back) := by
  have hsub : front ++ back <+ front ++ node :: back :=
    (sublist_cons_self node back).append_left front
  exact
    { nodup := by
        rw [hrewired.header]
        exact hshape.nodup.sublist (hsub.cons_cons _)
      lt_next := by
        rw [hrewired.header, hrewired.next]
        exact fun other hother => hshape.lt_next other ((hsub.cons_cons _).subset hother)
      header_length := by
        rw [hrewired.header, hrewired.length]
        exact hshape.header_length
      positive := fun other hother => by
        rw [hrewired.length]
        exact hshape.positive other (hsub.subset hother)
      bounded := fun other hother => by
        rw [hrewired.length, hrewired.level]
        exact hshape.bounded other (hsub.subset hother)
      level_le := by
        rw [hrewired.level]
        exact hshape.level_le
      linked := fun i hi => by
        rw [hrewired.header]
        exact unlink_linked hshape hrewired hforward hi
      sorted := by
        simp only [hrewired.key]
        exact hshape.sorted.sublist hsub }

/-- Lowering the level over empty chains keeps the shape. -/
theorem lower_shape (hshape : Shape skip order) :
    ∃ lowered, lowerLevel skip skip.level = some lowered ∧
      Shape { skip with level := lowered } order := by
  obtain ⟨lowered, hlower, hle, hempty⟩ :=
    lowerLevel_spec hshape.level_le hshape.header_length
  refine ⟨lowered, hlower, { hshape with bounded := ?_, level_le := ?_ }⟩
  · intro other hother
    by_contra hhigh
    have hbound := hshape.bounded other hother
    have hlevel := hshape.level_le
    simp only [not_le] at hhigh
    have hread := (hshape.linked (lowered + 1) (by omega)).read_start
    rw [hempty (lowered + 1) (by omega) (by omega), Option.some.injEq, eq_comm,
      head?_eq_none_iff] at hread
    have hmem : other ∈ tall skip (lowered + 1) order :=
      mem_filter.2 ⟨hother, by simpa using hhigh⟩
    rw [hread] at hmem
    cases hmem
  · exact hle.trans hshape.level_le

end Remove

theorem del_present (hvalid : Valid skip) {old : StrPtr}
    (hpresent : denote (entries skip) key = some old) :
    ∃ after, kvsSkipDel skip (some key) = some (after, 0) ∧ Valid after ∧
      Splice [entry key old] [] (entries skip) (entries after) := by
  obtain ⟨order, hshape⟩ := hvalid
  obtain ⟨front, node, rest, rfl, hkey, hold, hdescend, hlookup⟩ :=
    hshape.search_present hpresent
  have hbounded := hshape.bounded node (by simp)
  have hlevel := hshape.level_le
  have hupdate : ∀ j, 0 ≤ j → j < 0 + (skip.level + 1) →
      ((range (skip.level + 1)).map fun j => lastOf skip.header (tall skip j front))[j]? =
        some (lastOf skip.header (tall skip j front)) := by
    intro j _ hj
    have hindex := update_eq hshape skip.level (by omega : j ≤ skip.level)
    rwa [Nat.sub_self, replicate_zero, append_nil] at hindex
  have hread : ∀ j, 0 ≤ j → j < 0 + (skip.level + 1) → ∃ target,
      forwardAt skip j (lastOf skip.header (tall skip j front)) = some target ∧
        (target = some node ↔ j < (skip.node node).forward.length) := by
    intro j _ hj
    have hlinked := hshape.linked j (by omega)
    rw [tall_append] at hlinked
    exact ⟨_, hlinked.drop.read_start, tall_cons_head hshape j⟩
  obtain ⟨middle, hunlink, hrewired, hforward⟩ :=
    unlinkLevels_spec hupdate hread (by omega)
  simp only [Nat.zero_le, true_and] at hforward
  have hmiddle := unlink_shape hshape hrewired hforward
  obtain ⟨lowered, hlower, hafter⟩ := lower_shape hmiddle
  refine ⟨{ middle with level := lowered }, ?_, ⟨_, hafter⟩, ?_⟩
  · rw [hrewired.level] at hlower
    simp [kvsSkipDel, hdescend, hlookup, hunlink, hrewired.level, hlower]
  · have hentries : nodeEntry { middle with level := lowered } = nodeEntry skip :=
      hrewired.nodeEntry_eq
    rw [hafter.entries_eq, hshape.entries_eq, hentries]
    exact ⟨front.map (nodeEntry skip), rest.map (nodeEntry skip), by simp [hold], by simp⟩

end LiteMultiKV.Skip
