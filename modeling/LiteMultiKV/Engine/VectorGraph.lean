import LiteMultiKV.Core.Chain
import LiteMultiKV.Engine.Vector

/-!
# The layers of the vector index

Every layer of the index is one chain.  As long as node 0 reaches a layer, the
chain of that layer starts at node 0 and visits exactly the nodes that reach it;
in the layers above node 0 no node is linked.  The invariant holds whatever the
distances are, and it is what keeps the loops of `insert_hnsw` and `search_hnsw`
from running off the array or in a circle.
-/

namespace LiteMultiKV.Vector

open List LiteMultiKV.Chain CText Memory Numeric

variable {F D : Type}

/-- A node without its links, and their number. -/
def HNSWNode.shape (node : HNSWNode F) : HNSWNode F × ℕ :=
  ({ node with forward := [] }, node.forward.length)

/-- Two indexes that differ in their links only. -/
structure SameNodes (before after : HNSWIndex F) : Prop where
  size_eq : after.size = before.size
  deletedCount_eq : after.deletedCount = before.deletedCount
  maxLevel_eq : after.maxLevel = before.maxLevel
  enterpointId_eq : after.enterpointId = before.enterpointId
  shape_eq : ∀ node,
    (after.nodes node).map HNSWNode.shape = (before.nodes node).map HNSWNode.shape

/-- The node exists and reaches the level. -/
def Tall (index : HNSWIndex F) (level node : ℕ) : Prop :=
  ∃ contents, index.nodes node = some contents ∧ level ≤ contents.level

variable {index after : HNSWIndex F} {level node : ℕ} {contents : HNSWNode F}

theorem tall_iff (hnode : index.nodes node = some contents) :
    Tall index level node ↔ level ≤ contents.level := by
  simp [Tall, hnode]

theorem SameNodes.refl (index : HNSWIndex F) : SameNodes index index :=
  ⟨rfl, rfl, rfl, rfl, fun _ => rfl⟩

theorem SameNodes.trans {first second third : HNSWIndex F} (hfirst : SameNodes first second)
    (hsecond : SameNodes second third) : SameNodes first third :=
  ⟨hsecond.size_eq.trans hfirst.size_eq, hsecond.deletedCount_eq.trans hfirst.deletedCount_eq,
    hsecond.maxLevel_eq.trans hfirst.maxLevel_eq,
    hsecond.enterpointId_eq.trans hfirst.enterpointId_eq,
    fun node => (hsecond.shape_eq node).trans (hfirst.shape_eq node)⟩

/-- A node is found again, with as many links as before. -/
theorem SameNodes.found (hsame : SameNodes index after) (hnode : index.nodes node = some contents) :
    ∃ found, after.nodes node = some found ∧ found.level = contents.level ∧
      found.forward.length = contents.forward.length := by
  have hshape := hsame.shape_eq node
  rw [hnode, Option.map_some] at hshape
  obtain ⟨found, hfound, heq⟩ := Option.map_eq_some_iff.1 hshape
  simp only [HNSWNode.shape, Prod.mk.injEq, HNSWNode.mk.injEq] at heq
  exact ⟨found, hfound, heq.1.2.1, heq.2⟩

theorem SameNodes.symm (hsame : SameNodes index after) : SameNodes after index :=
  ⟨hsame.size_eq.symm, hsame.deletedCount_eq.symm, hsame.maxLevel_eq.symm,
    hsame.enterpointId_eq.symm, fun node => (hsame.shape_eq node).symm⟩

theorem SameNodes.tall_iff (hsame : SameNodes index after) :
    Tall after level node ↔ Tall index level node := by
  constructor
  · rintro ⟨contents, hnode, hlevel⟩
    obtain ⟨found, hfound, heq, -⟩ := hsame.symm.found hnode
    exact ⟨found, hfound, heq.symm ▸ hlevel⟩
  · rintro ⟨contents, hnode, hlevel⟩
    obtain ⟨found, hfound, heq, -⟩ := hsame.found hnode
    exact ⟨found, hfound, heq.symm ▸ hlevel⟩

/-- One link of one node is set. -/
theorem setForward_spec (hnode : index.nodes node = some contents)
    (hlevel : level < contents.forward.length) (target : Option ℕ) :
    ∃ after, setForward index level node target = some after ∧ SameNodes index after ∧
      ∀ layer other, forwardAt after layer other =
        if other = node ∧ layer = level then some target else forwardAt index layer other := by
  let after : HNSWIndex F := { index with
    nodes := Function.update index.nodes node
      (some { contents with forward := contents.forward.set level target }) }
  refine ⟨after, by simp [setForward, hnode, hlevel, after], ⟨rfl, rfl, rfl, rfl, fun other => ?_⟩,
    fun layer other => ?_⟩
  · by_cases hother : other = node
    · simp [after, hother, hnode, HNSWNode.shape]
    · simp [after, hother]
  · by_cases hother : other = node
    · by_cases hlayer : layer = level
      · simp [forwardAt, after, hother, hlayer, hlevel]
      · simp [forwardAt, after, hother, hnode, hlayer, Ne.symm hlayer]
    · simp [forwardAt, after, hother]

/-! ## Chains -/

/-- The chain of a layer starts at node 0 and visits the given nodes once each. -/
def ChainAt (index : HNSWIndex F) (level : ℕ) (members : ℕ → Prop) : Prop :=
  ∃ chain, Linked (forwardAt index level) 0 chain ∧ (0 :: chain).Nodup ∧
    ∀ node, node ∈ 0 :: chain ↔ members node

/-- In each layer the nodes below a bound are linked. -/
structure Layered (index : HNSWIndex F) (bound : ℕ → ℕ) : Prop where
  stored : ∀ node < index.size, ∃ contents, index.nodes node = some contents ∧
    contents.forward.length = contents.level + 1 ∧ contents.level ≤ index.maxLevel
  entry_eq : index.enterpointId = 0
  lower : ∀ level, Tall index level 0 →
    ChainAt index level fun node => node < bound level ∧ Tall index level node
  upper : ∀ level node, ¬Tall index level 0 → Tall index level node → node < index.size →
    forwardAt index level node = some none

/-- All nodes are linked in all layers that node 0 reaches, and the top level is the level
of one of them. -/
structure HNSWIndex.Chained (index : HNSWIndex F) : Prop where
  layered : Layered index fun _ => index.size
  top : (index.size = 0 ∧ index.maxLevel = 0) ∨
    ∃ node < index.size, Tall index index.maxLevel node

theorem chained_create : (kvsVectorCreate F).index.Chained where
  layered :=
    { stored := by
        intro node hnode
        exact absurd hnode (Nat.not_lt_zero _)
      entry_eq := rfl
      lower := by
        rintro level ⟨contents, hnode, -⟩
        cases hnode
      upper := by
        intro level node _ _ hnode
        exact absurd hnode (Nat.not_lt_zero _) }
  top := .inl ⟨rfl, rfl⟩

theorem Layered.tall_of_mem {bound : ℕ → ℕ} (hlayered : Layered index bound)
    (hnode : node < index.size) (htall : Tall index level node) :
    ∃ contents, index.nodes node = some contents ∧ level < contents.forward.length := by
  obtain ⟨contents, hcontents, hlength, -⟩ := hlayered.stored node hnode
  obtain ⟨found, hfound, hlevel⟩ := htall
  obtain rfl : contents = found := by simpa [hcontents] using hfound
  exact ⟨contents, hcontents, by omega⟩

/-! ## Insertion -/

/-- The greedy loop ends at a node of the chain it walks along. -/
theorem seek_spec (closer : D → D → Bool) (dist : ℕ → D) {chain : List ℕ} {candidate : ℕ}
    (hchain : Linked (forwardAt index level) candidate chain)
    (hstored : ∀ node ∈ candidate :: chain, ∃ contents, index.nodes node = some contents)
    {fuel : ℕ} (hfuel : chain.length < fuel) (prev : Option ℕ) (best : D) :
    ∃ found, seek index closer dist level fuel prev candidate best = some found ∧
      (some found = prev ∨ found ∈ candidate :: chain) := by
  induction chain generalizing candidate fuel prev best with
  | nil =>
      obtain ⟨fuel, rfl⟩ : ∃ less, fuel = less + 1 := ⟨fuel - 1, by omega⟩
      have hread : forwardAt index level candidate = some none := hchain
      refine ⟨prev.getD candidate, by simp [seek, hread], ?_⟩
      cases prev <;> simp
  | cons next chain ih =>
      rw [length_cons] at hfuel
      obtain ⟨fuel, rfl⟩ : ∃ less, fuel = less + 1 := ⟨fuel - 1, by omega⟩
      have hread : forwardAt index level candidate = some (some next) := hchain.1
      obtain ⟨contents, hcontents⟩ := hstored candidate mem_cons_self
      by_cases hmove : (decide (level ≤ contents.level) && closer (dist next) best) = true
      · obtain ⟨found, hfound, hplace⟩ := ih hchain.2
          (fun node hnode => hstored node (mem_cons_of_mem _ hnode))
          (by omega : chain.length < fuel) (some candidate) (dist next)
        refine ⟨found, ?_, .inr ?_⟩
        · simpa only [seek, hread, hcontents, Option.bind_eq_bind, Option.bind_some, hmove,
            if_true] using hfound
        · rcases hplace with hprev | hrest
          · exact Option.some.inj hprev ▸ mem_cons_self
          · exact mem_cons_of_mem _ hrest
      · refine ⟨prev.getD candidate, ?_, ?_⟩
        · simp only [seek, hread, hcontents, Option.bind_eq_bind, Option.bind_some, hmove]
          rfl
        · cases prev <;> simp

/-- Linking a node into one layer. -/
theorem linkBehind_spec {members : ℕ → Prop} {prev : ℕ} {own : HNSWNode F}
    (hchain : ChainAt index level members) (hprev : members prev) (hfresh : ¬members node)
    (hbefore : index.nodes prev = some contents) (hbeforeLevel : level < contents.forward.length)
    (hnode : index.nodes node = some own) (hlevel : level < own.forward.length) :
    ∃ after, linkBehind index level node prev = some after ∧ SameNodes index after ∧
      (∀ layer, layer ≠ level → forwardAt after layer = forwardAt index layer) ∧
      ChainAt after level fun other => other = node ∨ members other := by
  obtain ⟨chain, hlinked, hnodup, hmembers⟩ := hchain
  obtain ⟨front, back, rfl, hlast⟩ := exists_lastOf_eq ((hmembers prev).2 hprev)
  have hread : forwardAt index level prev = some back.head? := by
    rw [← hlast]
    exact hlinked.drop.read_start
  obtain ⟨first, hfirst, hsameFirst, hforwardFirst⟩ := setForward_spec hnode hlevel back.head?
  obtain ⟨moved, hmoved, -, hmovedLength⟩ := hsameFirst.found hbefore
  obtain ⟨after, hafter, hsameAfter, hforward⟩ := setForward_spec hmoved
    (hmovedLength.symm ▸ hbeforeLevel) (some node)
  have hne : node ≠ prev := fun heq => hfresh (heq ▸ hprev)
  have hold : ∀ other ∈ 0 :: (front ++ back), other ≠ node := fun other hother heq =>
    hfresh (heq ▸ (hmembers other).1 hother)
  refine ⟨after, by simp [linkBehind, hread, hfirst, hafter], hsameFirst.trans hsameAfter,
    fun layer hlayer => ?_, front ++ node :: back, ?_, ?_, fun other => ?_⟩
  · funext other
    simp [hforward, hforwardFirst, hlayer]
  · refine hlinked.insert hnodup (fun other hother hother' => ?_) ?_ ?_
    · rw [hlast] at hother'
      simp [hforward, hforwardFirst, hother', hold other hother]
    · simp [hforward, hlast]
    · rw [hlast, hread]
      simp [hforward, hforwardFirst, hne]
  · have hperm : (0 :: (front ++ node :: back)).Perm (node :: 0 :: (front ++ back)) :=
      (perm_middle.cons 0).trans (.swap _ _ _)
    refine hperm.nodup_iff.2 (nodup_cons.2 ⟨fun hmem => ?_, hnodup⟩)
    exact hold node hmem rfl
  · have hmember := hmembers other
    simp only [mem_cons, mem_append] at hmember ⊢
    tauto

theorem ChainAt.congr {members others : ℕ → Prop} (hchain : ChainAt index level members)
    (hforward : forwardAt after level = forwardAt index level)
    (hmembers : ∀ node, others node ↔ members node) : ChainAt after level others := by
  obtain ⟨chain, hlinked, hnodup, hchain⟩ := hchain
  exact ⟨chain, hforward ▸ hlinked, hnodup, fun node => (hchain node).trans (hmembers node).symm⟩

/-- Links set in the layers that node 0 reaches keep what does not depend on links. -/
theorem Layered.relink {bound linked : ℕ → ℕ} (hlayered : Layered index bound)
    (hsame : SameNodes index after)
    (hlower : ∀ level, Tall index level 0 →
      ChainAt after level fun node => node < linked level ∧ Tall index level node)
    (hupper : ∀ level, ¬Tall index level 0 → forwardAt after level = forwardAt index level) :
    Layered after linked where
  stored := by
    intro node hnode
    rw [hsame.size_eq] at hnode
    obtain ⟨contents, hcontents, hlength, hmax⟩ := hlayered.stored node hnode
    obtain ⟨found, hfound, hlevel, hfoundLength⟩ := hsame.found hcontents
    exact ⟨found, hfound, by omega, by rw [hsame.maxLevel_eq]; omega⟩
  entry_eq := hsame.enterpointId_eq.trans hlayered.entry_eq
  lower := by
    intro level htall
    refine (hlower level (hsame.tall_iff.1 htall)).congr rfl fun node => ?_
    rw [hsame.tall_iff]
  upper := by
    intro level node hentry htall hnode
    rw [hsame.tall_iff] at hentry htall
    rw [hupper level hentry]
    exact hlayered.upper level node hentry htall (hsame.size_eq ▸ hnode)

/-- A chain visits each of finitely many nodes at most once. -/
theorem length_chain_le {chain : List ℕ} {bound : ℕ} (hnodup : (0 :: chain).Nodup)
    (hbound : ∀ node ∈ 0 :: chain, node < bound) : chain.length < bound := by
  have hsubset : (0 :: chain) ⊆ range bound := fun node hnode => mem_range.2 (hbound node hnode)
  have hle := (hnodup.subperm hsubset).length_le
  rwa [length_cons, length_range] at hle

/-- The greedy loop from node 0 ends at a node of the layer. -/
theorem seek_layer (closer : D → D → Bool) (dist : ℕ → D)
    (hchain : ChainAt index level fun other => other < node ∧ Tall index level other)
    (hsize : index.size = node + 1) :
    ∃ prev, seek index closer dist level (index.size + 1) none 0 (dist 0) = some prev ∧
      prev < node ∧ Tall index level prev := by
  obtain ⟨chain, hlinked, hnodup, hmembers⟩ := hchain
  have hstored : ∀ other ∈ 0 :: chain, ∃ contents, index.nodes other = some contents := by
    intro other hother
    obtain ⟨found, hfound, -⟩ := ((hmembers other).1 hother).2
    exact ⟨found, hfound⟩
  have hlength := length_chain_le hnodup fun other hother => ((hmembers other).1 hother).1
  obtain ⟨prev, hseek, hprev⟩ := seek_spec closer dist hlinked hstored
    (by omega : chain.length < index.size + 1) none (dist 0)
  refine ⟨prev, hseek, ?_⟩
  rcases hprev with hprev | hprev
  · cases hprev
  · exact (hmembers prev).1 hprev

/-- A layer that holds the new node, if the node reaches it, moves its bound by one. -/
theorem Layered.extend {bound : ℕ → ℕ} (hlayered : Layered index bound)
    (hbound : bound level = node) (hsame : SameNodes index after)
    (hforward : ∀ layer, layer ≠ level ∨ ¬Tall index level 0 →
      forwardAt after layer = forwardAt index layer)
    (hchain : Tall index level 0 → ChainAt after level fun other =>
      Tall index level other ∧ (other = node ∨ other < node)) :
    Layered after (Function.update bound level (node + 1)) := by
  refine hlayered.relink hsame (fun layer htall => ?_) fun layer hentry => ?_
  · by_cases hlayer : layer = level
    · subst hlayer
      refine (hchain htall).congr rfl fun other => ?_
      rw [Function.update_self, Nat.lt_succ_iff_lt_or_eq]
      tauto
    · refine (hlayered.lower layer htall).congr (hforward layer (.inl hlayer)) fun other => ?_
      rw [Function.update_of_ne hlayer]
  · by_cases hlayer : layer = level
    · exact hforward layer (.inr (hlayer ▸ hentry))
    · exact hforward layer (.inl hlayer)

/-- The body of the level loop links the new node into its layer. -/
theorem linkLevel_spec (closer : D → D → Bool) (dist : ℕ → ℕ → D) {bound : ℕ → ℕ}
    (hlayered : Layered index bound) (hsize : index.size = node + 1)
    (hnode : index.nodes node = some contents) (hbound : bound level = node) (hpos : 0 < node) :
    ∃ after, linkLevel closer dist node contents.level level index = some after ∧
      SameNodes index after ∧ Layered after (Function.update bound level (node + 1)) := by
  obtain ⟨entry, hentry, -⟩ := hlayered.stored 0 (by omega)
  by_cases hshort : contents.level < level
  · -- the node does not reach the layer
    have hnot : ¬Tall index level node := by
      rw [tall_iff hnode]
      omega
    refine ⟨index, by simp [linkLevel, hshort], .refl _,
      hlayered.extend hbound (.refl _) (fun _ _ => rfl) fun htall => ?_⟩
    refine (hlayered.lower level htall).congr rfl fun other => ?_
    rw [hbound]
    constructor
    · rintro ⟨hother, rfl | hlt⟩
      · exact absurd hother hnot
      · exact ⟨hlt, hother⟩
    · rintro ⟨hlt, hother⟩
      exact ⟨hother, .inr hlt⟩
  · by_cases hlow : entry.level < level
    · -- the entry point does not, so that the loop has nowhere to start
      have hentryLow : ¬Tall index level 0 := by
        rw [tall_iff hentry]
        omega
      exact ⟨index, by simp [linkLevel, hshort, hlayered.entry_eq, hentry, hlow], .refl _,
        hlayered.extend hbound (.refl _) (fun _ _ => rfl) fun htall => absurd htall hentryLow⟩
    · have htallEntry : Tall index level 0 := (tall_iff hentry).2 (not_lt.1 hlow)
      have htallNode : Tall index level node := (tall_iff hnode).2 (not_lt.1 hshort)
      have hchain := hlayered.lower level htallEntry
      rw [hbound] at hchain
      obtain ⟨prev, hseek, hprev⟩ := seek_layer closer (dist level) hchain hsize
      obtain ⟨before, hbefore, hbeforeLevel⟩ :=
        hlayered.tall_of_mem (by omega : prev < index.size) hprev.2
      obtain ⟨own, hown, hlevel⟩ := hlayered.tall_of_mem (by omega : node < index.size) htallNode
      obtain ⟨after, hafter, hsame, hforward, hlonger⟩ := linkBehind_spec hchain hprev
        (fun hself => absurd hself.1 (lt_irrefl _)) hbefore hbeforeLevel hown hlevel
      refine ⟨after, ?_, hsame, hlayered.extend hbound hsame (fun layer hlayer => ?_) fun _ => ?_⟩
      · simp [linkLevel, hshort, hlayered.entry_eq, hentry, hlow, hseek, hafter]
      · exact hforward layer (hlayer.resolve_right (not_not.2 htallEntry))
      · refine hlonger.congr rfl fun other => ?_
        constructor
        · rintro ⟨hother, rfl | hlt⟩
          · exact .inl rfl
          · exact .inr ⟨hlt, hother⟩
        · rintro (rfl | ⟨hlt, hother⟩)
          · exact ⟨htallNode, .inl rfl⟩
          · exact ⟨hother, .inr hlt⟩

theorem linkLevels_spec (closer : D → D → Bool) (dist : ℕ → ℕ → D) {bound : ℕ → ℕ}
    {levels : ℕ} (hlayered : Layered index bound) (hsize : index.size = node + 1)
    (hnode : index.nodes node = some contents) (hbound : ∀ level < levels, bound level = node)
    (hpos : 0 < node) :
    ∃ after, linkLevels closer dist node contents.level levels index = some after ∧
      SameNodes index after ∧
      Layered after fun level => if level < levels then node + 1 else bound level := by
  induction levels generalizing index bound contents with
  | zero => exact ⟨index, rfl, .refl _, by simpa using hlayered⟩
  | succ level ih =>
      obtain ⟨next, hnext, hsame, hlinked⟩ := linkLevel_spec closer dist hlayered hsize
        hnode (hbound level (by omega)) hpos
      obtain ⟨found, hfound, hlevel, -⟩ := hsame.found hnode
      obtain ⟨after, hafter, hsameAfter, hall⟩ := ih hlinked (hsame.size_eq.trans hsize) hfound
        (fun lower hlower => by rw [Function.update_of_ne (by omega), hbound lower (by omega)])
      rw [hlevel] at hafter
      refine ⟨after, by simp [linkLevels, hnext, hafter], hsame.trans hsameAfter, ?_⟩
      convert hall using 2 with layer
      by_cases hlayer : layer = level
      · subst hlayer
        simp
      · have hiff : layer < level + 1 ↔ layer < level := by omega
        simp [hiff, Function.update_of_ne hlayer]

/-- The index with a new node that is not linked yet. -/
def HNSWIndex.grow (index : HNSWIndex F) (node : HNSWNode F) : HNSWIndex F :=
  { index with
    nodes := Function.update index.nodes index.size (some { node with id := index.size })
    size := index.size + 1
    maxLevel := max node.level index.maxLevel }

theorem grow_forwardAt {node : HNSWNode F} {other : ℕ} (hother : other ≠ index.size) (level : ℕ) :
    forwardAt (index.grow node) level other = forwardAt index level other := by
  simp [forwardAt, HNSWIndex.grow, hother]

theorem grow_tall_iff {node : HNSWNode F} {other : ℕ} (hother : other ≠ index.size) :
    Tall (index.grow node) level other ↔ Tall index level other := by
  simp [Tall, HNSWIndex.grow, hother]

theorem grow_node (index : HNSWIndex F) (node : HNSWNode F) :
    (index.grow node).nodes index.size = some { node with id := index.size } :=
  Function.update_self _ _ _

theorem grow_layered {node : HNSWNode F}
    (hlayered : Layered index fun _ => index.size) (hpos : 0 < index.size)
    (hfresh : node.forward = replicate (node.level + 1) none) :
    Layered (index.grow node) fun _ => index.size where
  stored := by
    intro other hother
    by_cases hnew : other = index.size
    · subst hnew
      exact ⟨_, grow_node index node, by simp [hfresh], le_max_left _ _⟩
    · have hold : other < index.size := by
        simp only [HNSWIndex.grow] at hother
        omega
      obtain ⟨contents, hcontents, hlength, hmax⟩ := hlayered.stored other hold
      exact ⟨contents, by simp [HNSWIndex.grow, hnew, hcontents], hlength,
        hmax.trans (le_max_right _ _)⟩
  entry_eq := hlayered.entry_eq
  lower := by
    intro level htall
    rw [grow_tall_iff hpos.ne] at htall
    obtain ⟨chain, hlinked, hnodup, hmembers⟩ := hlayered.lower level htall
    have hne : ∀ other ∈ 0 :: chain, other ≠ index.size := fun other hother =>
      ((hmembers other).1 hother).1.ne
    refine ⟨chain, hlinked.congr fun other hother => grow_forwardAt (hne other hother) level,
      hnodup, fun other => (hmembers other).trans ?_⟩
    constructor
    · rintro ⟨hlt, hother⟩
      exact ⟨hlt, (grow_tall_iff hlt.ne).2 hother⟩
    · rintro ⟨hlt, hother⟩
      exact ⟨hlt, (grow_tall_iff hlt.ne).1 hother⟩
  upper := by
    intro level other hentry htall hother
    rw [grow_tall_iff hpos.ne] at hentry
    by_cases hnew : other = index.size
    · subst hnew
      obtain ⟨contents, hcontents, hlevel⟩ := htall
      obtain rfl := Option.some.inj ((grow_node index node).symm.trans hcontents)
      have hlt : level < node.level + 1 := Nat.lt_succ_of_le hlevel
      simp [forwardAt, hcontents, hfresh, hlt]
    · have hold : other < index.size := by
        simp only [HNSWIndex.grow] at hother
        omega
      rw [grow_forwardAt hnew]
      exact hlayered.upper level other hentry ((grow_tall_iff hnew).1 htall) hold

/-- A lone node is a chain in every layer that it reaches. -/
theorem grow_chained_first {node : HNSWNode F} (hchained : index.Chained) (hempty : index.size = 0)
    (hfresh : node.forward = replicate (node.level + 1) none) : (index.grow node).Chained := by
  have hnode := grow_node index node
  rw [hempty] at hnode
  have hmax : (index.grow node).maxLevel = node.level := by
    rcases hchained.top with ⟨-, hzero⟩ | ⟨other, hother, -⟩
    · simp [HNSWIndex.grow, hzero]
    · omega
  have hsize : (index.grow node).size = 1 := by simp [HNSWIndex.grow, hempty]
  have hown : ∀ level, Tall (index.grow node) level 0 →
      forwardAt (index.grow node) level 0 = some none := by
    rintro level ⟨contents, hcontents, hlevel⟩
    obtain rfl := Option.some.inj (hnode.symm.trans hcontents)
    have hlt : level < node.level + 1 := Nat.lt_succ_of_le hlevel
    simp [forwardAt, hcontents, hfresh, hlt]
  refine ⟨⟨fun other hother => ?_, hchained.layered.entry_eq, fun level htall => ?_,
    fun level other hentry htall hother => ?_⟩, .inr ⟨0, by omega, _, hnode, hmax.le⟩⟩
  · obtain rfl : other = 0 := by omega
    exact ⟨_, hnode, by simp [hfresh], hmax.ge⟩
  · refine ⟨[], hown level htall, by simp, fun other => ?_⟩
    rw [mem_singleton, hsize]
    constructor
    · rintro rfl
      exact ⟨Nat.one_pos, htall⟩
    · rintro ⟨hlt, -⟩
      omega
  · obtain rfl : other = 0 := by omega
    exact absurd htall hentry

/-- An insertion either finds the index full or adds the node, and changes no other node
but for its links. -/
theorem insertHnsw_spec (closer : D → D → Bool) (dist : ℕ → ℕ → D) {node : HNSWNode F}
    (hchained : index.Chained) (hfresh : node.forward = replicate (node.level + 1) none) :
    (maxElements ≤ index.size ∧ insertHnsw closer dist index node = some (index, -1)) ∨
      (index.size < maxElements ∧ ∃ after, insertHnsw closer dist index node = some (after, 0) ∧
        after.Chained ∧ SameNodes (index.grow node) after) := by
  by_cases hfull : maxElements ≤ index.size
  · exact .inl ⟨hfull, by simp [insertHnsw, hfull]⟩
  · refine .inr ⟨not_le.1 hfull, ?_⟩
    by_cases hfirst : index.size = 0
    · refine ⟨index.grow node, ?_, grow_chained_first hchained hfirst hfresh, .refl _⟩
      have hzero : index.maxLevel = 0 := by
        rcases hchained.top with ⟨-, hzero⟩ | ⟨other, hother, -⟩
        · exact hzero
        · omega
      have hentry := hchained.layered.entry_eq
      simp [insertHnsw, HNSWIndex.grow, hfirst, hzero, hentry, maxElements]
    · have hpos : 0 < index.size := Nat.pos_of_ne_zero hfirst
      obtain ⟨after, hafter, hsame, hlayered⟩ := linkLevels_spec closer dist
        (grow_layered hchained.layered hpos hfresh) rfl (grow_node index node)
        (fun level (_ : level < (index.grow node).maxLevel + 1) => rfl) hpos
      have hsize : after.size = index.size + 1 := hsame.size_eq
      refine ⟨after, ?_, ⟨?_, .inr ?_⟩, hsame⟩
      · simp only [HNSWIndex.grow] at hafter
        simp [insertHnsw, hfull, hfirst, hafter]
      · refine hlayered.relink (.refl _) (fun level htall => ?_) fun _ _ => rfl
        have hchain := hlayered.lower level htall
        obtain ⟨entry, hentry, hlevel⟩ := htall
        obtain ⟨found, hfound, -, hmax⟩ := hlayered.stored 0 (by omega)
        obtain rfl : found = entry := by simpa [hfound] using hentry
        rw [hsame.maxLevel_eq] at hmax
        rw [if_pos (by omega)] at hchain
        rw [hsize]
        exact hchain
      · rw [hsame.maxLevel_eq]
        rcases le_total index.maxLevel node.level with hle | hle
        · exact ⟨index.size, by omega,
            hsame.tall_iff.2 ⟨_, grow_node index node, max_le le_rfl hle⟩⟩
        · rcases hchained.top with ⟨hzero, -⟩ | ⟨other, hother, htall⟩
          · omega
          · refine ⟨other, by omega, hsame.tall_iff.2 ((grow_tall_iff hother.ne).2 ?_)⟩
            simpa [HNSWIndex.grow, max_eq_right hle] using htall

/-! ## Search -/

theorem Tall.lower {lower : ℕ} (htall : Tall index level node) (hle : lower ≤ level) :
    Tall index lower node := by
  obtain ⟨contents, hcontents, hlevel⟩ := htall
  exact ⟨contents, hcontents, hle.trans hlevel⟩

theorem descendLevel_spec (closer : D → D → Bool) (dist : ℕ → D) {chain : List ℕ} {curr : ℕ}
    (hchain : Linked (forwardAt index level) curr chain)
    (hstored : ∀ node ∈ chain, ∃ contents, index.nodes node = some contents) {fuel : ℕ}
    (hfuel : chain.length < fuel) (best : D) :
    ∃ final, descendLevel index closer dist level fuel curr best = some final ∧
      final ∈ curr :: chain := by
  induction chain generalizing curr fuel best with
  | nil =>
      obtain ⟨fuel, rfl⟩ : ∃ less, fuel = less + 1 := ⟨fuel - 1, by omega⟩
      have hread : forwardAt index level curr = some none := hchain
      exact ⟨curr, by simp [descendLevel, hread], mem_cons_self⟩
  | cons next chain ih =>
      rw [length_cons] at hfuel
      obtain ⟨fuel, rfl⟩ : ∃ less, fuel = less + 1 := ⟨fuel - 1, by omega⟩
      have hread : forwardAt index level curr = some (some next) := hchain.1
      obtain ⟨contents, hcontents⟩ := hstored next mem_cons_self
      by_cases hmove : (!contents.isDeleted && closer (dist next) best) = true
      · obtain ⟨final, hfinal, hplace⟩ := ih hchain.2
          (fun node hnode => hstored node (mem_cons_of_mem _ hnode))
          (by omega : chain.length < fuel) (dist next)
        refine ⟨final, ?_, mem_cons_of_mem _ hplace⟩
        simpa only [descendLevel, hread, hcontents, Option.bind_eq_bind, Option.bind_some, hmove,
          if_true] using hfinal
      · refine ⟨curr, ?_, mem_cons_self⟩
        simp only [descendLevel, hread, hcontents, Option.bind_eq_bind, Option.bind_some, hmove]
        rfl

/-- One round of the descent stays on the chain of its layer. -/
theorem descendAt_spec (closer : D → D → Bool) (dist : SearchDistances D) {curr : ℕ}
    (hlayered : Layered index fun _ => index.size) (hcurr : curr < index.size)
    (hplace : curr = 0 ∨ Tall index level 0 ∧ Tall index level curr) :
    ∃ final, descendAt index closer dist level curr = some final ∧ final < index.size ∧
      (final = 0 ∨ Tall index level 0 ∧ Tall index level final) := by
  obtain ⟨contents, hcontents, -⟩ := hlayered.stored curr hcurr
  by_cases hshort : contents.level < level
  · exact ⟨curr, by simp [descendAt, hcontents, hshort], hcurr, hplace⟩
  · have htall : Tall index level curr := ⟨contents, hcontents, by omega⟩
    have hentry : Tall index level 0 := by
      rcases hplace with rfl | ⟨hentry, -⟩
      · exact htall
      · exact hentry
    obtain ⟨chain, hlinked, hnodup, hmembers⟩ := hlayered.lower level hentry
    obtain ⟨front, back, rfl, hlast⟩ := exists_lastOf_eq ((hmembers curr).2 ⟨hcurr, htall⟩)
    have hback : ∀ node ∈ back, node < index.size ∧ Tall index level node := fun node hnode =>
      (hmembers node).1 (mem_cons_of_mem _ (mem_append_right _ hnode))
    have hfuel : back.length < index.size + 1 := by
      have hlength := length_chain_le hnodup fun node hnode => ((hmembers node).1 hnode).1
      rw [length_append] at hlength
      omega
    obtain ⟨final, hfinal, hmem⟩ := descendLevel_spec closer (dist.along level)
      (hlast ▸ hlinked.drop)
      (fun node hnode => (hback node hnode).2.imp fun _ hfound => hfound.1) hfuel
      (dist.start level curr)
    refine ⟨final, by simp [descendAt, hcontents, hshort, hfinal], ?_⟩
    rcases mem_cons.1 hmem with rfl | hmem
    · exact ⟨hcurr, .inr ⟨hentry, htall⟩⟩
    · exact ⟨(hback final hmem).1, .inr ⟨hentry, (hback final hmem).2⟩⟩

theorem descend_spec (closer : D → D → Bool) (dist : SearchDistances D) {curr : ℕ}
    (hlayered : Layered index fun _ => index.size) (hcurr : curr < index.size)
    (hplace : curr = 0 ∨ Tall index level 0 ∧ Tall index level curr) :
    ∃ final, descend index closer dist level curr = some final ∧ final < index.size := by
  induction level generalizing curr with
  | zero => exact ⟨curr, rfl, hcurr⟩
  | succ level ih =>
      obtain ⟨next, hnext, hstored, hafter⟩ := descendAt_spec closer dist hlayered hcurr hplace
      obtain ⟨final, hfinal, hlt⟩ := ih hstored
        (hafter.imp_right fun htall => ⟨htall.1.lower level.le_succ, htall.2.lower level.le_succ⟩)
      exact ⟨final, by simp [descend, hnext, hfinal], hlt⟩

/-- A search of a chained index has a result. -/
theorem searchHnsw_isSome (closer : D → D → Bool) (dist : SearchDistances D)
    (hchained : index.Chained) (k : ℕ) : ∃ found, searchHnsw index closer dist k = some found := by
  have hdescent : index.enterpointId < index.size →
      ∃ curr, descent index closer dist = some curr := by
    intro hentry
    unfold descent
    split
    · rw [hchained.layered.entry_eq] at hentry ⊢
      obtain ⟨final, hfinal, -⟩ := descend_spec closer dist hchained.layered hentry (.inl rfl)
      exact ⟨some final, by rw [hfinal]; rfl⟩
    · exact ⟨none, rfl⟩
  by_cases hempty : index.size = 0 ∨ index.size ≤ index.enterpointId
  · exact ⟨[], by simp [searchHnsw, hempty]⟩
  · obtain ⟨curr, hcurr⟩ := hdescent (by omega)
    exact ⟨_, by simp only [searchHnsw, hempty, if_false, hcurr]; rfl⟩

/-! ## The engine interface -/

theorem chained_markDeleted {vec : KvsVector F} (hchained : vec.index.Chained) (node : ℕ) :
    (markDeleted vec node).index.Chained := by
  have hnodes : ∀ other, ∃ deleted : HNSWNode F → Bool, (markDeleted vec node).index.nodes other =
      (vec.index.nodes other).map fun contents =>
        { contents with isDeleted := deleted contents } := by
    intro other
    by_cases hother : other = node
    · exact ⟨fun _ => true, by simp [markDeleted, hother]⟩
    · exact ⟨HNSWNode.isDeleted, by simp [markDeleted, hother]⟩
  have hforward : forwardAt (markDeleted vec node).index = forwardAt vec.index := by
    funext level other
    obtain ⟨deleted, hother⟩ := hnodes other
    rw [forwardAt, forwardAt, hother]
    cases vec.index.nodes other <;> rfl
  have htall : ∀ level other, Tall (markDeleted vec node).index level other ↔
      Tall vec.index level other := by
    intro level other
    obtain ⟨deleted, hother⟩ := hnodes other
    rw [Tall, Tall, hother]
    cases vec.index.nodes other <;> simp
  obtain ⟨⟨hstored, hentry, hlower, hupper⟩, htop⟩ := hchained
  refine ⟨⟨fun other hother => ?_, hentry, fun level hlevel => ?_,
    fun level other hlow hother hlt => ?_⟩, ?_⟩
  · obtain ⟨contents, hcontents, hlength, hmax⟩ := hstored other hother
    obtain ⟨deleted, hdeleted⟩ := hnodes other
    exact ⟨{ contents with isDeleted := deleted contents }, by rw [hdeleted, hcontents]; rfl,
      hlength, hmax⟩
  · refine (hlower level ((htall _ _).1 hlevel)).congr (congrFun hforward level) fun other => ?_
    rw [htall]
    rfl
  · rw [hforward]
    exact hupper level other (fun hentry => hlow ((htall _ _).2 hentry)) ((htall _ _).1 hother) hlt
  · exact htop.imp_right fun ⟨other, hlt, hother⟩ => ⟨other, hlt, (htall _ _).2 hother⟩

section Interface

variable [CFloat F]

/-- What an insertion leaves of the grown index: the first older node with the key is
marked. -/
def retire (index : HNSWIndex F) (key : CStr) : HNSWIndex F :=
  match findNode index key (index.size - 1) with
  | none => index
  | some old => (markDeleted { index := index, count := 0 } old).index

omit [CFloat F] in
theorem retire_chained (hchained : index.Chained) (key : CStr) : (retire index key).Chained := by
  have hplain : (KvsVector.mk index 0).index.Chained := hchained
  unfold retire
  split
  · exact hchained
  · exact chained_markDeleted hplain _

omit [CFloat F] in
theorem hnswCreateNode_fresh {alloc : Alloc} {id : ℕ} {vector : List F} {key : CStr}
    {node : HNSWNode F} (hnode : hnswCreateNode alloc id vector level key = some node) :
    node.level = level ∧ node.forward = replicate (node.level + 1) none ∧
      node.vector = vector ∧ node.isDeleted = false ∧
      node.key = if alloc 3 then some key else none := by
  unfold hnswCreateNode at hnode
  split at hnode
  · simp only [Option.some.injEq] at hnode
    subst hnode
    exact ⟨rfl, rfl, rfl, rfl, rfl⟩
  · cases hnode

/-- An insertion fails for want of memory or of room, or adds a node. -/
theorem insertVector_cases (chance : VectorChance F) {vec : KvsVector F}
    (hchained : vec.index.Chained) (key : CStr) (vector : List F) :
    ((hnswCreateNode chance.alloc vec.index.size vector (randomLevel chance.draws) key = none ∨
        maxElements ≤ vec.index.size) ∧ insertVector chance vec key vector = some (vec, -1)) ∨
      ∃ node grown count,
        hnswCreateNode chance.alloc vec.index.size vector (randomLevel chance.draws) key =
          some node ∧
        vec.index.size < maxElements ∧ SameNodes (vec.index.grow node) grown ∧ grown.Chained ∧
        insertVector chance vec key vector =
          some ({ index := retire grown key, count := count }, 0) := by
  let dist := fun level other => euclideanDistance (chance.beyond level other) vector
    (vectorAt vec.index other) maxDim
  cases hnode : hnswCreateNode chance.alloc vec.index.size vector (randomLevel chance.draws)
      key with
  | none => exact .inl ⟨.inl rfl, by simp only [insertVector, hnode]⟩
  | some node =>
      rcases insertHnsw_spec CFloat.lt dist hchained (hnswCreateNode_fresh hnode).2.1 with
        ⟨hfull, hinsert⟩ | ⟨hroom, grown, hinsert, hgrown, hsame⟩
      · refine .inl ⟨.inr hfull, ?_⟩
        simp only [insertVector, hnode]
        rw [hinsert]
        rfl
      · cases hold : findNode grown key (grown.size - 1) with
        | none =>
            refine .inr ⟨node, grown, vec.count + 1, rfl, hroom, hsame, hgrown, ?_⟩
            simp only [insertVector, hnode]
            rw [hinsert]
            simp [retire, hold]
        | some old =>
            refine .inr ⟨node, grown, vec.count - 1 + 1, rfl, hroom, hsame, hgrown, ?_⟩
            simp only [insertVector, hnode]
            rw [hinsert]
            simp [retire, hold, markDeleted]

theorem insertVector_spec (chance : VectorChance F) {vec : KvsVector F}
    (hchained : vec.index.Chained) (key : CStr) (vector : List F) :
    ∃ after code, insertVector chance vec key vector = some (after, code) ∧
      after.index.Chained := by
  rcases insertVector_cases chance hchained key vector with
    ⟨-, hinsert⟩ | ⟨node, grown, count, -, -, -, hgrown, hinsert⟩
  · exact ⟨vec, -1, hinsert, hchained⟩
  · exact ⟨_, 0, hinsert, retire_chained hgrown key⟩

/-- Whatever is allocated and drawn, a call of `kvs_vector_set` has a result and keeps the
layers. -/
theorem kvsVectorSet_spec (chance : VectorChance F) {vec : KvsVector F}
    (hchained : vec.index.Chained) (key value : Option CStr) :
    ∃ after code, kvsVectorSet chance vec key value = some (after, code) ∧
      after.index.Chained := by
  cases key with
  | none => exact ⟨vec, -1, rfl, hchained⟩
  | some key =>
      cases value with
      | none => exact ⟨vec, -1, rfl, hchained⟩
      | some value =>
          simp only [kvsVectorSet]
          split
          · exact ⟨vec, -1, rfl, hchained⟩
          · split
            · exact ⟨vec, -1, rfl, hchained⟩
            · exact insertVector_spec chance hchained key _

theorem kvsVectorSearch_isSome (chance : VectorChance F) {vec : KvsVector F}
    (hchained : vec.index.Chained) (k : ℕ) (key query : Option CStr) :
    ∃ count found, kvsVectorSearch chance vec k key query = some (count, found) := by
  cases key with
  | none => exact ⟨-1, [], rfl⟩
  | some key =>
      cases query with
      | none => exact ⟨-1, [], rfl⟩
      | some text =>
          simp only [kvsVectorSearch]
          split
          · exact ⟨0, [], rfl⟩
          · split
            · exact ⟨0, [], rfl⟩
            · split
              · exact ⟨0, [], rfl⟩
              · split
                · exact ⟨-1, [], rfl⟩
                · have hsearch : ∀ dist : SearchDistances F,
                      ∃ found, searchHnsw vec.index CFloat.lt dist k = some found := fun dist =>
                    searchHnsw_isSome CFloat.lt dist hchained k
                  obtain ⟨found, hfound⟩ := hsearch _
                  rw [hfound]
                  exact ⟨_, _, rfl⟩

omit [CFloat F] in
theorem chained_kvsVectorDel {vec : KvsVector F} (hchained : vec.index.Chained)
    (key : Option CStr) : (kvsVectorDel vec key).1.index.Chained := by
  unfold kvsVectorDel
  split
  · exact hchained
  · split
    · exact hchained
    · exact chained_markDeleted hchained _

end Interface

end LiteMultiKV.Vector
