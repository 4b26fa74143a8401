import LiteMultiKV.Core.HeapTrace
import LiteMultiKV.Engine.Failures

/-!
# The memory of the hash engine

What the hash engine takes from `kvs_malloc` and hands to `kvs_free` in a run of calls, from
`kvs_hash_create` to `kvs_hash_destroy`.  A replacement frees the old value first; when the new
one cannot be allocated, the node still points at what has been freed.  This file decides when
the whole run frees every block once.
-/

namespace LiteMultiKV.Hash

open List CText Dictionary Families HeapTrace Memory Run

/-! ## Calls of the allocator -/

/-- The bucket table, a node, a copy of a string, or what a dangling pointer points at, which is
no block. -/
inductive Block where
  | table
  | link
  | text (contents : CStr)
  | dangling
  deriving DecidableEq

abbrev Trace := List (HeapCall Block)

/-- The block that a `char *` owns. -/
def ptrBlocks : StrPtr → List Block
  | .text contents => [.text contents]
  | _ => []

/-- `kvs_free` of a `char *`. -/
def freePtr : StrPtr → Trace
  | .null => []
  | .freed => [.free .dangling]
  | .text contents => [.free (.text contents)]

/-- A node with its copies. -/
def nodeBlocks (node : Σ _ : CStr, StrPtr) : List Block :=
  [.link, .text node.1] ++ ptrBlocks node.2

/-- The blocks of the engine. -/
def blocks (store : Store) : List Block :=
  .table :: store.flatMap nodeBlocks

def createNodeTrace (key value : CStr) : Trace :=
  [.malloc .link, .malloc (.text key), .malloc (.text value)]

def freeNode (node : Σ _ : CStr, StrPtr) : Trace :=
  [.free (.text node.1)] ++ freePtr node.2 ++ [.free .link]

/-- The node of a chain that holds the key. -/
def foundNode (hash : KvsHash) (key : CStr) : Option (Σ _ : CStr, StrPtr) :=
  (bucket key).bind fun index => (hash.nodes index).find? (holdsKey key)

def kvsHashCreateTrace : Trace :=
  [.malloc .table]

/-- A denied allocation has no trace: the missing node is used at once. -/
def kvsHashSetTrace (hash : KvsHash) : Option CStr → Option CStr → Trace
  | some key, some value =>
      match foundNode hash key with
      | some _ => []
      | none => createNodeTrace key value
  | _, _ => []

def kvsHashModTrace (alloc : Alloc) (hash : KvsHash) : Option CStr → Option CStr → Trace
  | some key, some value =>
      match foundNode hash key with
      | none => []
      | some node => freePtr node.2 ++ if alloc 0 then [.malloc (.text value)] else []
  | _, _ => []

def kvsHashDelTrace (hash : KvsHash) : Option CStr → Trace
  | none => []
  | some key =>
      match foundNode hash key with
      | none => []
      | some node => freeNode node

def kvsHashDestroy (hash : KvsHash) : Trace :=
  ((List.range hash.maxSlots).flatMap fun index => (hash.nodes index).flatMap freeNode) ++
    [.free .table]

/-- No value points at freed memory. -/
def Undangling (store : Store) : Prop :=
  ∀ node ∈ store, node.2 ≠ .freed

/-! ## Effects -/

/-- What a call does to the pairs, with the calls of the allocator that it makes.  A value is
lost if it has been freed and its node still points at it. -/
inductive Effect (lost : Prop) (before after : Store) : Trace → Prop
  | unchanged (hkept : ¬lost) (hstore : after = before) : Effect lost before after []
  | inserted {key value : CStr} (hkept : ¬lost)
      (hsplice : Splice [] [entry key (.text value)] before after) :
      Effect lost before after (createNodeTrace key value)
  | removed {node : Σ _ : CStr, StrPtr} (hkept : ¬lost)
      (hsplice : Splice [node] [] before after) : Effect lost before after (freeNode node)
  | replaced {key : CStr} {old new : StrPtr} (hlost : lost ↔ new = .freed)
      (hsplice : Splice [entry key old] [entry key new] before after) :
      Effect lost before after (freePtr old ++ (ptrBlocks new).map .malloc)

section Effects

variable {lost : Prop} {before after : Store} {calls : Trace}

theorem freePtr_eq {pointer : StrPtr} (hpointer : pointer ≠ .freed) :
    freePtr pointer = (ptrBlocks pointer).map .free := by
  cases pointer with
  | null => rfl
  | freed => exact absurd rfl hpointer
  | text contents => rfl

/-- What a splice does to the blocks. -/
theorem blocks_splice {old new : Store} (hsplice : Splice old new before after) :
    ∃ rest, (blocks before).Perm (old.flatMap nodeBlocks ++ rest) ∧
      (blocks after).Perm (new.flatMap nodeBlocks ++ rest) := by
  obtain ⟨front, back, rfl, rfl⟩ := hsplice
  have hmove (middle : Store) : (blocks (front ++ middle ++ back)).Perm
      (middle.flatMap nodeBlocks ++ (blocks front ++ back.flatMap nodeBlocks)) := by
    rw [blocks, flatMap_append, flatMap_append, ← append_assoc, ← cons_append, ← cons_append]
    exact perm_append_comm.append_right _
  exact ⟨blocks front ++ back.flatMap nodeBlocks, hmove old, hmove new⟩

theorem Undangling.splice {old new : Store} (hbefore : Undangling before)
    (hsplice : Splice old new before after) (hnew : Undangling new) : Undangling after := by
  intro node hnode
  rcases hsplice.mem_after hnode with hold | hadded
  · exact hbefore node hold
  · exact hnew node hadded

/-- A node that is taken out did not dangle. -/
theorem Undangling.ne_freed {node : Σ _ : CStr, StrPtr} {new : Store} (hbefore : Undangling before)
    (hsplice : Splice [node] new before after) : node.2 ≠ .freed := by
  obtain ⟨front, back, hstore, -⟩ := hsplice
  exact hbefore node (by simp [hstore])

/-- The frees of a node, in the order of its blocks. -/
theorem freeNode_perm {node : Σ _ : CStr, StrPtr} (hvalue : node.2 ≠ .freed) :
    (freeNode node).Perm ((nodeBlocks node).map .free) := by
  rw [freeNode, freePtr_eq hvalue, nodeBlocks, map_append]
  exact perm_append_comm

/-- An engine without dangling values stays in balance with the allocator. -/
theorem Effect.leads (heffect : Effect lost before after calls) (hbefore : Undangling before) :
    Leads (blocks before) calls (blocks after) := by
  cases heffect with
  | unchanged _ hstore =>
      rw [hstore]
      exact leads_nil _
  | @inserted key value _ hsplice =>
      obtain ⟨rest, hold, hnew⟩ := blocks_splice hsplice
      exact leads_taken [.link, .text key, .text value] (hnew.trans (hold.symm.append_left _))
  | @removed node _ hsplice =>
      obtain ⟨rest, hold, hnew⟩ := blocks_splice hsplice
      rw [flatMap_singleton] at hold
      have hgiven : (blocks before).Perm
          ([.text node.1] ++ ptrBlocks node.2 ++ [.link] ++ blocks after) := by
        have hlast : ([Block.link] ++ ([Block.text node.1] ++ ptrBlocks node.2)).Perm
            ([Block.text node.1] ++ ptrBlocks node.2 ++ [Block.link]) := perm_append_comm
        exact hold.trans (hlast.append hnew.symm)
      rw [freeNode, freePtr_eq (hbefore.ne_freed hsplice)]
      have hleads := leads_given _ hgiven
      rw [map_append, map_append] at hleads
      exact hleads
  | @replaced key old new _ hsplice =>
      obtain ⟨rest, hold, hnew⟩ := blocks_splice hsplice
      have hmove (pointer : StrPtr) : ([entry key pointer].flatMap nodeBlocks ++ rest).Perm
          (ptrBlocks pointer ++ ([.link, .text key] ++ rest)) := by
        rw [flatMap_singleton, nodeBlocks, append_assoc]
        exact perm_append_comm_assoc _ _ _
      rw [freePtr_eq (hbefore.ne_freed hsplice)]
      exact (leads_given _ (hold.trans (hmove old))).append
        (leads_taken _ (hnew.trans (hmove new)))

/-- Only a lost value dangles. -/
theorem Effect.undangling (heffect : Effect lost before after calls) (hkept : ¬lost)
    (hbefore : Undangling before) : Undangling after := by
  cases heffect with
  | unchanged _ hstore => rwa [hstore]
  | inserted _ hsplice => exact hbefore.splice hsplice (by simp [Undangling])
  | removed _ hsplice => exact hbefore.splice hsplice (by simp [Undangling])
  | replaced hlost hsplice =>
      exact hbefore.splice hsplice (by simpa [Undangling] using hlost.not.1 hkept)

theorem Effect.dangling (heffect : Effect lost before after calls) (hlost : lost) :
    ¬Undangling after := by
  cases heffect with
  | unchanged hkept => exact absurd hlost hkept
  | inserted hkept => exact absurd hlost hkept
  | removed hkept => exact absurd hlost hkept
  | @replaced key old new hiff hsplice =>
      obtain ⟨front, back, -, hafter⟩ := hsplice
      intro hundangling
      exact hundangling (entry key new) (by simp [hafter]) (hiff.1 hlost)

/-- A value that dangles does so until it is freed a second time. -/
theorem Effect.freed_twice (heffect : Effect lost before after calls)
    (hbefore : ¬Undangling before) :
    HeapCall.free Block.dangling ∈ calls ∨ ¬Undangling after := by
  simp only [Undangling, not_forall, not_not] at hbefore
  obtain ⟨node, hnode, hfreed⟩ := hbefore
  have hmet {old new : Store} (hsplice : Splice old new before after) :
      node ∈ old ∨ ¬Undangling after := by
    obtain ⟨front, back, rfl, rfl⟩ := hsplice
    simp only [mem_append] at hnode
    rcases hnode with (hfront | hold) | hback
    · exact .inr fun hundangling => hundangling node (by simp [hfront]) hfreed
    · exact .inl hold
    · exact .inr fun hundangling => hundangling node (by simp [hback]) hfreed
  cases heffect with
  | unchanged _ hstore =>
      exact .inr fun hundangling => hundangling node (hstore ▸ hnode) hfreed
  | inserted _ hsplice => exact .inr ((hmet hsplice).resolve_left (by simp))
  | removed _ hsplice =>
      refine (hmet hsplice).imp_left fun hold => ?_
      obtain rfl := mem_singleton.1 hold
      simp [freeNode, hfreed, freePtr]
  | @replaced key old new _ hsplice =>
      refine (hmet hsplice).imp_left fun hold => ?_
      obtain rfl := mem_singleton.1 hold
      obtain rfl : old = .freed := hfreed
      simp [freePtr]

theorem not_mem_freePtr (pointer : StrPtr) (block : Block) :
    HeapCall.malloc block ∉ freePtr pointer := by
  cases pointer <;> simp [freePtr]

theorem Effect.not_malloc (heffect : Effect lost before after calls) :
    HeapCall.malloc Block.dangling ∉ calls := by
  cases heffect with
  | unchanged => simp
  | inserted => simp [createNodeTrace]
  | removed => simp [freeNode, not_mem_freePtr]
  | @replaced key old new => cases new <;> simp [ptrBlocks, not_mem_freePtr]

end Effects

/-! ## Operations -/

variable {hash after : KvsHash} {code : ℤ}

theorem foundNode_eq (hvalid : Valid hash) {key : CStr} {index : ℕ}
    (hbucket : bucket key = some index) :
    foundNode hash key = (denote (entries hash) key).map (entry key) := by
  rw [foundNode, hbucket, Option.bind_some, denote_entries hvalid hbucket, denote_chain]
  cases hfind : (hash.nodes index).find? (holdsKey key) with
  | none => rfl
  | some node =>
      have hkey := holdsKey_iff.1 (find?_some hfind)
      rw [Option.map_some, Option.map_some, ← hkey]

theorem set_effect (hvalid : Valid hash) {alloc : Alloc} {key value : Option CStr}
    (hset : kvsHashSet alloc hash key value = some (after, code)) :
    Effect False (entries hash) (entries after) (kvsHashSetTrace hash key value) ∧
      Valid after := by
  cases key with
  | none =>
      cases hset
      exact ⟨.unchanged not_false rfl, hvalid⟩
  | some key =>
      cases value with
      | none =>
          cases hset
          exact ⟨.unchanged not_false rfl, hvalid⟩
      | some value =>
          cases hbucket : bucket key with
          | none => simp [kvsHashSet, hbucket] at hset
          | some index =>
              rw [kvsHashSetTrace, foundNode_eq hvalid hbucket]
              cases hpresent : denote (entries hash) key with
              | some old =>
                  rw [set_present hvalid hbucket (by simp [hpresent])] at hset
                  cases hset
                  exact ⟨.unchanged not_false rfl, hvalid⟩
              | none =>
                  cases halloc : alloc 0 && alloc 1 && alloc 2 with
                  | false =>
                      rw [set_denied hvalid hbucket hpresent halloc] at hset
                      cases hset
                  | true =>
                      obtain ⟨inst, hinsert, hinst, hsplice⟩ :=
                        set_absent hvalid hbucket hpresent value
                      have hsame : kvsHashSet alloc hash (some key) (some value) =
                          kvsHashSet allocOk hash (some key) (some value) := by
                        simp [kvsHashSet, halloc]
                      rw [← hsame, hset] at hinsert
                      cases hinsert
                      exact ⟨.inserted not_false hsplice, hinst⟩

theorem del_effect (hvalid : Valid hash) {key : Option CStr}
    (hdel : kvsHashDel hash key = some (after, code)) :
    Effect False (entries hash) (entries after) (kvsHashDelTrace hash key) ∧ Valid after := by
  cases key with
  | none =>
      cases hdel
      exact ⟨.unchanged not_false rfl, hvalid⟩
  | some key =>
      cases hbucket : bucket key with
      | none => simp [kvsHashDel, hbucket] at hdel
      | some index =>
          rw [kvsHashDelTrace, foundNode_eq hvalid hbucket]
          cases hpresent : denote (entries hash) key with
          | none =>
              rw [del_absent hvalid hbucket hpresent] at hdel
              cases hdel
              exact ⟨.unchanged not_false rfl, hvalid⟩
          | some old =>
              obtain ⟨inst, hremove, hinst, hsplice⟩ := del_present hvalid hbucket hpresent
              rw [hdel] at hremove
              cases hremove
              exact ⟨.removed not_false hsplice, hinst⟩

/-- A replacement without a new value leaves the old one dangling. -/
theorem mod_effect (hvalid : Valid hash) {alloc : Alloc} {key value : Option CStr}
    (hmod : kvsHashMod alloc hash key value = some (after, code)) :
    Effect (code = -2) (entries hash) (entries after) (kvsHashModTrace alloc hash key value) ∧
      Valid after := by
  cases key with
  | none =>
      cases hmod
      exact ⟨.unchanged (by decide) rfl, hvalid⟩
  | some key =>
      cases hbucket : bucket key with
      | none => simp [kvsHashMod, hbucket] at hmod
      | some index =>
          cases hpresent : denote (entries hash) key with
          | none =>
              rw [mod_absent hvalid hbucket hpresent] at hmod
              cases hmod
              cases value with
              | none => exact ⟨.unchanged (by decide) rfl, hvalid⟩
              | some value =>
                  rw [kvsHashModTrace, foundNode_eq hvalid hbucket, hpresent]
                  exact ⟨.unchanged (by decide) rfl, hvalid⟩
          | some old =>
              cases value with
              | none =>
                  rw [mod_missing hvalid hbucket (by simp [hpresent])] at hmod
                  cases hmod
              | some value =>
                  obtain ⟨inst, hreplace, hinst, hsplice⟩ :=
                    mod_held hvalid hbucket hpresent alloc value
                  rw [hmod] at hreplace
                  cases hreplace
                  have htrace : kvsHashModTrace alloc hash (some key) (some value) =
                      freePtr old ++
                        (ptrBlocks (if alloc 0 then .text value else .freed)).map .malloc := by
                    rw [kvsHashModTrace, foundNode_eq hvalid hbucket, hpresent]
                    cases alloc 0 <;> rfl
                  rw [htrace]
                  refine ⟨.replaced ?_ hsplice, hinst⟩
                  cases alloc 0 <;> simp

theorem destroy_eq (hash : KvsHash) :
    kvsHashDestroy hash = (entries hash).flatMap freeNode ++ [.free .table] := by
  rw [kvsHashDestroy, entries, tableEntries, flatMap_assoc]

/-- `kvs_hash_destroy` frees everything that is left. -/
theorem destroy_leads (hundangling : Undangling (entries hash)) :
    Leads (blocks (entries hash)) (kvsHashDestroy hash) [] := by
  have hnodes : ((entries hash).flatMap freeNode).Perm
      (((entries hash).flatMap nodeBlocks).map .free) := by
    rw [map_flatMap]
    exact Perm.flatMap_left _ fun node hnode => freeNode_perm (hundangling node hnode)
  refine leads_frees ?_
  rw [destroy_eq, blocks, map_cons]
  exact perm_append_comm.trans (hnodes.cons _)

theorem destroy_freed_twice (hdangling : ¬Undangling (entries hash)) :
    HeapCall.free Block.dangling ∈ kvsHashDestroy hash := by
  simp only [Undangling, not_forall, not_not] at hdangling
  obtain ⟨node, hnode, hfreed⟩ := hdangling
  rw [destroy_eq]
  refine mem_append_left _ (mem_flatMap.2 ⟨node, hnode, ?_⟩)
  simp [freeNode, hfreed, freePtr]

theorem destroy_not_malloc (hash : KvsHash) (block : Block) :
    HeapCall.malloc block ∉ kvsHashDestroy hash := by
  simp [destroy_eq, freeNode, not_mem_freePtr]

/-! ## Runs -/

/-- A call with its answer, and the calls of the allocator that it makes. -/
structure Event where
  attempt : Attempt
  answer : Answer
  calls : Trace

/-- A replacement that reports a failed allocation. -/
def Event.lost (event : Event) : Bool :=
  match event.attempt with
  | .mod _ _ => event.answer = .code (-2)
  | _ => false

/-- One call of the engine, whose allocations have the given outcomes. -/
def hashStep (hash : KvsHash) (input : Alloc × Attempt) : Option (KvsHash × Event) :=
  match input.2 with
  | .set key value => (kvsHashSet input.1 hash key value).map fun result =>
      (result.1, ⟨input.2, .code result.2, kvsHashSetTrace hash key value⟩)
  | .get key => (kvsHashGet hash key).map fun value => (hash, ⟨input.2, .pointer value, []⟩)
  | .mod key value => (kvsHashMod input.1 hash key value).map fun result =>
      (result.1, ⟨input.2, .code result.2, kvsHashModTrace input.1 hash key value⟩)
  | .del key => (kvsHashDel hash key).map fun result =>
      (result.1, ⟨input.2, .code result.2, kvsHashDelTrace hash key⟩)
  | .exist key => (kvsHashExist hash key).map fun code => (hash, ⟨input.2, .code code, []⟩)

/-- The traced calls are the calls of the hash engine among the four. -/
theorem engineAttempt_hash (chance : Chance) (engines : Engines) (attempt : Attempt) :
    engineAttempt chance .hash engines attempt =
      (hashStep engines.hash (chance.alloc, attempt)).map fun result =>
        ({ engines with hash := result.1 }, result.2.answer) := by
  cases attempt <;>
    simp only [engineAttempt, engineSet, engineGet, engineMod, engineDel, engineExist, hashStep,
      Option.map_map, Function.comp_def]

theorem Effect.of_iff {lost other : Prop} {before after : Store} {calls : Trace}
    (heffect : Effect lost before after calls) (hiff : other ↔ lost) :
    Effect other before after calls := by
  rwa [propext hiff]

theorem hashStep_effect (hvalid : Valid hash) {input : Alloc × Attempt} {event : Event}
    (hstep : hashStep hash input = some (after, event)) :
    Effect (event.lost = true) (entries hash) (entries after) event.calls ∧ Valid after := by
  obtain ⟨alloc, attempt⟩ := input
  cases attempt with
  | set key value =>
      obtain ⟨⟨inst, code⟩, hset, heq⟩ := Option.map_eq_some_iff.1 hstep
      cases heq
      obtain ⟨heffect, hafter⟩ := set_effect hvalid hset
      exact ⟨heffect.of_iff (by simp [Event.lost]), hafter⟩
  | get key =>
      obtain ⟨value, -, heq⟩ := Option.map_eq_some_iff.1 hstep
      cases heq
      exact ⟨.unchanged (by simp [Event.lost]) rfl, hvalid⟩
  | mod key value =>
      obtain ⟨⟨inst, code⟩, hmod, heq⟩ := Option.map_eq_some_iff.1 hstep
      cases heq
      obtain ⟨heffect, hafter⟩ := mod_effect hvalid hmod
      exact ⟨heffect.of_iff (by simp [Event.lost]), hafter⟩
  | del key =>
      obtain ⟨⟨inst, code⟩, hdel, heq⟩ := Option.map_eq_some_iff.1 hstep
      cases heq
      obtain ⟨heffect, hafter⟩ := del_effect hvalid hdel
      exact ⟨heffect.of_iff (by simp [Event.lost]), hafter⟩
  | exist key =>
      obtain ⟨code, -, heq⟩ := Option.map_eq_some_iff.1 hstep
      cases heq
      exact ⟨.unchanged (by simp [Event.lost]) rfl, hvalid⟩

/-- The calls of the allocator in a run. -/
def callsOf (events : List Event) : Trace :=
  kvsHashCreateTrace ++ events.flatMap Event.calls

theorem callsOf_snoc (events : List Event) (event : Event) :
    callsOf (events ++ [event]) = callsOf events ++ event.calls := by
  simp [callsOf]

/-- The state of the books in a run: as long as no value is lost, the engine owns what is
allocated; afterwards a value dangles, or has been freed a second time. -/
structure Audited (hash : KvsHash) (events : List Event) : Prop where
  valid : Valid hash
  balanced : (∀ event ∈ events, event.lost = false) →
    Undangling (entries hash) ∧ Leads [] (callsOf events) (blocks (entries hash))
  unbalanced : ∀ event ∈ events, event.lost = true →
    HeapCall.free Block.dangling ∈ callsOf events ∨ ¬Undangling (entries hash)
  not_malloc : HeapCall.malloc Block.dangling ∉ callsOf events

theorem audited_create : Audited kvsHashCreate [] where
  valid := create_valid
  balanced := fun _ => by
    rw [create_entries]
    exact ⟨by simp [Undangling], leads_taken [Block.table] (Perm.refl _)⟩
  unbalanced := by simp
  not_malloc := by simp [callsOf, kvsHashCreateTrace]

theorem Audited.step {events : List Event} (haudited : Audited hash events)
    {input : Alloc × Attempt} {event : Event}
    (hstep : hashStep hash input = some (after, event)) :
    Audited after (events ++ [event]) := by
  obtain ⟨heffect, hafter⟩ := hashStep_effect haudited.valid hstep
  refine ⟨hafter, fun hkept => ?_, fun other hother hlost => ?_, ?_⟩
  · obtain ⟨hundangling, hleads⟩ := haudited.balanced fun other hother =>
      hkept other (mem_append_left _ hother)
    have hone : ¬event.lost = true := by simp [hkept event (by simp)]
    rw [callsOf_snoc]
    exact ⟨heffect.undangling hone hundangling, hleads.append (heffect.leads hundangling)⟩
  · rw [callsOf_snoc, mem_append]
    rcases mem_append.1 hother with hpast | hnow
    · rcases haudited.unbalanced other hpast hlost with hfreed | hdangling
      · exact .inl (.inl hfreed)
      · exact (heffect.freed_twice hdangling).imp_left .inr
    · obtain rfl := mem_singleton.1 hnow
      exact .inr (heffect.dangling hlost)
  · rw [callsOf_snoc, mem_append, not_or]
    exact ⟨haudited.not_malloc, heffect.not_malloc⟩

/-- In every run of calls that return, with any arguments missing and any allocations denied,
the allocated blocks are the table and the nodes and copies of the pairs as long as no
replacement has reported a failed allocation; and from `kvs_hash_create` to `kvs_hash_destroy`
every block is freed once, and nothing else is freed, exactly if none ever does. -/
theorem frees_each_block_once_iff {inputs : List (Alloc × Attempt)} {final : KvsHash}
    {events : List Event} (hrun : run hashStep kvsHashCreate inputs = some (final, events)) :
    ((∀ event ∈ events, event.lost = false) →
        Leads [] (callsOf events) (blocks (entries final))) ∧
      (replay [] (callsOf events ++ kvsHashDestroy final) = some [] ↔
        ∀ event ∈ events, event.lost = false) := by
  have haudited : Audited final ([] ++ events) :=
    run_history_along
      (fun _ _ _ _ _ haudited (_ : True) hstep => haudited.step hstep)
      audited_create (along_of_forall (fun _ _ _ => trivial) _) hrun
  rw [nil_append] at haudited
  refine ⟨fun hkept => (haudited.balanced hkept).2, fun hreplay event hevent => ?_,
    fun hkept => ?_⟩
  · by_contra hlost
    have hfree : HeapCall.free Block.dangling ∈ callsOf events ++ kvsHashDestroy final := by
      rw [mem_append]
      exact (haudited.unbalanced event hevent (by simpa using hlost)).imp_right
        destroy_freed_twice
    have hmalloc : HeapCall.malloc Block.dangling ∉ callsOf events ++ kvsHashDestroy final := by
      rw [mem_append, not_or]
      exact ⟨haudited.not_malloc, destroy_not_malloc final _⟩
    rw [replay_eq_none not_mem_nil hmalloc hfree] at hreplay
    cases hreplay
  · obtain ⟨hundangling, hleads⟩ := haudited.balanced hkept
    obtain ⟨rest, hreplay, hrest⟩ := hleads.append (destroy_leads hundangling)
    rw [hreplay, hrest.eq_nil]

/-- A pair is stored and replaced, once with the allocation denied. -/
def replacedTwice : List (Alloc × Attempt) :=
  [(allocOk, .set (some (lit "k")) (some (lit "x"))),
    (allocOk, .mod (some (lit "k")) (some (lit "y"))),
    (fun _ => false, .mod (some (lit "k")) (some (lit "z")))]

theorem frees_each_block_once_iff_replacedTwice :
    ∃ final events, run hashStep kvsHashCreate replacedTwice = some (final, events) ∧
      events.map Event.lost = [false, false, true] ∧
      replay [] (callsOf events ++ kvsHashDestroy final) ≠ some [] := by
  have hlost : (run hashStep kvsHashCreate replacedTwice).map
      (fun result => result.2.map Event.lost) = some [false, false, true] := by
    decide +kernel
  obtain ⟨⟨final, events⟩, hrun, hlost⟩ := Option.map_eq_some_iff.1 hlost
  refine ⟨final, events, hrun, hlost, fun hreplay => ?_⟩
  have hkept := (frees_each_block_once_iff hrun).2.1 hreplay
  have hlast : true ∈ events.map Event.lost := by simp [hlost]
  obtain ⟨event, hevent, heq⟩ := mem_map.1 hlast
  rw [hkept event hevent] at heq
  cases heq

end LiteMultiKV.Hash
