import Mathlib

/-!
# Traces of allocations

What a program takes from the allocator and gives back, as a trace of calls.  A trace goes
through if it frees allocated blocks only; the blocks left at its end are those it leaks.
Blocks that cannot be told apart, such as two copies of a string, are counted.
-/

namespace LiteMultiKV.HeapTrace

open List

variable {B : Type*}

inductive HeapCall (B : Type*) where
  | malloc (block : B)
  | free (block : B)
  deriving DecidableEq

variable [DecidableEq B] {live live' middle left : List B} {calls more : List (HeapCall B)}

/-- The blocks that are allocated after a trace; there is no result for a trace that frees
what is not allocated. -/
def replay : List B → List (HeapCall B) → Option (List B)
  | live, [] => some live
  | live, .malloc block :: calls => replay (block :: live) calls
  | live, .free block :: calls =>
      if block ∈ live then replay (live.erase block) calls else none

/-- The trace goes through, and the blocks left are the given ones in some order. -/
def Leads (live : List B) (calls : List (HeapCall B)) (left : List B) : Prop :=
  ∃ rest, replay live calls = some rest ∧ rest.Perm left

theorem replay_perm (hperm : live.Perm live') {rest : List B}
    (hreplay : replay live calls = some rest) : Leads live' calls rest := by
  induction calls generalizing live live' with
  | nil =>
      cases hreplay
      exact ⟨live', rfl, hperm.symm⟩
  | cons call calls ih =>
      cases call with
      | malloc block => exact ih (hperm.cons block) hreplay
      | free block =>
          simp only [replay] at hreplay
          split_ifs at hreplay with hmem
          obtain ⟨rest', hrest, hsame⟩ := ih (hperm.erase block) hreplay
          refine ⟨rest', ?_, hsame⟩
          rw [replay, if_pos (hperm.mem_iff.1 hmem), hrest]

theorem Leads.of_perm (hleads : Leads live calls left) (hperm : live.Perm live') :
    Leads live' calls left := by
  obtain ⟨rest, hreplay, hrest⟩ := hleads
  obtain ⟨rest', hreplay', hsame⟩ := replay_perm hperm hreplay
  exact ⟨rest', hreplay', hsame.trans hrest⟩

theorem Leads.perm (hleads : Leads live calls left) (hperm : left.Perm middle) :
    Leads live calls middle := by
  obtain ⟨rest, hreplay, hrest⟩ := hleads
  exact ⟨rest, hreplay, hrest.trans hperm⟩

theorem leads_nil (live : List B) : Leads live [] live :=
  ⟨live, rfl, Perm.refl live⟩

theorem replay_append (live : List B) (calls more : List (HeapCall B)) :
    replay live (calls ++ more) = (replay live calls).bind fun rest => replay rest more := by
  induction calls generalizing live with
  | nil => rfl
  | cons call calls ih =>
      cases call with
      | malloc block => exact ih _
      | free block =>
          simp only [cons_append, replay]
          split_ifs
          · exact ih _
          · rfl

theorem Leads.append (hcalls : Leads live calls middle) (hmore : Leads middle more left) :
    Leads live (calls ++ more) left := by
  obtain ⟨rest, hreplay, hrest⟩ := hcalls
  obtain ⟨last, hlast, hleft⟩ := hmore.of_perm hrest.symm
  exact ⟨last, by rw [replay_append, hreplay, Option.bind_some, hlast], hleft⟩

theorem leads_malloc (live blocks : List B) :
    Leads live (blocks.map .malloc) (blocks ++ live) := by
  induction blocks generalizing live with
  | nil => exact leads_nil live
  | cons block blocks ih => exact (ih (block :: live)).perm perm_middle

theorem leads_free (live blocks : List B) : Leads (blocks ++ live) (blocks.map .free) live := by
  induction blocks with
  | nil => exact leads_nil live
  | cons block blocks ih =>
      obtain ⟨rest, hreplay, hrest⟩ := ih
      refine ⟨rest, ?_, hrest⟩
      rw [map_cons, replay, if_pos (by simp), cons_append, erase_cons_head, hreplay]

theorem leads_taken {before after : List B} (taken : List B)
    (hafter : after.Perm (taken ++ before)) : Leads before (taken.map .malloc) after :=
  (leads_malloc before taken).perm hafter.symm

theorem leads_given {before after : List B} (given : List B)
    (hbefore : before.Perm (given ++ after)) : Leads before (given.map .free) after :=
  (leads_free after given).of_perm hbefore.symm

/-- The order of a trace that only frees does not matter. -/
theorem leads_frees {blocks : List B} (hcalls : calls.Perm (blocks.map .free)) :
    Leads blocks calls [] := by
  induction calls generalizing blocks with
  | nil =>
      obtain rfl : blocks = [] := by simpa using hcalls
      exact leads_nil []
  | cons call calls ih =>
      obtain ⟨block, hblock, rfl⟩ := mem_map.1 (hcalls.mem_iff.1 mem_cons_self)
      have hrest : calls.Perm ((blocks.erase block).map .free) := by
        refine (perm_cons (HeapCall.free block)).1 (hcalls.trans ?_)
        exact (perm_cons_erase hblock).map HeapCall.free
      obtain ⟨rest, hreplay, hleft⟩ := ih hrest
      refine ⟨rest, ?_, hleft⟩
      rw [replay, if_pos hblock, hreplay]

/-- What is never taken cannot be freed. -/
theorem replay_eq_none {block : B} (hlive : block ∉ live)
    (hmalloc : HeapCall.malloc block ∉ calls) (hfree : HeapCall.free block ∈ calls) :
    replay live calls = none := by
  induction calls generalizing live with
  | nil => cases hfree
  | cons call calls ih =>
      rw [mem_cons, not_or] at hmalloc
      obtain ⟨hcall, hrest⟩ := hmalloc
      cases call with
      | malloc other =>
          have hother : block ≠ other := fun heq => hcall (heq ▸ rfl)
          have hafter : block ∉ other :: live := by simp [hother, hlive]
          exact ih hafter hrest ((mem_cons.1 hfree).resolve_left (by simp))
      | free other =>
          rw [replay]
          split_ifs with hmem
          · have hother : block ≠ other := fun heq => hlive (heq ▸ hmem)
            refine ih (fun herase => hlive (mem_of_mem_erase herase)) hrest ?_
            exact (mem_cons.1 hfree).resolve_left fun heq => hother (HeapCall.free.inj heq)
          · rfl

end LiteMultiKV.HeapTrace
