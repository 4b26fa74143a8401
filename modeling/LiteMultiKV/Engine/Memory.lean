import LiteMultiKV.Core.CText
import LiteMultiKV.Core.Dictionary

/-!
# Pointers to stored strings

All engines keep `char *` values that they allocate, replace and free.  A
failed allocation leaves a value pointer null or pointing at freed memory,
depending on the engine, so the three states are told apart.  An operation
that would dereference a null pointer, follow a freed one or index outside an
array has no defined result; it is modelled as `none`.
-/

namespace LiteMultiKV.Memory

open CText Dictionary

/-- The states of a `char *` value field. -/
inductive StrPtr where
  | null
  | freed
  | text (contents : CStr)
  deriving DecidableEq

/-- Outcomes of the successive allocations inside one call. -/
abbrev Alloc := ℕ → Bool

/-- Every allocation of the call succeeds. -/
def allocOk : Alloc :=
  fun _ => true

@[simp]
theorem allocOk_apply (index : ℕ) : allocOk index = true := rfl

/-- The pointer a `get` returns for a dictionary entry. -/
def toPtr : Option StrPtr → StrPtr
  | none => .null
  | some pointer => pointer

/-- Live pairs of one engine. -/
abbrev Store := Entries CStr StrPtr

/-- Every stored value is a readable string, as it is as long as no allocation
has failed. -/
def Readable (store : Store) : Prop :=
  ∀ item ∈ store, ∃ contents, item.2 = StrPtr.text contents

theorem Readable.of_splice {old new before after : Store}
    (hsplice : Splice old new before after) (hbefore : Readable before)
    (hnew : Readable new) : Readable after := by
  intro item hitem
  rcases hsplice.mem_after hitem with hold | hadded
  · exact hbefore item hold
  · exact hnew item hadded

/-- In a readable store a null result means that the key is absent. -/
theorem toPtr_denote_eq_null_iff {store : Store} (hreadable : Readable store)
    (key : CStr) : toPtr (denote store key) = .null ↔ denote store key = none := by
  constructor
  · intro hnull
    cases hvalue : denote store key with
    | none => rfl
    | some pointer =>
        have hmem : entry key pointer ∈ store := List.of_mem_dlookup hvalue
        obtain ⟨contents, hcontents⟩ := hreadable _ hmem
        simp only [hvalue, toPtr] at hnull
        simp [hnull] at hcontents
  · intro hnone
    rw [hnone]
    rfl

end LiteMultiKV.Memory
