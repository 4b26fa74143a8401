import LiteMultiKV.Core.CText

/-!
# Files

A directory maps names to inodes and an inode holds the bytes of a file.  An
open descriptor refers to the inode, not to the name, so it goes on writing to
the same file after a rename.
-/

namespace LiteMultiKV.Files

open CText

structure Disk where
  entry : CStr → Option ℕ
  contents : ℕ → List Byte
  next : ℕ

namespace Disk

def empty : Disk where
  entry := fun _ => none
  contents := fun _ => []
  next := 0

/-- The bytes of a named file. -/
def read (disk : Disk) (name : CStr) : Option (List Byte) :=
  (disk.entry name).map disk.contents

/-- `open` with `O_CREAT | O_TRUNC`: the inode of the name, emptied, or a new
one. -/
def openTrunc (disk : Disk) (name : CStr) : Disk × ℕ :=
  match disk.entry name with
  | some inode =>
      ({ disk with contents := Function.update disk.contents inode [] }, inode)
  | none =>
      ({ entry := Function.update disk.entry name (some disk.next)
         contents := Function.update disk.contents disk.next []
         next := disk.next + 1 }, disk.next)

/-- `write` at the offset of a descriptor. -/
def write (disk : Disk) (inode offset : ℕ) (bytes : List Byte) : Disk :=
  { disk with
    contents := Function.update disk.contents inode
      (writeAt (disk.contents inode) offset bytes) }

/-- `rename`; a name renamed to itself stays. -/
def rename (disk : Disk) (old new : CStr) : Disk :=
  if old = new then disk
  else
    { disk with
      entry := Function.update (Function.update disk.entry new (disk.entry old)) old none }

def unlink (disk : Disk) (name : CStr) : Disk :=
  { disk with entry := Function.update disk.entry name none }

/-- Every named inode has been handed out, and no two names share one. -/
structure Valid (disk : Disk) : Prop where
  lt_next : ∀ name inode, disk.entry name = some inode → inode < disk.next
  injective : ∀ left right inode, disk.entry left = some inode →
    disk.entry right = some inode → left = right

theorem empty_valid : empty.Valid where
  lt_next := fun _ _ hentry => by cases hentry
  injective := fun _ _ _ hentry => by cases hentry

variable {disk : Disk} {name other : CStr}

theorem openTrunc_entry (disk : Disk) (name : CStr) :
    (disk.openTrunc name).1.entry =
      Function.update disk.entry name (some (disk.openTrunc name).2) := by
  cases hentry : disk.entry name with
  | some inode =>
      simp only [openTrunc, hentry]
      rw [← hentry, Function.update_eq_self]
  | none => simp only [openTrunc, hentry]

theorem openTrunc_contents (disk : Disk) (name : CStr) :
    (disk.openTrunc name).1.contents =
      Function.update disk.contents (disk.openTrunc name).2 [] := by
  cases hentry : disk.entry name <;> simp only [openTrunc, hentry]

/-- The opened name does not share its inode. -/
theorem openTrunc_fresh (hvalid : disk.Valid) (hother : other ≠ name) :
    disk.entry other ≠ some (disk.openTrunc name).2 := by
  intro heq
  cases hentry : disk.entry name with
  | some inode =>
      simp only [openTrunc, hentry] at heq
      exact hother (hvalid.injective other name inode heq hentry)
  | none =>
      simp only [openTrunc, hentry] at heq
      exact absurd (hvalid.lt_next other disk.next heq) (lt_irrefl _)

theorem Valid.openTrunc (hvalid : disk.Valid) (name : CStr) :
    (disk.openTrunc name).1.Valid := by
  have hfresh : ∀ other, other ≠ name → disk.entry other ≠ some (disk.openTrunc name).2 :=
    fun other hother => openTrunc_fresh hvalid hother
  have hnext : disk.next ≤ (disk.openTrunc name).1.next ∧
      (disk.openTrunc name).2 < (disk.openTrunc name).1.next := by
    cases hentry : disk.entry name with
    | some inode =>
        simp only [Disk.openTrunc, hentry]
        exact ⟨le_refl _, hvalid.lt_next name inode hentry⟩
    | none =>
        simp only [Disk.openTrunc, hentry]
        omega
  have hentry := openTrunc_entry disk name
  constructor
  · intro other inode hother
    rw [hentry] at hother
    by_cases hname : other = name
    · rw [hname, Function.update_self, Option.some.injEq] at hother
      exact hother ▸ hnext.2
    · rw [Function.update_of_ne hname] at hother
      exact (hvalid.lt_next other inode hother).trans_le hnext.1
  · intro left right inode hleft hright
    rw [hentry] at hleft hright
    by_cases hleftName : left = name <;> by_cases hrightName : right = name
    · rw [hleftName, hrightName]
    · rw [hleftName, Function.update_self] at hleft
      rw [Function.update_of_ne hrightName, ← hleft] at hright
      exact absurd hright (hfresh right hrightName)
    · rw [hrightName, Function.update_self] at hright
      rw [Function.update_of_ne hleftName, ← hright] at hleft
      exact absurd hleft (hfresh left hleftName)
    · rw [Function.update_of_ne hleftName] at hleft
      rw [Function.update_of_ne hrightName] at hright
      exact hvalid.injective left right inode hleft hright

theorem Valid.write (hvalid : disk.Valid) (inode offset : ℕ) (bytes : List Byte) :
    (disk.write inode offset bytes).Valid :=
  ⟨hvalid.lt_next, hvalid.injective⟩

theorem Valid.unlink (hvalid : disk.Valid) (name : CStr) : (disk.unlink name).Valid := by
  have hentry : ∀ other inode, (disk.unlink name).entry other = some inode →
      disk.entry other = some inode := by
    intro other inode hother
    by_cases hname : other = name
    · simp [Disk.unlink, hname] at hother
    · simpa [Disk.unlink, hname] using hother
  exact ⟨fun other inode hother => hvalid.lt_next other inode (hentry other inode hother),
    fun left right inode hleft hright =>
      hvalid.injective left right inode (hentry left inode hleft) (hentry right inode hright)⟩

/-- After a rename every name has an inode that some name had, and no two the same. -/
theorem Valid.rename (hvalid : disk.Valid) (old new : CStr) : (disk.rename old new).Valid := by
  unfold Disk.rename
  split
  · exact hvalid
  next hne =>
    let source : CStr → CStr := fun name => if name = new then old else name
    have hentry : ∀ name inode, Function.update (Function.update disk.entry new
        (disk.entry old)) old none name = some inode →
          name ≠ old ∧ disk.entry (source name) = some inode := by
      intro name inode hname
      by_cases hold : name = old
      · simp [hold] at hname
      · by_cases hnew : name = new
        · subst hnew
          simpa [hold, source] using hname
        · simpa [hold, hnew, source] using hname
    constructor
    · intro name inode hname
      exact hvalid.lt_next _ inode (hentry name inode hname).2
    · intro left right inode hleft hright
      obtain ⟨hleftOld, hleft⟩ := hentry left inode hleft
      obtain ⟨hrightOld, hright⟩ := hentry right inode hright
      have hsource := hvalid.injective _ _ inode hleft hright
      simp only [source] at hsource
      split at hsource <;> split at hsource <;> simp_all

/-- What is written to an inode is not seen under names of other inodes. -/
theorem read_of_contents {after : Disk} {inode : ℕ} {bytes : List Byte}
    (hentry : after.entry name = disk.entry name)
    (hcontents : after.contents = Function.update disk.contents inode bytes)
    (hother : disk.entry name ≠ some inode) : after.read name = disk.read name := by
  rw [read, read, hentry, hcontents]
  cases hname : disk.entry name with
  | none => rfl
  | some own =>
      have hne : own ≠ inode := fun heq => hother (heq ▸ hname)
      simp [Function.update_of_ne hne]

end Disk

end LiteMultiKV.Files
