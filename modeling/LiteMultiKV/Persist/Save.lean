import LiteMultiKV.Persist.Rdb

/-!
# A save on its own

What `rdb_save` returns and leaves on the disk, for all results of its system
calls.  The caller of a `write` compares the result with the length of the data,
or only looks whether it is negative, or does not look at it, so a short write of
an integer goes unnoticed.
-/

namespace LiteMultiKV.Persist

open List CText Families Files

/-! ## The writes -/

/-- Every write, the first of which is call `i`, passes the test of its caller. -/
def passesAll (results : ℕ → ℤ) : ℕ → List WriteOp → Bool
  | _, [] => true
  | i, op :: ops => op.passes (results i) && passesAll results (i + 1) ops

/-- The bytes that the writes store. -/
def stored (results : ℕ → ℤ) : ℕ → List WriteOp → List Byte
  | _, [] => []
  | i, op :: ops => op.bytes.take (results i).toNat ++ stored results (i + 1) ops

/-- Every write stores all of its bytes. -/
def Whole (results : ℕ → ℤ) : ℕ → List WriteOp → Prop
  | _, [] => True
  | i, op :: ops => results i = op.bytes.length ∧ Whole results (i + 1) ops

instance decidableWhole (results : ℕ → ℤ) :
    ∀ (i : ℕ) (ops : List WriteOp), Decidable (Whole results i ops)
  | _, [] => isTrue trivial
  | i, op :: ops =>
      have := decidableWhole results (i + 1) ops
      inferInstanceAs (Decidable (results i = op.bytes.length ∧ Whole results (i + 1) ops))

/-- A `write` returns a number of bytes it has stored, or -1. -/
def InRange (results : ℕ → ℤ) : ℕ → List WriteOp → Prop
  | _, [] => True
  | i, op :: ops => (-1 ≤ results i ∧ results i ≤ op.bytes.length) ∧
      InRange results (i + 1) ops

section Writes

variable {results : ℕ → ℤ}

theorem Whole.inRange {i : ℕ} {ops : List WriteOp} (hwhole : Whole results i ops) :
    InRange results i ops := by
  induction ops generalizing i with
  | nil => trivial
  | cons op ops ih => exact ⟨⟨by rw [hwhole.1]; omega, hwhole.1.le⟩, ih hwhole.2⟩

theorem Whole.passesAll {i : ℕ} {ops : List WriteOp} (hwhole : Whole results i ops) :
    passesAll results i ops = true := by
  induction ops generalizing i with
  | nil => rfl
  | cons op ops ih =>
      obtain ⟨hop, hops⟩ := hwhole
      have hpasses : op.passes (results i) = true := by
        rw [hop, WriteOp.passes]
        split <;> simp
      simp [Persist.passesAll, hpasses, ih hops]

theorem Whole.stored_eq {i : ℕ} {ops : List WriteOp} (hwhole : Whole results i ops) :
    stored results i ops = ops.flatMap WriteOp.bytes := by
  induction ops generalizing i with
  | nil => rfl
  | cons op ops ih =>
      obtain ⟨hop, hops⟩ := hwhole
      simp [stored, hop, ih hops]

theorem length_stored_le (results : ℕ → ℤ) (i : ℕ) (ops : List WriteOp) :
    (stored results i ops).length ≤ (ops.flatMap WriteOp.bytes).length := by
  induction ops generalizing i with
  | nil => rfl
  | cons op ops ih =>
      have hrest := ih (i + 1)
      simp only [stored, length_append, length_take, flatMap_cons]
      omega

/-- Bytes that a short write leaves out are missing in the end. -/
theorem stored_eq_iff {i : ℕ} {ops : List WriteOp} (hrange : InRange results i ops)
    (hpasses : passesAll results i ops = true)
    (hnonempty : ∀ op ∈ ops, op.check ≠ .exact → op.bytes ≠ []) :
    stored results i ops = ops.flatMap WriteOp.bytes ↔ Whole results i ops := by
  refine ⟨fun heq => ?_, Whole.stored_eq⟩
  induction ops generalizing i with
  | nil => trivial
  | cons op ops ih =>
      obtain ⟨⟨hlow, hhigh⟩, hrange⟩ := hrange
      simp only [passesAll, Bool.and_eq_true] at hpasses
      have hlength := congrArg length heq
      have hrest := length_stored_le results (i + 1) ops
      simp only [stored, length_append, length_take, flatMap_cons] at hlength
      have hop : results i = op.bytes.length := by
        by_cases hexact : op.check = .exact
        · simpa [WriteOp.passes, hexact] using hpasses.1
        · have hpositive := length_pos_iff.2 (hnonempty op mem_cons_self hexact)
          omega
      refine ⟨hop, ih hrange hpasses.2 (fun other hother =>
        hnonempty other (mem_cons_of_mem _ hother)) ?_⟩
      simpa [stored, hop] using heq

end Writes

/-! ## The run -/

section Run

variable {results : ℕ → ℤ} {process : SaveProcess} {inode : ℕ}

/-- Writes that pass are followed by the rename. -/
theorem saveRun_writing_passed (fuel : ℕ) {ops : List WriteOp} {i offset : ℕ} {disk : Disk}
    (hoffset : (disk.contents inode).length = offset)
    (hpasses : passesAll results i ops = true) :
    saveRun results (fuel + ops.length) i { process with phase := .writing inode offset ops }
        disk =
      saveRun results fuel (i + ops.length)
        { process with
          phase := .writing inode (offset + (stored results i ops).length) [] }
        { disk with
          contents := Function.update disk.contents inode
            (disk.contents inode ++ stored results i ops) } := by
  induction ops generalizing i offset disk with
  | nil => simp [stored]
  | cons op ops ih =>
      simp only [passesAll, Bool.and_eq_true] at hpasses
      subst hoffset
      have hstep : saveStep (results i)
          { process with phase := .writing inode (disk.contents inode).length (op :: ops) }
          disk =
          ({ process with
             phase := .writing inode ((disk.contents inode).length +
               (op.bytes.take (results i).toNat).length) ops },
            { disk with
              contents := Function.update disk.contents inode
                (disk.contents inode ++ op.bytes.take (results i).toNat) }) := by
        simp only [saveStep, Disk.write, writeAt_length, if_pos hpasses.1]
      rw [length_cons, ← Nat.add_assoc, saveRun, hstep]
      simp only
      rw [ih (by simp) hpasses.2]
      simp only [stored, Function.update_idem, Function.update_self, append_assoc,
        length_append, Nat.add_assoc, Nat.add_comm 1]

/-- A write that fails the test is followed by the unlink. -/
theorem saveRun_writing_failed (fuel : ℕ) {ops : List WriteOp} (i offset : ℕ) (disk : Disk)
    (hfails : passesAll results i ops = false) :
    ∃ bytes, saveRun results (fuel + 2 + ops.length) i
        { process with phase := .writing inode offset ops } disk =
      some ({ disk with contents := Function.update disk.contents inode bytes }.unlink
        (tmpName process.filename), -1) := by
  induction ops generalizing i offset disk with
  | nil => cases hfails
  | cons op ops ih =>
      let bytes := writeAt (disk.contents inode) offset (op.bytes.take (results i).toNat)
      cases hpasses : op.passes (results i) with
      | true =>
          have hstep : saveStep (results i)
              { process with phase := .writing inode offset (op :: ops) } disk =
              ({ process with
                 phase := .writing inode
                   (offset + (op.bytes.take (results i).toNat).length) ops },
                { disk with contents := Function.update disk.contents inode bytes }) := by
            simp only [saveStep, Disk.write, hpasses, if_true, bytes]
          simp only [passesAll, hpasses, Bool.true_and] at hfails
          obtain ⟨last, hlast⟩ := ih (i + 1)
            (offset + (op.bytes.take (results i).toNat).length)
            { disk with contents := Function.update disk.contents inode bytes } hfails
          refine ⟨last, ?_⟩
          rw [length_cons, ← Nat.add_assoc, saveRun, hstep]
          simp only
          rw [hlast]
          simp only [Function.update_idem]
      | false =>
          have hstep : saveStep (results i)
              { process with phase := .writing inode offset (op :: ops) } disk =
              ({ process with phase := .unlinking },
                { disk with contents := Function.update disk.contents inode bytes }) := by
            simp [saveStep, Disk.write, hpasses, bytes]
          refine ⟨bytes, ?_⟩
          rw [length_cons, show fuel + 2 + (ops.length + 1) = fuel + ops.length + 1 + 1 + 1 by
            omega, saveRun, hstep]
          simp [saveRun, saveStep]

/-- The calls a save still makes at most. -/
def SaveProcess.remaining (process : SaveProcess) : ℕ :=
  match process.phase with
  | .opening => process.ops.length + 3
  | .writing _ _ ops => ops.length + 2
  | .unlinking => 1
  | .finished _ => 0

theorem saveStep_remaining (result : ℤ) {process : SaveProcess} (disk : Disk)
    (hrunning : 0 < process.remaining) :
    (saveStep result process disk).1.remaining < process.remaining := by
  obtain ⟨filename, ops, count, phase⟩ := process
  cases phase with
  | opening =>
      simp only [saveStep]
      split <;> simp [SaveProcess.remaining]
  | writing inode offset ops =>
      cases ops <;> simp only [saveStep] <;> split <;> simp [SaveProcess.remaining]
  | unlinking => simp [saveStep, SaveProcess.remaining]
  | finished code => simp [SaveProcess.remaining] at hrunning

/-- Whatever its calls return, a save comes to its end. -/
theorem exists_saveRun (results : ℕ → ℤ) {fuel : ℕ} (i : ℕ) {process : SaveProcess} (disk : Disk)
    (hfuel : process.remaining < fuel) :
    ∃ after code, saveRun results fuel i process disk = some (after, code) := by
  induction fuel generalizing i process disk with
  | zero => omega
  | succ fuel ih =>
      unfold saveRun
      split
      next code hphase => exact ⟨disk, code, rfl⟩
      next hphase =>
        have hrunning : 0 < process.remaining := by
          unfold SaveProcess.remaining
          split <;> simp_all
        have hless := saveStep_remaining (results i) disk hrunning
        exact ih (i + 1) _ (hless.trans_le (Nat.lt_succ_iff.1 hfuel))

/-- A save whose calls all look successful. -/
def NoneNoticed (results : ℕ → ℤ) (ops : List WriteOp) : Prop :=
  0 ≤ results 0 ∧ passesAll results 1 ops = true ∧ 0 ≤ results (ops.length + 1)

variable {timestamp : ℤ} {records : List Record} {disk : Disk}

theorem startSave_ops (timestamp : ℤ) (records : List Record) (filename : CStr) :
    (startSave timestamp records filename).ops = saveOps timestamp records := rfl

theorem saveRun_open_failed (filename : CStr) (hopen : results 0 < 0) (fuel : ℕ) (disk : Disk) :
    saveRun results (fuel + 2) 0 (startSave timestamp records filename) disk =
      some (disk, -1) := by
  simp [saveRun, saveStep, startSave, hopen]

/-- After the `open`, the save writes to the new inode. -/
theorem saveRun_opened (filename : CStr) (hopen : 0 ≤ results 0) (fuel : ℕ) (disk : Disk) :
    saveRun results (fuel + 1) 0 (startSave timestamp records filename) disk =
      saveRun results fuel 1
        { startSave timestamp records filename with
          phase := .writing (disk.openTrunc (tmpName filename)).2 0
            (saveOps timestamp records) }
        (disk.openTrunc (tmpName filename)).1 := by
  simp [saveRun, saveStep, startSave, not_lt.2 hopen]

/-- When no call looks failed, the file holds what the writes have stored. -/
theorem saveRun_success (filename : CStr) (disk : Disk)
    (hnone : NoneNoticed results (saveOps timestamp records)) :
    ∃ after, saveRun results ((saveOps timestamp records).length + 4) 0
        (startSave timestamp records filename) disk = some (after, (records.length : ℤ)) ∧
      after.read filename = some (stored results 1 (saveOps timestamp records)) := by
  obtain ⟨hopen, hpasses, hrename⟩ := hnone
  have hentry := disk.openTrunc_entry (tmpName filename)
  have hcontents := disk.openTrunc_contents (tmpName filename)
  set opened := disk.openTrunc (tmpName filename) with hopened
  have hempty : opened.1.contents opened.2 = [] := by simp [hcontents]
  have hfuel : (saveOps timestamp records).length + 4 =
      3 + (saveOps timestamp records).length + 1 := by omega
  rw [hfuel, saveRun_opened filename hopen, ← hopened,
    saveRun_writing_passed 3 (by rw [hempty]; rfl) hpasses, hempty, nil_append]
  rw [Nat.add_comm] at hrename
  refine ⟨Disk.rename { opened.1 with
      contents := Function.update opened.1.contents opened.2
        (stored results 1 (saveOps timestamp records)) } (tmpName filename) filename,
    by simp [saveRun, saveStep, not_lt.2 hrename, startSave, hentry], ?_⟩
  simp only [Disk.rename]
  split
  next hsame =>
    rw [Disk.read, ← hsame, hentry]
    simp
  next hother =>
    rw [Disk.read, hentry]
    simp [Ne.symm hother]

/-- When a call after the `open` looks failed, the temporary file is gone and no other
file has changed. -/
theorem saveRun_noticed (filename : CStr) (hdisk : disk.Valid) (hopen : 0 ≤ results 0)
    (hnoticed : ¬NoneNoticed results (saveOps timestamp records)) :
    ∃ after, saveRun results ((saveOps timestamp records).length + 4) 0
        (startSave timestamp records filename) disk = some (after, -1) ∧
      after.read filename =
        if tmpName filename = filename then none else disk.read filename := by
  have hentry := disk.openTrunc_entry (tmpName filename)
  have hcontents := disk.openTrunc_contents (tmpName filename)
  set opened := disk.openTrunc (tmpName filename) with hopened
  have hempty : opened.1.contents opened.2 = [] := by simp [hcontents]
  have hrun : ∃ bytes, saveRun results ((saveOps timestamp records).length + 4) 0
      (startSave timestamp records filename) disk =
        some ({ opened.1 with
          contents := Function.update opened.1.contents opened.2 bytes }.unlink
            (tmpName filename), -1) := by
    cases hpasses : passesAll results 1 (saveOps timestamp records) with
    | true =>
        have hrename : results (1 + (saveOps timestamp records).length) < 0 := by
          rw [Nat.add_comm]
          by_contra hnot
          exact hnoticed ⟨hopen, hpasses, by omega⟩
        have hfuel : (saveOps timestamp records).length + 4 =
            3 + (saveOps timestamp records).length + 1 := by omega
        rw [hfuel, saveRun_opened filename hopen, ← hopened,
          saveRun_writing_passed 3 (by rw [hempty]; rfl) hpasses]
        exact ⟨opened.1.contents opened.2 ++ stored results 1 (saveOps timestamp records),
          by simp [saveRun, saveStep, hrename, startSave]⟩
    | false =>
        have hfuel : (saveOps timestamp records).length + 4 =
            1 + 2 + (saveOps timestamp records).length + 1 := by omega
        rw [hfuel, saveRun_opened filename hopen, ← hopened]
        exact saveRun_writing_failed 1 1 0 opened.1 hpasses
  obtain ⟨bytes, hrun⟩ := hrun
  refine ⟨_, hrun, ?_⟩
  split
  next hsame => simp [Disk.unlink, Disk.read, hsame]
  next hdistinct =>
    have hname : filename ≠ tmpName filename := Ne.symm hdistinct
    have hcontents' : (Disk.unlink { opened.1 with
        contents := Function.update opened.1.contents opened.2 bytes }
          (tmpName filename)).contents = Function.update disk.contents opened.2 bytes := by
      simp [Disk.unlink, hcontents]
    refine Disk.read_of_contents ?_ hcontents' (Disk.openTrunc_fresh hdisk hname)
    simp [Disk.unlink, hentry, hname]

/-- The writes whose result is not compared with a length have something to write. -/
theorem saveOps_nonempty (timestamp : ℤ) (records : List Record) :
    ∀ op ∈ saveOps timestamp records, op.check ≠ .exact → op.bytes ≠ [] := by
  intro op hop hcheck
  simp only [saveOps, rdbSaveHeader, recordOps, rdbWriteString, mem_append, mem_cons,
    mem_flatMap, not_mem_nil, or_false] at hop
  rcases hop with ((rfl | rfl | rfl | rfl) | ⟨record, -, rfl | (rfl | rfl) | rfl | rfl⟩) | rfl <;>
    simp_all [rdbWriteInt, intBytes]

/-- A save is all or nothing exactly when, if no call looks failed, no write was short,
and, if one does, the file being saved is not the temporary file itself. -/
theorem rdbSave_all_or_nothing_iff (chance : SaveChance) {engines : Engines}
    (hrecords : liveRecords engines = some records) (filename : CStr) (hdisk : disk.Valid)
    (hrange : InRange chance.results 1 (saveOps chance.timestamp records)) :
    ∃ after code, rdbSave chance engines filename disk = some (after, code) ∧
      (((0 ≤ code → after.read filename = some (encoding chance.timestamp records)) ∧
          (code = -1 → after.read filename = disk.read filename)) ↔
        (NoneNoticed chance.results (saveOps chance.timestamp records) →
          Whole chance.results 1 (saveOps chance.timestamp records)) ∧
        (¬NoneNoticed chance.results (saveOps chance.timestamp records) →
          chance.results 0 < 0 ∨ tmpName filename ≠ filename ∨ disk.read filename = none)) := by
  have hsave : rdbSave chance engines filename disk =
      saveRun chance.results ((saveOps chance.timestamp records).length + 4) 0
        (startSave chance.timestamp records filename) disk := by
    simp [rdbSave, hrecords, startSave_ops]
  rw [hsave]
  by_cases hnone : NoneNoticed chance.results (saveOps chance.timestamp records)
  · obtain ⟨after, hrun, hread⟩ := saveRun_success filename disk hnone
    have hcount : ¬((records.length : ℤ) = -1) := by omega
    refine ⟨after, records.length, hrun, ?_⟩
    rw [hread, ← stored_eq_iff hrange hnone.2.1 (saveOps_nonempty _ _)]
    simp [hnone, hcount, encoding]
  · by_cases hopen : chance.results 0 < 0
    · exact ⟨disk, -1, saveRun_open_failed filename hopen _ disk, by simp [hnone, hopen]⟩
    · obtain ⟨after, hrun, hread⟩ :=
        saveRun_noticed filename hdisk (not_lt.1 hopen) hnone
      refine ⟨after, -1, hrun, ?_⟩
      rw [hread]
      by_cases hsame : tmpName filename = filename
      · simp [hnone, hopen, hsame, eq_comm]
      · simp [hnone, hsame]

theorem exists_rdbSave (chance : SaveChance) {engines : Engines}
    (hrecords : liveRecords engines = some records) (filename : CStr) (disk : Disk) :
    ∃ after code, rdbSave chance engines filename disk = some (after, code) := by
  have hfuel : (startSave chance.timestamp records filename).remaining <
      (startSave chance.timestamp records filename).ops.length + 4 := Nat.lt_succ_self _
  obtain ⟨after, code, hrun⟩ := exists_saveRun chance.results 0 disk hfuel
  exact ⟨after, code, by simpa [rdbSave, hrecords] using hrun⟩

/-- The array engine with one pair. -/
def onePairStored : Engines :=
  (engineSet ⟨Memory.allocOk, fun _ => false⟩ .array Engines.create (some (lit "k"))
    (some (lit "v"))).elim Engines.create Prod.fst

def storedPair : Record :=
  ⟨.array, lit "k", lit "v"⟩

/-- The results of its save in which every call completes. -/
def completeResults (i : ℕ) : ℤ :=
  [0, 5, 4, 4, 4, 4, 4, 1, 4, 1, 4, 0].getD i 0

theorem rdbSave_all_or_nothing_iff_complete :
    ∃ after code, rdbSave ⟨0, completeResults⟩ onePairStored rdbFilename Disk.empty =
        some (after, code) ∧
      (((0 ≤ code → after.read rdbFilename = some (encoding 0 [storedPair])) ∧
          (code = -1 → after.read rdbFilename = Disk.empty.read rdbFilename)) ↔
        (NoneNoticed completeResults (saveOps 0 [storedPair]) →
          Whole completeResults 1 (saveOps 0 [storedPair])) ∧
        (¬NoneNoticed completeResults (saveOps 0 [storedPair]) →
          completeResults 0 < 0 ∨ tmpName rdbFilename ≠ rdbFilename ∨
            Disk.empty.read rdbFilename = none)) :=
  have hwhole : Whole completeResults 1 (saveOps 0 [storedPair]) := by decide +kernel
  rdbSave_all_or_nothing_iff ⟨0, completeResults⟩ (by decide +kernel) rdbFilename
    Disk.empty_valid hwhole.inRange

/-- The write of the version stores one byte of four. -/
def shortVersion (i : ℕ) : ℤ :=
  [0, 5, 1, 4, 4, 4, 0].getD i 0

/-- A short write of an integer is reported as a successful save. -/
theorem short_integer_write_unnoticed :
    liveRecords Engines.create = some [] ∧
      (rdbSave ⟨0, shortVersion⟩ Engines.create rdbFilename Disk.empty).map (fun result =>
        (result.2, decide (result.1.read rdbFilename = some (encoding 0 [])))) =
        some (0, false) := by
  decide +kernel

end Run

end LiteMultiKV.Persist
