import LiteMultiKV.Core.Run
import LiteMultiKV.Persist.Save

/-!
# Saves that run at the same time

A background save and a save of the server, or several background saves, make their
system calls in any order.  They all write through the same temporary name.  As long
as none of them opens it while another one is between its `open` and its end, the dump
is always a whole one.
-/

namespace LiteMultiKV.Persist

open List CText Families Files Run

/-- The disk, the saves that have been started, and the snapshots they were started
with. -/
structure Saves where
  disk : Disk
  running : List SaveProcess
  snapshots : List (ℤ × List Record)

inductive SaveEvent where
  | start (timestamp : ℤ) (records : List Record)
  | call (index : ℕ) (result : ℤ)

/-- A save of the store as it is now starts, or one of the saves makes a call. -/
def saveEvent (saves : Saves) : SaveEvent → Option (Saves × Unit)
  | .start timestamp records =>
      some ({ saves with
        running := saves.running ++ [startSave timestamp records rdbFilename]
        snapshots := saves.snapshots ++ [(timestamp, records)] }, ())
  | .call index result => do
      let process ← saves.running[index]?
      let (process, disk) := saveStep result process saves.disk
      return ({ saves with disk := disk, running := saves.running.set index process }, ())

/-- The save is between its `open` and its end. -/
def SaveProcess.active (process : SaveProcess) : Bool :=
  match process.phase with
  | .writing _ _ _ => true
  | .unlinking => true
  | _ => false

/-- No save opens the temporary file while another one is active. -/
def NoOverlap (saves : Saves) : SaveEvent → Prop
  | .start _ _ => True
  | .call index result => ∀ process ∈ saves.running[index]?, process.phase = .opening →
      0 ≤ result → ∀ other ∈ saves.running, other.active = false

/-- The call is no write that passes the test of its caller without storing all its bytes. -/
def CallUncut (result : ℤ) (process : SaveProcess) : Prop :=
  match process.phase with
  | .writing _ _ (op :: _) => op.passes result = true → result = op.bytes.length
  | _ => True

instance (result : ℤ) (process : SaveProcess) : Decidable (CallUncut result process) :=
  match hphase : process.phase with
  | .writing _ _ (op :: _) =>
      decidable_of_iff (op.passes result = true → result = op.bytes.length)
        (by simp [CallUncut, hphase])
  | .writing _ _ [] => isTrue (by simp [CallUncut, hphase])
  | .opening => isTrue (by simp [CallUncut, hphase])
  | .unlinking => isTrue (by simp [CallUncut, hphase])
  | .finished _ => isTrue (by simp [CallUncut, hphase])

/-- A write that passes the test of its caller has stored all its bytes. -/
def NothingCut (saves : Saves) : SaveEvent → Prop
  | .start _ _ => True
  | .call index result => ∀ process ∈ saves.running[index]?, CallUncut result process

instance (saves : Saves) (event : SaveEvent) : Decidable (NoOverlap saves event) :=
  match event with
  | .start _ _ => isTrue trivial
  | .call index result => inferInstanceAs (Decidable (∀ process ∈ saves.running[index]?,
      process.phase = .opening → 0 ≤ result → ∀ other ∈ saves.running, other.active = false))

instance (saves : Saves) (event : SaveEvent) : Decidable (NothingCut saves event) :=
  match event with
  | .start _ _ => isTrue trivial
  | .call index result =>
      inferInstanceAs (Decidable (∀ process ∈ saves.running[index]?, CallUncut result process))

/-- There is no dump, or it is the whole encoding of one snapshot. -/
def DumpWhole (saves : Saves) : Prop :=
  saves.disk.read rdbFilename = none ∨ ∃ timestamp records,
    (timestamp, records) ∈ saves.snapshots ∧
      saves.disk.read rdbFilename = some (encoding timestamp records)

/-- What a save writes is one of the snapshots, and what it has written so far is in the
temporary file. -/
structure Progress (saves : Saves) (process : SaveProcess) : Prop where
  filename_eq : process.filename = rdbFilename
  snapshot : ∃ timestamp records, (timestamp, records) ∈ saves.snapshots ∧
    process.ops = saveOps timestamp records
  written : ∀ inode offset ops, process.phase = .writing inode offset ops →
    saves.disk.entry (tmpName rdbFilename) = some inode ∧
      ∃ done, process.ops = done ++ ops ∧
        saves.disk.contents inode = done.flatMap WriteOp.bytes ∧
        offset = (done.flatMap WriteOp.bytes).length

structure Guarded (saves : Saves) : Prop where
  valid : saves.disk.Valid
  dump : DumpWhole saves
  progress : ∀ process ∈ saves.running, Progress saves process
  alone : ∀ (left right : ℕ) (first second : SaveProcess),
    saves.running[left]? = some first → saves.running[right]? = some second →
    first.active = true → second.active = true → left = right

theorem tmpName_ne : tmpName rdbFilename ≠ rdbFilename := by
  decide

section Steps

variable {saves : Saves} {process next : SaveProcess} {disk : Disk} {index : ℕ} {result : ℤ}

theorem Progress.of_inactive (disk : Disk)
    (running : List SaveProcess) (hprogress : Progress saves process)
    (hinactive : process.active = false) :
    Progress { saves with disk := disk, running := running } process where
  filename_eq := hprogress.filename_eq
  snapshot := hprogress.snapshot
  written := by
    intro inode offset ops hphase
    rw [SaveProcess.active, hphase] at hinactive
    cases hinactive

/-- After a call of one save, the others are inactive or as they were, if the call leaves
at most that one active. -/
theorem Guarded.after_call (hguarded : Guarded saves)
    (hprocess : saves.running[index]? = some process) (hvalid : disk.Valid)
    (hdump : DumpWhole { saves with disk := disk, running := saves.running.set index next })
    (hnext : Progress { saves with disk := disk, running := saves.running.set index next } next)
    (hothers : ∀ other position, saves.running[position]? = some other → position ≠ index →
      next.active = true ∨ disk ≠ saves.disk → other.active = false) :
    Guarded { saves with disk := disk, running := saves.running.set index next } := by
  have hindex : index < saves.running.length := (List.getElem?_eq_some_iff.1 hprocess).1
  refine ⟨hvalid, hdump, ?_, ?_⟩
  · intro other hother
    obtain ⟨position, hposition⟩ := mem_iff_getElem?.1 hother
    rw [getElem?_set] at hposition
    split at hposition
    next =>
      rw [Option.some.injEq] at hposition
      exact hposition ▸ hnext
    next hne =>
      have hold := hguarded.progress other (mem_of_getElem? hposition)
      by_cases hsame : disk = saves.disk
      · subst hsame
        exact ⟨hold.filename_eq, hold.snapshot, hold.written⟩
      · exact hold.of_inactive disk _ (hothers other position hposition (Ne.symm hne)
          (.inr hsame))
  · intro left right first second hleft hright hfirst hsecond
    simp only [getElem?_set] at hleft hright
    split at hleft <;> split at hright
    next hl hr => rw [← hl, ← hr]
    next hl hr =>
      rw [Option.some.injEq] at hleft
      subst hleft
      rw [hothers second right hright (Ne.symm hr) (.inl hfirst)] at hsecond
      cases hsecond
    next hl hr =>
      rw [Option.some.injEq] at hright
      subst hright
      rw [hothers first left hleft (Ne.symm hl) (.inl hsecond)] at hfirst
      cases hfirst
    next => exact hguarded.alone left right first second hleft hright hfirst hsecond

theorem Guarded.others_inactive (hguarded : Guarded saves)
    (hprocess : saves.running[index]? = some process) (hactive : process.active = true)
    {other : SaveProcess} {position : ℕ} (hother : saves.running[position]? = some other)
    (hne : position ≠ index) : other.active = false := by
  by_contra hnot
  rw [Bool.not_eq_false] at hnot
  exact hne (hguarded.alone position index other process hother hprocess hnot hactive)

theorem DumpWhole.of_read (hdump : DumpWhole saves)
    (hread : disk.read rdbFilename = saves.disk.read rdbFilename)
    (running : List SaveProcess) :
    DumpWhole { saves with disk := disk, running := running } := by
  unfold DumpWhole
  rw [hread]
  exact hdump

/-- A save that ends without touching the disk. -/
theorem Guarded.call_idle (hguarded : Guarded saves)
    (hprocess : saves.running[index]? = some process) (hnext : next.active = false)
    (hfilename : next.filename = process.filename) (hops : next.ops = process.ops) :
    Guarded { saves with running := saves.running.set index next } := by
  have hold := hguarded.progress process (mem_of_getElem? hprocess)
  have hprogress : Progress saves next := by
    refine ⟨hfilename.trans hold.filename_eq, hops ▸ hold.snapshot, ?_⟩
    intro inode offset ops hphase
    rw [SaveProcess.active, hphase] at hnext
    cases hnext
  refine hguarded.after_call hprocess hguarded.valid (hguarded.dump.of_read rfl _)
    (hprogress.of_inactive _ _ hnext) ?_
  rintro other position - - (hactive | hdisk)
  · rw [hnext] at hactive
    cases hactive
  · exact absurd rfl hdisk

/-- The `open` gives the save an empty file of its own. -/
theorem Guarded.call_open (hguarded : Guarded saves)
    (hprocess : saves.running[index]? = some process)
    (hclear : ∀ other ∈ saves.running, other.active = false) :
    Guarded { saves with
      disk := (saves.disk.openTrunc (tmpName rdbFilename)).1
      running := saves.running.set index { process with
        phase := .writing (saves.disk.openTrunc (tmpName rdbFilename)).2 0 process.ops } } := by
  have hold := hguarded.progress process (mem_of_getElem? hprocess)
  have hentry := saves.disk.openTrunc_entry (tmpName rdbFilename)
  have hcontents := saves.disk.openTrunc_contents (tmpName rdbFilename)
  refine hguarded.after_call hprocess (hguarded.valid.openTrunc _)
    (hguarded.dump.of_read ?_ _) ⟨hold.filename_eq, hold.snapshot, ?_⟩ ?_
  · refine Disk.read_of_contents ?_ hcontents
      (Disk.openTrunc_fresh hguarded.valid (Ne.symm tmpName_ne))
    rw [hentry, Function.update_of_ne (Ne.symm tmpName_ne)]
  · intro inode offset ops hphase
    simp only [SavePhase.writing.injEq] at hphase
    obtain ⟨rfl, rfl, rfl⟩ := hphase
    exact ⟨by simp [hentry], [], rfl, by simp [hcontents], rfl⟩
  · exact fun other position hother _ _ => hclear other (mem_of_getElem? hother)

/-- A write goes to the end of the temporary file. -/
theorem Guarded.call_write (hguarded : Guarded saves)
    (hprocess : saves.running[index]? = some process) {inode offset : ℕ} {op : WriteOp}
    {ops : List WriteOp} (hphase : process.phase = .writing inode offset (op :: ops)) :
    Guarded { saves with
      disk := saves.disk.write inode offset op.bytes
      running := saves.running.set index { process with
        phase := .writing inode (offset + op.bytes.length) ops } } := by
  have hold := hguarded.progress process (mem_of_getElem? hprocess)
  have hactive : process.active = true := by rw [SaveProcess.active, hphase]
  obtain ⟨hentry, done, hops, hcontents, rfl⟩ := hold.written inode offset (op :: ops) hphase
  refine hguarded.after_call hprocess (hguarded.valid.write _ _ _)
    (hguarded.dump.of_read ?_ _) ⟨hold.filename_eq, hold.snapshot, ?_⟩ ?_
  · refine Disk.read_of_contents rfl rfl fun hdump => tmpName_ne ?_
    exact hguarded.valid.injective _ _ inode hentry hdump
  · intro other position rest hwriting
    simp only [SavePhase.writing.injEq] at hwriting
    obtain ⟨rfl, rfl, rfl⟩ := hwriting
    refine ⟨hentry, done ++ [op], by simp [hops], ?_, by simp⟩
    simp only [Disk.write, Function.update_self]
    rw [← hcontents, writeAt_length, hcontents]
    simp
  · exact fun other position hother hne _ =>
      hguarded.others_inactive hprocess hactive hother hne

/-- A write that looks failed leaves the save with the unlink to do. -/
theorem Guarded.call_write_failed (hguarded : Guarded saves)
    (hprocess : saves.running[index]? = some process) {inode offset : ℕ} {ops : List WriteOp}
    (hphase : process.phase = .writing inode offset ops) (disk : Disk)
    (hvalid : disk.Valid) (hread : disk.read rdbFilename = saves.disk.read rdbFilename) :
    Guarded { saves with
      disk := disk
      running := saves.running.set index { process with phase := .unlinking } } := by
  have hold := hguarded.progress process (mem_of_getElem? hprocess)
  have hactive : process.active = true := by rw [SaveProcess.active, hphase]
  refine hguarded.after_call hprocess hvalid (hguarded.dump.of_read hread _)
    ⟨hold.filename_eq, hold.snapshot, fun _ _ _ hwriting => by cases hwriting⟩ ?_
  exact fun other position hother hne _ =>
    hguarded.others_inactive hprocess hactive hother hne

/-- The rename makes the temporary file, which is complete, the dump. -/
theorem Guarded.call_rename (hguarded : Guarded saves)
    (hprocess : saves.running[index]? = some process) {inode offset : ℕ} (code : ℤ)
    (hphase : process.phase = .writing inode offset []) :
    Guarded { saves with
      disk := saves.disk.rename (tmpName rdbFilename) rdbFilename
      running := saves.running.set index { process with phase := .finished code } } := by
  have hold := hguarded.progress process (mem_of_getElem? hprocess)
  have hactive : process.active = true := by rw [SaveProcess.active, hphase]
  obtain ⟨hentry, done, hops, hcontents, -⟩ := hold.written inode offset [] hphase
  rw [append_nil] at hops
  obtain ⟨timestamp, records, hsnapshot, hsaved⟩ := hold.snapshot
  refine hguarded.after_call hprocess (hguarded.valid.rename _ _)
    (.inr ⟨timestamp, records, hsnapshot, ?_⟩)
    ⟨hold.filename_eq, hold.snapshot, fun _ _ _ hwriting => by cases hwriting⟩ ?_
  · rw [encoding, ← hsaved, hops, ← hcontents, Disk.read]
    simp [Disk.rename, tmpName_ne, Ne.symm tmpName_ne, hentry]
  · exact fun other position hother hne _ =>
      hguarded.others_inactive hprocess hactive hother hne

/-- The unlink leaves the dump alone. -/
theorem Guarded.call_unlink (hguarded : Guarded saves)
    (hprocess : saves.running[index]? = some process) (code : ℤ)
    (hphase : process.phase = .unlinking) :
    Guarded { saves with
      disk := saves.disk.unlink (tmpName rdbFilename)
      running := saves.running.set index { process with phase := .finished code } } := by
  have hold := hguarded.progress process (mem_of_getElem? hprocess)
  have hactive : process.active = true := by rw [SaveProcess.active, hphase]
  refine hguarded.after_call hprocess (hguarded.valid.unlink _) (hguarded.dump.of_read ?_ _)
    ⟨hold.filename_eq, hold.snapshot, fun _ _ _ hwriting => by cases hwriting⟩ ?_
  · simp [Disk.read, Disk.unlink, Ne.symm tmpName_ne]
  · exact fun other position hother hne _ =>
      hguarded.others_inactive hprocess hactive hother hne

/-- One call of a save. -/
theorem Guarded.call (hguarded : Guarded saves)
    (hprocess : saves.running[index]? = some process)
    (hoverlap : NoOverlap saves (.call index result))
    (hcut : NothingCut saves (.call index result)) :
    Guarded { saves with
      disk := (saveStep result process saves.disk).2
      running := saves.running.set index (saveStep result process saves.disk).1 } := by
  have hname := (hguarded.progress process (mem_of_getElem? hprocess)).filename_eq
  cases hphase : process.phase with
  | opening =>
      by_cases hresult : result < 0
      · have hstep : saveStep result process saves.disk =
            ({ process with phase := .finished (-1) }, saves.disk) := by
          simp [saveStep, hphase, hresult]
        rw [hstep]
        exact hguarded.call_idle hprocess rfl rfl rfl
      · have hstep : saveStep result process saves.disk =
            ({ process with
               phase := .writing (saves.disk.openTrunc (tmpName rdbFilename)).2 0 process.ops },
              (saves.disk.openTrunc (tmpName rdbFilename)).1) := by
          simp [saveStep, hphase, hresult, hname]
        rw [hstep]
        exact hguarded.call_open hprocess
          (hoverlap process hprocess hphase (not_lt.1 hresult))
  | writing inode offset ops =>
      obtain ⟨hentry, -⟩ := (hguarded.progress process
        (mem_of_getElem? hprocess)).written inode offset ops hphase
      cases ops with
      | nil =>
          by_cases hresult : result < 0
          · have hstep : saveStep result process saves.disk =
                ({ process with phase := .unlinking }, saves.disk) := by
              simp [saveStep, hphase, hresult]
            rw [hstep]
            exact hguarded.call_write_failed hprocess hphase saves.disk hguarded.valid rfl
          · have hstep : saveStep result process saves.disk =
                ({ process with phase := .finished process.count },
                  saves.disk.rename (tmpName rdbFilename) rdbFilename) := by
              simp [saveStep, hphase, hresult, hname, hentry]
            rw [hstep]
            exact hguarded.call_rename hprocess process.count hphase
      | cons op ops =>
          cases hpasses : op.passes result with
          | true =>
              have hlength : result = op.bytes.length := by
                have hprocessCut := hcut process hprocess
                rw [CallUncut, hphase] at hprocessCut
                exact hprocessCut hpasses
              have hstep : saveStep result process saves.disk =
                  ({ process with phase := .writing inode (offset + op.bytes.length) ops },
                    saves.disk.write inode offset op.bytes) := by
                rw [hlength] at hpasses
                simp [saveStep, hphase, hlength, hpasses]
              rw [hstep]
              exact hguarded.call_write hprocess hphase
          | false =>
              have hstep : saveStep result process saves.disk =
                  ({ process with phase := .unlinking },
                    saves.disk.write inode offset (op.bytes.take result.toNat)) := by
                simp [saveStep, hphase, hpasses]
              rw [hstep]
              refine hguarded.call_write_failed hprocess hphase _ (hguarded.valid.write _ _ _) ?_
              refine Disk.read_of_contents rfl rfl fun hdump => tmpName_ne ?_
              exact hguarded.valid.injective _ _ inode hentry hdump
  | unlinking =>
      have hstep : saveStep result process saves.disk =
          ({ process with phase := .finished (-1) },
            saves.disk.unlink (tmpName rdbFilename)) := by
        simp [saveStep, hphase, hname]
      rw [hstep]
      exact hguarded.call_unlink hprocess (-1) hphase
  | finished code =>
      have hstep : saveStep result process saves.disk = (process, saves.disk) := by
        simp [saveStep, hphase]
      rw [hstep]
      exact hguarded.call_idle hprocess (by rw [SaveProcess.active, hphase]) rfl rfl

/-- A save that starts does not touch the disk yet. -/
theorem Guarded.start (hguarded : Guarded saves) (timestamp : ℤ) (records : List Record) :
    Guarded { saves with
      running := saves.running ++ [startSave timestamp records rdbFilename]
      snapshots := saves.snapshots ++ [(timestamp, records)] } := by
  refine ⟨hguarded.valid, ?_, ?_, ?_⟩
  · rcases hguarded.dump with hnone | ⟨stamp, snapshot, hmem, hread⟩
    · exact .inl hnone
    · exact .inr ⟨stamp, snapshot, mem_append_left _ hmem, hread⟩
  · intro process hprocess
    rcases mem_append.1 hprocess with hold | hnew
    · obtain ⟨hfilename, ⟨stamp, snapshot, hmem, hops⟩, hwritten⟩ :=
        hguarded.progress process hold
      exact ⟨hfilename, ⟨stamp, snapshot, mem_append_left _ hmem, hops⟩, hwritten⟩
    · obtain rfl := mem_singleton.1 hnew
      exact ⟨rfl, ⟨timestamp, records, mem_append_right _ (mem_singleton_self _), rfl⟩,
        fun _ _ _ hwriting => by cases hwriting⟩
  · have hnew : ∀ (position : ℕ) (process : SaveProcess),
        (saves.running ++ [startSave timestamp records rdbFilename])[position]? = some process →
          process.active = true → saves.running[position]? = some process := by
      intro position process hposition hactive
      rw [getElem?_append] at hposition
      split at hposition
      · exact hposition
      · obtain rfl := mem_singleton.1 (mem_of_getElem? hposition)
        cases hactive
    intro left right first second hleft hright hfirst hsecond
    exact hguarded.alone left right first second (hnew left first hleft hfirst)
      (hnew right second hright hsecond) hfirst hsecond

end Steps

/-- The event is a start, or a call of a save that has been started. -/
def SaveEvent.Started (saves : Saves) : SaveEvent → Prop
  | .start _ _ => True
  | .call index _ => index < saves.running.length

instance (saves : Saves) (event : SaveEvent) : Decidable (event.Started saves) :=
  match event with
  | .start _ _ => isTrue trivial
  | .call index _ => inferInstanceAs (Decidable (index < saves.running.length))

/-- In a run in which no save opens the temporary file while another one is active, the
dump is at every moment absent or the whole encoding of one snapshot. -/
theorem dump_whole_without_overlap (disk : Disk) (hdisk : disk.Valid)
    (snapshots : List (ℤ × List Record)) (hdump : DumpWhole ⟨disk, [], snapshots⟩)
    (events : List SaveEvent)
    (hstarted : Along saveEvent SaveEvent.Started ⟨disk, [], snapshots⟩ events)
    (hcut : Along saveEvent NothingCut ⟨disk, [], snapshots⟩ events)
    (hoverlap : Along saveEvent NoOverlap ⟨disk, [], snapshots⟩ events) :
    ∃ final outputs, run saveEvent ⟨disk, [], snapshots⟩ events = some (final, outputs) ∧
      DumpWhole final := by
  have hguarded : Guarded ⟨disk, [], snapshots⟩ :=
    ⟨hdisk, hdump, by simp, fun _ _ _ _ hleft => by simp at hleft⟩
  have hstep : ∀ saves event, Guarded saves →
      ((event.Started saves ∧ NothingCut saves event) ∧ NoOverlap saves event) →
      ∃ after output, saveEvent saves event = some (after, output) ∧ Guarded after ∧ True := by
    rintro saves event hsaves ⟨⟨hindex, hnothing⟩, hclear⟩
    cases event with
    | start timestamp records => exact ⟨_, (), rfl, hsaves.start timestamp records, trivial⟩
    | call index result =>
        obtain ⟨process, hprocess⟩ : ∃ process, saves.running[index]? = some process :=
          ⟨_, getElem?_eq_getElem hindex⟩
        exact ⟨_, (), by simp [saveEvent, hprocess],
          hsaves.call hprocess hclear hnothing, trivial⟩
  obtain ⟨⟨final, outputs, hrun, hfinal⟩, -⟩ := run_invariant Guarded hstep hguarded
    ((hstarted.and hcut).and hoverlap)
  exact ⟨final, outputs, hrun, hfinal.dump⟩

/-- A second save opens its file after the first one has ended. -/
def oneAfterTheOther : List SaveEvent :=
  [.start 0 [], .start 1 [⟨.array, lit "k", lit "v"⟩], .call 0 0, .call 0 5, .call 0 4,
    .call 0 4, .call 0 4, .call 0 4, .call 0 0, .call 1 0, .call 1 5]

theorem dump_whole_without_overlap_sequence :
    ∃ final outputs, run saveEvent ⟨Disk.empty, [], []⟩ oneAfterTheOther =
      some (final, outputs) ∧ DumpWhole final :=
  dump_whole_without_overlap Disk.empty Disk.empty_valid [] (.inl rfl) oneAfterTheOther
    (by decide +kernel) (by decide +kernel) (by decide +kernel)

/-- A second save truncates the file that the first one is about to rename. -/
def overlapping : List SaveEvent :=
  [.start 0 [], .start 1 [⟨.array, lit "k", lit "v"⟩], .call 0 0, .call 0 5, .call 0 4,
    .call 0 4, .call 0 4, .call 0 4, .call 1 0, .call 0 0]

/-- The dump is an empty file, which is no encoding. -/
theorem overlapping_saves_empty_dump :
    (run saveEvent ⟨Disk.empty, [], []⟩ overlapping).map (fun result =>
        result.1.disk.read rdbFilename) = some (some []) ∧
      ∀ timestamp records, encoding timestamp records ≠ [] := by
  refine ⟨by decide +kernel, fun timestamp records hempty => ?_⟩
  simp [encoding, saveOps, rdbSaveHeader, rdbWriteInt, intBytes] at hempty

end LiteMultiKV.Persist
