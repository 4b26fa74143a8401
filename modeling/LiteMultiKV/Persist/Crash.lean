import LiteMultiKV.Persist.Interleave

/-!
# Saves that are cut off

A save dies with its process, after any of its calls.  This file says what the
calls made so far have done to the dump: nothing, until the rename has put the
whole new file in its place.
-/

namespace LiteMultiKV.Persist

open List Files

/-- The next `calls` calls of a save, the first of which returns `results i`. -/
def saveSteps (results : ℕ → ℤ) : ℕ → ℕ → SaveProcess → Disk → SaveProcess × Disk
  | 0, _, process, disk => (process, disk)
  | calls + 1, i, process, disk =>
      let (process, disk) := saveStep (results i) process disk
      saveSteps results calls (i + 1) process disk

/-- The save has put its file in place. -/
def SaveProcess.completed (process : SaveProcess) : Bool :=
  match process.phase with
  | .finished code => 0 ≤ code
  | _ => false

def StepsUncut (results : ℕ → ℤ) : ℕ → ℕ → SaveProcess → Disk → Prop
  | 0, _, _, _ => True
  | calls + 1, i, process, disk =>
      CallUncut (results i) process ∧
        StepsUncut results calls (i + 1) (saveStep (results i) process disk).1
          (saveStep (results i) process disk).2

instance decidableStepsUncut (results : ℕ → ℤ) :
    ∀ calls i process disk, Decidable (StepsUncut results calls i process disk)
  | 0, _, _, _ => isTrue trivial
  | calls + 1, i, process, disk =>
      have := decidableStepsUncut results calls (i + 1) (saveStep (results i) process disk).1
        (saveStep (results i) process disk).2
      inferInstanceAs (Decidable (CallUncut (results i) process ∧
        StepsUncut results calls (i + 1) (saveStep (results i) process disk).1
          (saveStep (results i) process disk).2))

/-! ## What a call leaves alone -/

section Calls

variable {results : ℕ → ℤ} {process : SaveProcess} {disk : Disk} {saves : Saves}

/-- A call changes the phase of its save and nothing else of it. -/
theorem saveStep_process (result : ℤ) (process : SaveProcess) (disk : Disk) :
    (saveStep result process disk).1 =
      { process with phase := (saveStep result process disk).1.phase } := by
  obtain ⟨filename, ops, count, phase⟩ := process
  cases phase with
  | opening =>
      simp only [saveStep]
      split <;> rfl
  | writing inode offset ops =>
      cases ops <;> simp only [saveStep] <;> split <;> rfl
  | unlinking => rfl
  | finished code => rfl

theorem saveStep_phase_ne (result : ℤ) (process : SaveProcess) (disk : Disk) :
    (saveStep result process disk).1.phase ≠ .opening := by
  obtain ⟨filename, ops, count, phase⟩ := process
  cases phase with
  | opening =>
      simp only [saveStep]
      split <;> simp
  | writing inode offset ops =>
      cases ops <;> simp only [saveStep] <;> split <;> simp
  | unlinking => simp [saveStep]
  | finished code => simp [saveStep]

theorem saveStep_finished {code : ℤ} (hphase : process.phase = .finished code) (result : ℤ)
    (disk : Disk) : saveStep result process disk = (process, disk) := by
  simp only [saveStep, hphase]

theorem saveSteps_finished {code : ℤ} (hphase : process.phase = .finished code) (calls i : ℕ)
    (disk : Disk) : saveSteps results calls i process disk = (process, disk) := by
  induction calls generalizing i with
  | zero => rfl
  | succ calls ih =>
      rw [saveSteps, saveStep_finished hphase]
      exact ih (i + 1)

/-- A save that runs to its end makes its calls one after the other. -/
theorem saveSteps_of_saveRun {fuel i : ℕ} {after : Disk} {code : ℤ}
    (hrun : saveRun results fuel i process disk = some (after, code)) :
    ∃ final, saveSteps results fuel i process disk = (final, after) ∧
      final.phase = .finished code := by
  induction fuel generalizing i process disk with
  | zero => cases hrun
  | succ fuel ih =>
      unfold saveRun at hrun
      split at hrun
      next ended hphase =>
        obtain ⟨rfl, rfl⟩ := Prod.mk.inj (Option.some.inj hrun)
        exact ⟨process, saveSteps_finished hphase _ _ _, hphase⟩
      next => exact ih hrun

/-! ## The dump -/

/-- What calls of a save do to the dump: nothing, or they put all of its file in place. -/
inductive Advance (process next : SaveProcess) (disk after : Disk) : Prop
  | same (hread : after.read rdbFilename = disk.read rdbFilename)
      (hcompleted : next.completed = process.completed) : Advance process next disk after
  | renamed (hbefore : process.completed = false) (hcompleted : next.completed = true)
      (hread : after.read rdbFilename = some (process.ops.flatMap WriteOp.bytes)) :
      Advance process next disk after

theorem saveStep_advance (hvalid : saves.disk.Valid) (hprogress : Progress saves process)
    (hcount : 0 ≤ process.count) (result : ℤ) :
    Advance process (saveStep result process saves.disk).1 saves.disk
      (saveStep result process saves.disk).2 := by
  have hname := hprogress.filename_eq
  cases hphase : process.phase with
  | opening =>
      have hbefore : process.completed = false := by rw [SaveProcess.completed, hphase]
      by_cases hresult : result < 0
      · simp only [saveStep, hphase, if_pos hresult]
        exact .same rfl hbefore.symm
      · simp only [saveStep, hphase, if_neg hresult, hname]
        refine .same ?_ hbefore.symm
        refine Disk.read_of_contents ?_ (Disk.openTrunc_contents _ _)
          (Disk.openTrunc_fresh hvalid (Ne.symm tmpName_ne))
        rw [Disk.openTrunc_entry, Function.update_of_ne (Ne.symm tmpName_ne)]
  | writing inode offset ops =>
      have hbefore : process.completed = false := by rw [SaveProcess.completed, hphase]
      obtain ⟨hentry, done, hops, hcontents, -⟩ := hprogress.written inode offset ops hphase
      cases ops with
      | nil =>
          by_cases hresult : result < 0
          · simp only [saveStep, hphase, hresult, true_or, if_true]
            exact .same rfl hbefore.symm
          · simp only [saveStep, hphase, hname, hresult, hentry, reduceCtorEq, or_self, if_false]
            refine .renamed hbefore (by simpa [SaveProcess.completed] using hcount) ?_
            rw [append_nil] at hops
            rw [hops, ← hcontents, Disk.read]
            simp [Disk.rename, tmpName_ne, Ne.symm tmpName_ne, hentry]
      | cons op ops =>
          have hother : saves.disk.entry rdbFilename ≠ some inode := fun hdump =>
            tmpName_ne (hvalid.injective _ _ inode hentry hdump)
          have hread : (saves.disk.write inode offset (op.bytes.take result.toNat)).read
              rdbFilename = saves.disk.read rdbFilename :=
            Disk.read_of_contents rfl rfl hother
          simp only [saveStep, hphase]
          split
          · exact .same hread hbefore.symm
          · exact .same hread hbefore.symm
  | unlinking =>
      have hbefore : process.completed = false := by rw [SaveProcess.completed, hphase]
      simp only [saveStep, hphase, hname]
      refine .same ?_ hbefore.symm
      simp [Disk.read, Disk.unlink, Ne.symm tmpName_ne]
  | finished code =>
      rw [saveStep_finished hphase]
      exact .same rfl rfl

theorem Advance.trans {middle next : SaveProcess} {between after : Disk}
    (hfirst : Advance process middle disk between) (hsecond : Advance middle next between after)
    (hops : middle.ops = process.ops) : Advance process next disk after := by
  cases hfirst with
  | same hread hcompleted =>
      cases hsecond with
      | same hthen hended => exact .same (hthen.trans hread) (hended.trans hcompleted)
      | renamed hbefore hended hthen =>
          exact .renamed (hcompleted ▸ hbefore) hended (hops ▸ hthen)
  | renamed hbefore hcompleted hread =>
      cases hsecond with
      | same hthen hended => exact .renamed hbefore (hended.trans hcompleted) (hthen.trans hread)
      | renamed hnot => simp [hcompleted] at hnot

/-! ## A save while the others stand still -/

/-- A save that dies leaves its temporary file as it is. -/
theorem Guarded.eraseIdx (hguarded : Guarded saves) (index : ℕ) :
    Guarded { saves with running := saves.running.eraseIdx index } := by
  have hold : ∀ (position : ℕ) (process : SaveProcess),
      (saves.running.eraseIdx index)[position]? = some process →
        saves.running[if position < index then position else position + 1]? = some process := by
    intro position process hposition
    rw [getElem?_eraseIdx] at hposition
    split at hposition
    next hbefore => rw [if_pos hbefore, hposition]
    next hbehind => rw [if_neg hbehind, hposition]
  refine ⟨hguarded.valid, hguarded.dump, ?_, ?_⟩
  · intro process hprocess
    obtain ⟨hfilename, hsnapshot, hwritten⟩ :=
      hguarded.progress process (mem_of_mem_eraseIdx hprocess)
    exact ⟨hfilename, hsnapshot, hwritten⟩
  · intro left right first second hleft hright hfirst hsecond
    have hsame := hguarded.alone _ _ first second (hold left first hleft)
      (hold right second hright) hfirst hsecond
    split at hsame <;> split at hsame <;> omega

/-- The calls of one save, after which it may be cut off. -/
theorem Guarded.saveSteps {running : List SaveProcess} {snapshots : List (ℤ × List Record)}
    {calls i : ℕ} (hguarded : Guarded ⟨disk, running ++ [process], snapshots⟩)
    (hclear : process.phase = .opening → 0 < calls → 0 ≤ results i →
      ∀ other ∈ running, other.active = false)
    (huncut : StepsUncut results calls i process disk) (hcount : 0 ≤ process.count) :
    Guarded ⟨(saveSteps results calls i process disk).2,
        running ++ [(saveSteps results calls i process disk).1], snapshots⟩ ∧
      Advance process (saveSteps results calls i process disk).1 disk
        (saveSteps results calls i process disk).2 := by
  induction calls generalizing i process disk with
  | zero => exact ⟨hguarded, .same rfl rfl⟩
  | succ calls ih =>
      have hlast : (running ++ [process])[running.length]? = some process := by simp
      have hprogress := hguarded.progress process (mem_of_getElem? hlast)
      have hadvance := saveStep_advance hguarded.valid hprogress hcount (results i)
      have hoverlap : NoOverlap ⟨disk, running ++ [process], snapshots⟩
          (.call running.length (results i)) := by
        intro found hfound hopening hresult other hother
        obtain rfl := Option.some.inj (hlast.symm.trans hfound)
        rcases mem_append.1 hother with hbefore | hown
        · exact hclear hopening (Nat.succ_pos _) hresult other hbefore
        · rw [mem_singleton.1 hown, SaveProcess.active, hopening]
      have hcut : NothingCut ⟨disk, running ++ [process], snapshots⟩
          (.call running.length (results i)) := by
        intro found hfound
        obtain rfl := Option.some.inj (hlast.symm.trans hfound)
        exact huncut.1
      have hnext := hguarded.call hlast hoverlap hcut
      rw [set_append_right _ _ (le_refl _), Nat.sub_self, set_cons_zero] at hnext
      have hprocess := saveStep_process (results i) process disk
      have hkept : 0 ≤ (saveStep (results i) process disk).1.count := by
        rw [hprocess]
        exact hcount
      -- a save that has made a call never opens its file again
      have hopened := saveStep_phase_ne (results i) process disk
      obtain ⟨hafter, hrest⟩ := ih hnext (fun hopening => absurd hopening hopened) huncut.2 hkept
      exact ⟨hafter, hadvance.trans hrest (by rw [hprocess])⟩

end Calls

end LiteMultiKV.Persist
