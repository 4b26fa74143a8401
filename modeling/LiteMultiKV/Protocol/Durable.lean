import LiteMultiKV.Persist.Crash
import LiteMultiKV.Protocol.Service

/-!
# What survives a crash

A machine is a server, the disk, and the background saves that the server has
forked, each with its own copy of the engines.  Requests, the calls of the
background saves, their deaths and crashes of the server come in any order; a
crash may hit the server in the middle of a `SAVE`, and the saves it has forked
go on without it.  A crash ends processes; the disk keeps what they have
written.

What the server has after a restart is what the last save that got as far as
its rename has found in the engines, for a background save at its fork.
-/

namespace LiteMultiKV.Protocol

open List Cache CText Families Files Memory Numeric Persist Run

/-- A background save: the engines as they were at the fork, and how far it has come. -/
structure Child where
  engines : Engines
  process : SaveProcess

structure Machine (F : Type) where
  server : Server F
  disk : Disk
  children : List Child

/-- What happens to a machine.  A crash lets the server make `calls` calls of a `SAVE`, none
if it is not saving, before it is started again. -/
inductive MachineEvent (F : Type) where
  | request (message : Message F)
  | call (index : ℕ) (result : ℤ)
  | kill (index : ℕ)
  | crash (save : SaveChance) (calls : ℕ) (load : LoadChance)

section

variable {F : Type} [CFloat F]

/-- The message as it finds the disk. -/
def Message.on (message : Message F) (disk : Disk) : Message F :=
  { message with env := { message.env with disk := disk } }

/-- The command that the message names. -/
def Message.command (message : Message F) : Option Command :=
  message.tokens.head?.bind findCommand

/-- The engines that a request has saved. -/
def savedBy (machine : Machine F) (message : Message F) : Option Engines :=
  if message.command = some .save then
    (rdbSaveDefault message.env.save machine.server.engines machine.disk).bind fun result =>
      if 0 ≤ result.2 then some machine.server.engines else none
  else none

/-- A step of the machine, with the engines of the save that it completes, if it does. -/
def machineStep (machine : Machine F) : MachineEvent F → Option (Machine F × Option Engines)
  | .request message =>
      let message := message.on machine.disk
      (kvsProtocol message.env message.buffer message.bytes.length message.ns
          machine.server).map fun outcome =>
        ({ server := outcome.server
           disk := outcome.disk
           children := machine.children ++
             outcome.spawned.toList.map fun process => ⟨machine.server.engines, process⟩ },
          savedBy machine message)
  | .call index result =>
      machine.children[index]?.map fun child =>
        let (process, disk) := saveStep result child.process machine.disk
        ({ machine with
           disk := disk
           children := machine.children.set index { child with process := process } },
          if process.completed && !child.process.completed then some child.engines else none)
  | .kill index => some ({ machine with children := machine.children.eraseIdx index }, none)
  | .crash save calls load => do
      let records ← liveRecords machine.server.engines
      let (process, disk) := saveSteps save.results calls 0
        (startSave save.timestamp records rdbFilename) machine.disk
      let server ← initKvengine F load disk
      return ({ machine with server := server, disk := disk },
        if process.completed then some machine.server.engines else none)

/-- The first start, without a dump. -/
def Machine.start (F : Type) [CFloat F] : Machine F where
  server := Server.fresh F
  disk := Disk.empty
  children := []

/-- The engines of the last save that was completed; at first, empty ones. -/
def lastDump (notices : List (Option Engines)) : Engines :=
  notices.foldl (fun saved notice => notice.getD saved) Engines.create

theorem lastDump_snoc (notices : List (Option Engines)) (notice : Option Engines) :
    lastDump (notices ++ [notice]) = notice.getD (lastDump notices) := by
  simp [lastDump]

/-! ## Careful runs -/

/-- Every live pair can be loaded again. -/
def Filled (engines : Engines) : Prop :=
  ∀ record ∈ (liveRecords engines).getD [], 0 < strlen record.key ∧ 0 < strlen record.value

instance (engines : Engines) : Decidable (Filled engines) :=
  inferInstanceAs (Decidable (∀ record ∈ (liveRecords engines).getD [],
    0 < strlen record.key ∧ 0 < strlen record.value))

/-- The server saves what can be loaded again, while no background save is active, and no
write is cut short unnoticed. -/
structure CarefulSave (machine : Machine F) (save : SaveChance) (calls : SaveProcess → ℕ) :
    Prop where
  filled : Filled machine.server.engines
  clear : 0 ≤ save.results 0 → ∀ child ∈ machine.children, child.process.active = false
  uncut : ∀ records ∈ liveRecords machine.server.engines,
    StepsUncut save.results (calls (startSave save.timestamp records rdbFilename)) 0
      (startSave save.timestamp records rdbFilename) machine.disk

/-- The same of what the event does with files. -/
def Careful (machine : Machine F) : MachineEvent F → Prop
  | .request message =>
      (message.command = some .save →
          CarefulSave machine message.env.save fun process => process.ops.length + 4) ∧
        (message.command = some .bgsave → Filled machine.server.engines)
  | .call index result => ∀ child ∈ machine.children[index]?,
      (child.process.phase = .opening → 0 ≤ result →
        ∀ other ∈ machine.children, other.process.active = false) ∧
      CallUncut result child.process
  | .kill _ => True
  | .crash save calls _ => 0 < calls → CarefulSave machine save fun _ => calls

instance (machine : Machine F) (save : SaveChance) (calls : SaveProcess → ℕ) :
    Decidable (CarefulSave machine save calls) :=
  decidable_of_iff
    (Filled machine.server.engines ∧
      (0 ≤ save.results 0 → ∀ child ∈ machine.children, child.process.active = false) ∧
      ∀ records ∈ liveRecords machine.server.engines,
        StepsUncut save.results (calls (startSave save.timestamp records rdbFilename)) 0
          (startSave save.timestamp records rdbFilename) machine.disk)
    ⟨fun h => ⟨h.1, h.2.1, h.2.2⟩, fun h => ⟨h.filled, h.clear, h.uncut⟩⟩

instance (machine : Machine F) (event : MachineEvent F) : Decidable (Careful machine event) :=
  match event with
  | .request message => inferInstanceAs (Decidable ((message.command = some .save →
        CarefulSave machine message.env.save fun process => process.ops.length + 4) ∧
      (message.command = some .bgsave → Filled machine.server.engines)))
  | .call index result => inferInstanceAs (Decidable (∀ child ∈ machine.children[index]?,
      (child.process.phase = .opening → 0 ≤ result →
        ∀ other ∈ machine.children, other.process.active = false) ∧
      CallUncut result child.process))
  | .kill _ => isTrue trivial
  | .crash save calls _ =>
      inferInstanceAs (Decidable (0 < calls → CarefulSave machine save fun _ => calls))

/-- Memory is never short, and messages fit their buffer. -/
def MachineEvent.Served : MachineEvent F → Prop
  | .request message => message.env.alloc = allocOk ∧ message.bytes.length ≤ messageLimit
  | .call _ _ => True
  | .kill _ => True
  | .crash _ _ load => load.Succeeds

/-! ## What a request does with files -/

/-- The three ways in which a request treats the disk. -/
inductive FileUse (env : Env F) (engines : Engines) (outcome : Outcome F) :
    Option Command → Prop
  | none {command : Option Command} (hcommand : command ≠ some .save)
      (hdisk : outcome.disk = env.disk) (hspawned : outcome.spawned = Option.none) :
      FileUse env engines outcome command
  | save {code : ℤ} (hsave : rdbSaveDefault env.save engines env.disk = some (outcome.disk, code))
      (hspawned : outcome.spawned = Option.none) : FileUse env engines outcome (some .save)
  | fork (hdisk : outcome.disk = env.disk)
      (hspawned : outcome.spawned = (liveRecords engines).map fun records =>
        startSave env.save.timestamp records rdbFilename) :
      FileUse env engines outcome (some .bgsave)

theorem runCommand_fileUse {enableCache : Bool} {env : Env F} {command : Command}
    {tokens : List CStr} {ns : CStr} {server : Server F} {outcome : Outcome F}
    (hrun : runCommand enableCache env command tokens ns server = some outcome) :
    FileUse env server.engines outcome (some command) := by
  cases ran_of_runCommand hrun with
  | keyValue | ns => exact .none (by simp) rfl rfl
  | vector hother | cache hother => exact .none (by simpa using hother) rfl rfl
  | save hsave =>
      obtain ⟨⟨disk, code⟩, hsaved, hdone⟩ := Option.bind_eq_some_iff.1 hsave
      obtain ⟨rfl, -⟩ := Prod.mk.inj (Option.some.inj hdone)
      exact .save hsaved rfl
  | bgsave =>
      by_cases hpid : 0 < env.pid
      · exact .fork rfl (by rw [bgsaveCommand, if_pos hpid])
      · exact .none (by simp) rfl (by rw [bgsaveCommand, if_neg hpid])

theorem kvsProtocol_fileUse {message : Message F} {server : Server F} {outcome : Outcome F}
    (hprotocol : kvsProtocol message.env message.buffer message.bytes.length message.ns server =
      some outcome) :
    FileUse message.env server.engines outcome message.command := by
  by_cases hempty : message.bytes = []
  · have hcommand : message.command = none := by
      rw [Message.command, Message.tokens, Message.buffer, hempty]
      rfl
    have hidle : kvsProtocol message.env message.buffer message.bytes.length message.ns server =
        some { server := server, ns := message.ns, disk := message.env.disk, spawned := none,
               reply := { buffer := [], length := -1 } } := by
      simp [kvsProtocol, hempty]
    obtain rfl := Option.some.inj (hidle.symm.trans hprotocol)
    exact .none (by simp [hcommand]) rfl rfl
  · rw [kvsProtocol_eq_filter _ _ (length_pos_iff.2 hempty), kvsFilterProtocol] at hprotocol
    split at hprotocol
    next command hcommand =>
      rw [show message.command = some command from hcommand]
      exact runCommand_fileUse hprotocol
    next hcommand =>
      obtain rfl := Option.some.inj hprotocol
      rw [show message.command = none from hcommand]
      exact .none (by simp) rfl rfl

/-! ## What the disk holds -/

/-- Engines that a dump brings back. -/
structure Restorable (engines : Engines) : Prop where
  stocked : Stocked engines
  filled : Filled engines

/-- The dump holds the engines; there is none as long as nothing was saved. -/
def Dumped (disk : Disk) (saved : Engines) : Prop :=
  disk.read rdbFilename = none ∧ saved = Engines.create ∨
    ∃ timestamp records, Restorable saved ∧ liveRecords saved = some records ∧
      disk.read rdbFilename = some (encoding timestamp records)

/-- Loading the dump brings back all texts. -/
theorem Dumped.load {disk : Disk} {saved : Engines} (hdumped : Dumped disk saved)
    {load : LoadChance} (hload : load.Succeeds) :
    ∃ engines, initKvengine F load disk = some { Server.fresh F with engines := engines } ∧
      Stocked engines ∧ ∀ family, textHeld family engines = textHeld family saved := by
  rcases hdumped with ⟨habsent, rfl⟩ | ⟨timestamp, records, hrestorable, hrecords, hread⟩
  · exact ⟨Engines.create, initKvengine_eq load habsent, stocked_create, fun _ => rfl⟩
  · obtain ⟨expected, hexpected, -, hlive, hloadable⟩ :=
      liveRecords_spec hrestorable.stocked.sound
    obtain rfl : expected = records := Option.some.inj (hexpected.symm.trans hrecords)
    have haccepted : ∀ record ∈ expected, record.Accepted := by
      intro record hrecord
      have hfilled := hrestorable.filled record (by rwa [hrecords])
      have hbounded := hrestorable.stocked.bounded record.family record.key record.value
        ((hlive record).1 hrecord)
      exact ⟨⟨hfilled.1, hbounded.1⟩, hfilled.2, hbounded.2⟩
    obtain ⟨engines, habsorbed, hloaded⟩ := rdbLoad_encoding hload timestamp haccepted hloadable
    have htexts := habsorbed.textHeld_eq hlive
    refine ⟨engines, ?_, ⟨habsorbed.sound, ?_⟩, htexts⟩
    · simp [initKvengine, rdbLoadDefault, hread, hloaded, Server.fresh]
    · intro family key value htext
      rw [htexts] at htext
      exact hrestorable.stocked.bounded family key value htext

/-- A child writes the records of its own engines. -/
structure Child.Faithful (child : Child) : Prop where
  restorable : Restorable child.engines
  count_nonneg : 0 ≤ child.process.count
  ops_eq : ∃ timestamp records, liveRecords child.engines = some records ∧
    child.process.ops = saveOps timestamp records

/-- The machine has the given engines on its disk, and its saves do not get in each other's
way. -/
structure Kept (machine : Machine F) (saved : Engines) : Prop where
  stocked : Stocked machine.server.engines
  dumped : Dumped machine.disk saved
  faithful : ∀ child ∈ machine.children, child.Faithful
  guarded : ∃ snapshots, Guarded ⟨machine.disk, machine.children.map Child.process, snapshots⟩

theorem kept_start : Kept (Machine.start F) Engines.create where
  stocked := stocked_create
  dumped := .inl ⟨rfl, rfl⟩
  faithful := by simp [Machine.start]
  guarded := ⟨[], Disk.empty_valid, .inl rfl, by simp [Machine.start], by simp [Machine.start]⟩

/-- The dump after some calls of a save of the given engines. -/
theorem Dumped.advance {disk after : Disk} {saved engines : Engines} {process next : SaveProcess}
    (hdumped : Dumped disk saved) (hadvance : Advance process next disk after)
    (hrestorable : Restorable engines) {timestamp : ℤ} {records : List Record}
    (hrecords : liveRecords engines = some records)
    (hops : process.ops = saveOps timestamp records) :
    Dumped after
      ((if next.completed && !process.completed then some engines else none).getD saved) := by
  cases hadvance with
  | same hread hcompleted =>
      rw [hcompleted, Bool.and_not_self]
      simpa [Dumped, hread] using hdumped
  | renamed hbefore hcompleted hread =>
      rw [hbefore, hcompleted]
      exact .inr ⟨timestamp, records, hrestorable, hrecords, by rw [hread, hops, encoding]⟩

/-! ## The steps -/

section Steps

variable {machine after : Machine F} {saved : Engines} {notice : Option Engines}

theorem Kept.call {index : ℕ} {result : ℤ} (hkept : Kept machine saved)
    (hcareful : Careful machine (.call index result))
    (hstep : machineStep machine (.call index result) = some (after, notice)) :
    Kept after (notice.getD saved) := by
  simp only [machineStep, Option.map_eq_some_iff, Prod.mk.injEq] at hstep
  obtain ⟨child, hchild, rfl, rfl⟩ := hstep
  obtain ⟨hclear, huncut⟩ := hcareful child hchild
  obtain ⟨snapshots, hguarded⟩ := hkept.guarded
  obtain ⟨hrestorable, hcount, timestamp, records, hrecords, hops⟩ :=
    hkept.faithful child (mem_of_getElem? hchild)
  have hprocess : (machine.children.map Child.process)[index]? = some child.process := by
    rw [getElem?_map, hchild]
    rfl
  have hprogress := hguarded.progress child.process (mem_of_getElem? hprocess)
  have hadvance := saveStep_advance hguarded.valid hprogress hcount result
  have hsame := saveStep_process result child.process machine.disk
  refine ⟨hkept.stocked, hkept.dumped.advance hadvance hrestorable hrecords hops, ?_, snapshots,
    ?_⟩
  · intro other hother
    rcases mem_or_eq_of_mem_set hother with hold | rfl
    · exact hkept.faithful other hold
    · exact ⟨hrestorable, by rw [hsame]; exact hcount, timestamp, records, hrecords,
        by rw [hsame]; exact hops⟩
  · rw [map_set]
    refine hguarded.call hprocess ?_ ?_
    · intro process hfound hopening hresult other hother
      obtain rfl := Option.some.inj (hprocess.symm.trans hfound)
      obtain ⟨found, hmem, rfl⟩ := mem_map.1 hother
      exact hclear hopening hresult found hmem
    · intro process hfound
      obtain rfl := Option.some.inj (hprocess.symm.trans hfound)
      exact huncut

theorem Kept.kill {index : ℕ} (hkept : Kept machine saved)
    (hstep : machineStep machine (.kill index) = some (after, notice)) :
    Kept after (notice.getD saved) := by
  obtain ⟨rfl, rfl⟩ := Prod.mk.inj (Option.some.inj hstep)
  obtain ⟨snapshots, hguarded⟩ := hkept.guarded
  refine ⟨hkept.stocked, hkept.dumped, ?_, snapshots, ?_⟩
  · exact fun child hchild => hkept.faithful child (mem_of_mem_eraseIdx hchild)
  · simpa [eraseIdx_map] using hguarded.eraseIdx index

omit [CFloat F] in
/-- What the calls of a save of the server leave behind. -/
theorem Kept.foreground {save : SaveChance} {records : List Record}
    (hkept : Kept machine saved) (calls : SaveProcess → ℕ)
    (hrecords : liveRecords machine.server.engines = some records)
    {process next : SaveProcess} {disk : Disk}
    (hprocess : startSave save.timestamp records rdbFilename = process)
    (hcareful : 0 < calls process → CarefulSave machine save calls)
    (hsteps : saveSteps save.results (calls process) 0 process machine.disk = (next, disk)) :
    Dumped disk ((if next.completed then some machine.server.engines else none).getD saved) ∧
      ∃ snapshots, Guarded ⟨disk, machine.children.map Child.process, snapshots⟩ := by
  subst hprocess
  obtain ⟨snapshots, hguarded⟩ := hkept.guarded
  rcases Nat.eq_zero_or_pos (calls (startSave save.timestamp records rdbFilename)) with
    hnone | hsome
  · rw [hnone] at hsteps
    obtain ⟨rfl, rfl⟩ := Prod.mk.inj hsteps
    exact ⟨hkept.dumped, snapshots, hguarded⟩
  · obtain ⟨hfilled, hclear, huncut⟩ := hcareful hsome
    have hstarted := hguarded.start save.timestamp records
    have hcount : 0 ≤ (startSave save.timestamp records rdbFilename).count :=
      Int.natCast_nonneg _
    obtain ⟨hafter, hadvance⟩ := hstarted.saveSteps (fun _ _ hresult process hmem => by
      obtain ⟨child, hchild, rfl⟩ := mem_map.1 hmem
      exact hclear hresult child hchild) (huncut records hrecords) hcount
    rw [hsteps] at hafter hadvance
    have hdumped := hkept.dumped.advance hadvance ⟨hkept.stocked, hfilled⟩ hrecords rfl
    have herased := hafter.eraseIdx (machine.children.map Child.process).length
    rw [eraseIdx_append_of_length_le (le_refl _), Nat.sub_self, eraseIdx_cons_zero,
      append_nil] at herased
    have hstart : (startSave save.timestamp records rdbFilename).completed = false := rfl
    rw [hstart, Bool.not_false, Bool.and_true] at hdumped
    exact ⟨hdumped, _, herased⟩

theorem Kept.crash {save : SaveChance} {calls : ℕ} {load : LoadChance}
    (hkept : Kept machine saved) (hcareful : Careful machine (.crash save calls load))
    (hload : load.Succeeds)
    (hstep : machineStep machine (.crash save calls load) = some (after, notice)) :
    Kept after (notice.getD saved) := by
  simp only [machineStep, Option.bind_eq_bind, Option.bind_eq_some_iff, Option.pure_def,
    Option.some.injEq, Prod.mk.injEq] at hstep
  obtain ⟨records, hrecords, server, hserver, rfl, rfl⟩ := hstep
  obtain ⟨hdumped, hguarded⟩ := hkept.foreground (fun _ => calls) hrecords rfl hcareful rfl
  obtain ⟨engines, hloaded, hstocked, -⟩ := hdumped.load (F := F) hload
  obtain rfl := Option.some.inj (hloaded.symm.trans hserver)
  exact ⟨hstocked, hdumped, hkept.faithful, hguarded⟩

theorem Kept.request {message : Message F} (hkept : Kept machine saved)
    (hcareful : Careful machine (.request message)) (halloc : message.env.alloc = allocOk)
    (hlength : message.bytes.length ≤ messageLimit)
    (hstep : machineStep machine (.request message) = some (after, notice)) :
    Kept after (notice.getD saved) := by
  obtain ⟨outcome, hprotocol, hafter⟩ := Option.map_eq_some_iff.1 hstep
  obtain ⟨rfl, rfl⟩ := Prod.mk.inj hafter
  have hstocked : Stocked outcome.server.engines := by
    have hown : (message.on machine.disk).env.alloc = allocOk := halloc
    have hreceive : receive machine.server (message.on machine.disk) =
        some (outcome.server, outcome.reply) := by
      rw [receive, hprotocol]
      rfl
    exact hkept.stocked.receive hown hlength hreceive
  have huse := kvsProtocol_fileUse hprotocol
  have hcommand : (message.on machine.disk).command = message.command := rfl
  rw [hcommand] at huse
  generalize hname : message.command = command at huse
  cases huse with
  | none hother hdisk hspawned =>
      have hnotice : savedBy machine (message.on machine.disk) = none := by
        rw [savedBy, hcommand, if_neg (hname ▸ hother)]
      have hsame : outcome.disk = machine.disk := hdisk
      rw [hnotice, hspawned, hsame]
      exact ⟨hstocked, hkept.dumped, by simpa using hkept.faithful, by simpa using hkept.guarded⟩
  | @save code hsave hspawned =>
      obtain ⟨records, hrecords, -⟩ := liveRecords_spec hkept.stocked.sound
      have hrun := hsave
      simp only [rdbSaveDefault, rdbSave, hrecords, Option.bind_eq_bind, Option.bind_some] at hrun
      obtain ⟨final, hsteps, hphase⟩ := saveSteps_of_saveRun hrun
      obtain ⟨hdumped, hguarded⟩ := hkept.foreground (fun process => process.ops.length + 4)
        hrecords rfl (fun _ => hcareful.1 hname) hsteps
      have hnotice : savedBy machine (message.on machine.disk) =
          if final.completed then some machine.server.engines else none := by
        have hdefault : rdbSaveDefault (message.on machine.disk).env.save machine.server.engines
            machine.disk = some (outcome.disk, code) := hsave
        rw [savedBy, hcommand, if_pos hname, hdefault]
        simp [SaveProcess.completed, hphase]
      rw [hnotice, hspawned]
      exact ⟨hstocked, hdumped, by simpa using hkept.faithful, by simpa using hguarded⟩
  | fork hdisk hspawned =>
      obtain ⟨records, hrecords, -⟩ := liveRecords_spec hkept.stocked.sound
      have hnotice : savedBy machine (message.on machine.disk) = none := by
        rw [savedBy, hcommand, hname, if_neg (by simp)]
      have hsame : outcome.disk = machine.disk := hdisk
      rw [hnotice, hspawned, hsame, hrecords]
      obtain ⟨snapshots, hguarded⟩ := hkept.guarded
      refine ⟨hstocked, hkept.dumped, ?_,
        snapshots ++ [((message.on machine.disk).env.save.timestamp, records)], ?_⟩
      · intro child hchild
        rcases mem_append.1 hchild with hold | hnew
        · exact hkept.faithful child hold
        · obtain rfl := mem_singleton.1 hnew
          exact ⟨⟨hkept.stocked, hcareful.2 hname⟩, Int.natCast_nonneg _, _, records, hrecords, rfl⟩
      · simpa using hguarded.start (message.on machine.disk).env.save.timestamp records

/-- One step keeps the dump in step with what was saved. -/
theorem Kept.step {event : MachineEvent F} (hkept : Kept machine saved)
    (hcareful : Careful machine event) (hserved : event.Served)
    (hstep : machineStep machine event = some (after, notice)) :
    Kept after (notice.getD saved) := by
  cases event with
  | request message => exact hkept.request hcareful hserved.1 hserved.2 hstep
  | call index result => exact hkept.call hcareful hstep
  | kill index => exact hkept.kill hstep
  | crash save calls load => exact hkept.crash hcareful hserved hstep

end Steps

/-- After any careful run, however often the server has crashed in it, a restart brings back
all texts of the engines of the last completed save, and nothing else. -/
theorem restart_restores_last_save (events : List (MachineEvent F))
    (hserved : ∀ event ∈ events, event.Served)
    (hcareful : Along machineStep Careful (Machine.start F) events)
    {machine : Machine F} {notices : List (Option Engines)}
    (hrun : run machineStep (Machine.start F) events = some (machine, notices))
    (load : LoadChance) (hload : load.Succeeds) :
    ∃ engines, initKvengine F load machine.disk =
        some { Server.fresh F with engines := engines } ∧
      ∀ family, textHeld family engines = textHeld family (lastDump notices) := by
  have hstep : ∀ machine past event after notice, Kept machine (lastDump past) →
      (Careful machine event ∧ event.Served) →
      machineStep machine event = some (after, notice) →
      Kept (F := F) after (lastDump (past ++ [notice])) := by
    intro machine past event after notice hkept hevent hstep
    rw [lastDump_snoc]
    exact hkept.step hevent.1 hevent.2 hstep
  have hstart : Kept (Machine.start F) (lastDump []) := kept_start
  have hkept := run_history_along hstep hstart (hcareful.and_forall hserved) hrun
  rw [nil_append] at hkept
  obtain ⟨engines, hloaded, -, htexts⟩ := hkept.dumped.load (F := F) hload
  exact ⟨engines, hloaded, htexts⟩

/-- A pair is stored and saved in the background; during the save another pair comes in, and
the server dies in a save of both. -/
def interrupted : List (MachineEvent Float32) :=
  [.request (Message.typed Float32 "default" "SET k v\r\n"),
    .request (Message.typed Float32 "default" "BGSAVE\r\n"), .call 0 0, .call 0 5, .call 0 4,
    .request (Message.typed Float32 "default" "SET j w\r\n"),
    .call 0 4, .call 0 4, .call 0 4, .call 0 4, .call 0 1, .call 0 4, .call 0 1, .call 0 4,
    .call 0 0, .crash ⟨0, filledResults⟩ 5 LoadChance.quiet]

theorem restart_restores_last_save_interrupted :
    ∃ machine notices engines,
      run machineStep (Machine.start Float32) interrupted = some (machine, notices) ∧
      initKvengine Float32 LoadChance.quiet machine.disk =
        some { Server.fresh Float32 with engines := engines } ∧
      textHeld .array engines (lit "k") = some (lit "v") ∧
      textHeld .array engines (lit "j") = none := by
  have htexts : (run machineStep (Machine.start Float32) interrupted).map (fun result =>
      [textHeld .array (lastDump result.2) (lit "k"),
        textHeld .array (lastDump result.2) (lit "j")]) = some [some (lit "v"), none] := by
    decide +kernel
  obtain ⟨⟨machine, notices⟩, hrun, htexts⟩ := Option.map_eq_some_iff.1 htexts
  have hserved : ∀ event ∈ interrupted, event.Served := by
    simp only [interrupted, forall_mem_cons, MachineEvent.Served, not_mem_nil, IsEmpty.forall_iff,
      implies_true, and_true, true_and]
    exact ⟨⟨rfl, by decide⟩, ⟨rfl, by decide⟩, ⟨rfl, by decide⟩, LoadChance.quiet_succeeds⟩
  obtain ⟨engines, hloaded, hengines⟩ := restart_restores_last_save interrupted hserved
    (by decide +kernel) hrun LoadChance.quiet LoadChance.quiet_succeeds
  obtain ⟨hk, hj⟩ : textHeld .array (lastDump notices) (lit "k") = some (lit "v") ∧
      textHeld .array (lastDump notices) (lit "j") = none := by simpa using htexts
  exact ⟨machine, notices, engines, hrun, hloaded, by rw [hengines, hk], by rw [hengines, hj]⟩

end

end LiteMultiKV.Protocol
