import LiteMultiKV.Core.Dictionary
import LiteMultiKV.Core.Sessions
import LiteMultiKV.Network.Proactor

/-!
# Connections of the proactor

The loop and the kernel pass the operations of a connection between them.  This
file adds the descriptors that are open to the model of the proactor: an accept
returns one that is not, and a receive on one that is not fails.  Then every
connection has at most one operation under way, wherever the operation is, and
goes round in a circle: a receive, the handler, a send, and a receive again.

So, whatever becomes of the bytes in the shared buffers, the handler serves one
request after the other, each with the namespace of its own connection, and
makes one send for every request before it sees the next one of the connection.
-/

namespace LiteMultiKV.Network

open List CText Dictionary Run LiteMultiKV.Sessions

/-! ## Operations under way -/

/-- How far a connection has come: it is accepted, waits for bytes, has got some, or the end of
them, or an error; its reply waits to be read, or has been read. -/
inductive Leg where
  | accepted
  | receiving
  | arrived
  | hungUp
  | failed
  | replying
  | replied
  deriving DecidableEq

/-- What an operation, with its result if it has one, says of a connection.  Receives on the
negative results of failed accepts are not counted as long as they do not succeed. -/
def Sqe.leg : Sqe → Option ℤ → Option (Σ _ : ℤ, Leg)
  | .accept, none => none
  | .accept, some res => if 0 ≤ res then some (entry res .accepted) else none
  | .recv fd, none => if 0 ≤ fd then some (entry fd .receiving) else none
  | .recv fd, some res =>
      if res = 0 then some (entry fd .hungUp)
      else if 0 < res then some (entry fd .arrived)
      else if 0 ≤ fd then some (entry fd .failed)
      else none
  | .send fd _, none => some (entry fd .replying)
  | .send fd _, some _ => some (entry fd .replied)

def Posted.leg (operation : Posted) : Option (Σ _ : ℤ, Leg) :=
  operation.sqe.leg operation.result

def Cqe.leg (item : Cqe) : Option (Σ _ : ℤ, Leg) :=
  item.sqe.leg (some item.res)

def flightsOf (prepared : List Sqe) (posted : List Posted) (completed batch : List Cqe) :
    Entries ℤ Leg :=
  prepared.filterMap (fun sqe => sqe.leg none) ++ posted.filterMap Posted.leg ++
    (completed.filterMap Cqe.leg ++ batch.filterMap Cqe.leg)

section Worlds

variable {E S : Type}

/-- All operations on connections, wherever they are. -/
def Proactor.flights (state : Proactor S) : Entries ℤ Leg :=
  flightsOf state.prepared state.posted state.completed state.phase.batch

/-! ## The descriptors -/

/-- The proactor and the descriptors of connections that are open. -/
structure World (S : Type) where
  state : Proactor S
  opened : ℤ → Bool

def World.start (store : S) : World S where
  state := proactorStart store
  opened := fun _ => false

/-- An accept returns a descriptor that is not open; a receive on such a one fails. -/
def kernelAllows (world : World S) : Event E → Bool
  | .resolve index res =>
      match world.state.posted[index]? with
      | some ⟨.accept, none⟩ => decide (res < 0) || !world.opened res
      | some ⟨.recv fd, none⟩ => world.opened fd || decide (res < 0)
      | _ => true
  | .store index _ =>
      match world.state.posted[index]? with
      | some ⟨.recv fd, none⟩ => world.opened fd
      | _ => true
  | _ => true

/-- What the event does to the descriptors: an accept opens one, the loop closes the one of a
connection that has ended. -/
def openedAfter (world : World S) : Event E → ℤ → Bool
  | .resolve index res =>
      match world.state.posted[index]? with
      | some ⟨.accept, none⟩ =>
          if 0 ≤ res then Function.update world.opened res true else world.opened
      | _ => world.opened
  | .handle _ =>
      match world.state.phase.batch.head? with
      | some ⟨.recv fd, res⟩ =>
          if res = 0 then Function.update world.opened fd false else world.opened
      | _ => world.opened
  | _ => world.opened

/-- What the handler is called with. -/
structure Ask (E : Type) where
  env : E
  buffer : List Byte
  length : ℤ

/-- What is seen of a step on the connections. -/
def trafficOf (world : World S) (event : Event E) :
    Option (Observation E S) → List (Traffic ℤ (Ask E) Byte)
  | some (.called call) =>
      [.served call.fd ⟨call.env, call.buffer, call.length⟩ call.reply.2]
  | some (.sent fd bytes) => [.sent fd bytes]
  | some (.received _ _) => []
  | none =>
      match event, world.state.phase.batch.head? with
      | .handle _, some ⟨.accept, res⟩ => if 0 ≤ res then [.opened res] else []
      | .handle _, some ⟨.recv fd, res⟩ => if res = 0 then [.closed fd] else []
      | _, _ => []

def worldStep (handler : Handler E S) (world : World S) (event : Event E) :
    Option (World S × List (Traffic ℤ (Ask E) Byte)) :=
  if kernelAllows world event then
    (proactorStep handler world.state event).map fun result =>
      ({ state := result.1, opened := openedAfter world event },
        trafficOf world event result.2)
  else none

/-- The descriptors of the process stay below the size of the table of namespaces. -/
def Event.WithinLimit : Event E → Prop
  | .resolve _ res => res < maxConnections
  | _ => True

instance (event : Event E) : Decidable event.WithinLimit :=
  match event with
  | .resolve _ res => inferInstanceAs (Decidable (res < maxConnections))
  | .submit => isTrue trivial
  | .peek => isTrue trivial
  | .handle _ => isTrue trivial
  | .store _ _ => isTrue trivial
  | .take _ _ => isTrue trivial
  | .complete _ => isTrue trivial

/-- The handler as a service: the namespace of a connection is its session. -/
def handlerService (handler : Handler E S) : Service S CStr (Ask E) (List Byte) where
  opening := lit "default"
  serve := fun store ns ask =>
    (handler ask.env store ask.buffer ask.length (some ns)).map fun result =>
      (result.store, result.ns.getD ns, result.response.take result.length.toNat)

/-! ## What a step does to a connection -/

/-- Everything a step can do: no connection is moved on, or one is. -/
inductive Move (handler : Handler E S) (world after : World S) :
    List (Traffic ℤ (Ask E) Byte) → Prop
  | quiet (hstore : after.state.store = world.state.store)
      (hns : after.state.connectionNamespaces = world.state.connectionNamespaces)
      (hopened : after.opened = world.opened)
      (hflights : after.state.flights.Perm world.state.flights) : Move handler world after []
  | connect {fd : ℤ} (hfresh : world.opened fd = false) (hfd : 0 ≤ fd ∧ fd < maxConnections)
      (hstore : after.state.store = world.state.store)
      (hns : after.state.connectionNamespaces = world.state.connectionNamespaces)
      (hopened : after.opened = Function.update world.opened fd true)
      (hflights : Rekeyed fd none (some .accepted) world.state.flights after.state.flights) :
      Move handler world after []
  | welcome {fd : ℤ} (hstore : after.state.store = world.state.store)
      (hns : after.state.connectionNamespaces =
        initConnectionNamespace world.state.connectionNamespaces fd)
      (hopened : after.opened = world.opened)
      (hflights : Rekeyed fd (some .accepted) (some .receiving) world.state.flights
        after.state.flights) : Move handler world after [.opened fd]
  | go {fd : ℤ} {old new : Leg} (hold : old ≠ .accepted ∧ old ≠ .replying)
      (hnew : new ≠ .accepted ∧ new ≠ .replying)
      (hstore : after.state.store = world.state.store)
      (hns : after.state.connectionNamespaces = world.state.connectionNamespaces)
      (hopened : after.opened = world.opened)
      (hflights : Rekeyed fd (some old) (some new) world.state.flights after.state.flights) :
      Move handler world after []
  | serve {fd : ℤ} (ask : Ask E) {result : Handled S}
      (hcall : handler ask.env world.state.store ask.buffer ask.length
        (getConnectionNamespace world.state.connectionNamespaces fd) = some result)
      (hstore : after.state.store = result.store)
      (hns : after.state.connectionNamespaces =
        putConnectionNamespace world.state.connectionNamespaces fd result.ns)
      (hopened : after.opened = world.opened)
      (hflights : Rekeyed fd (some .arrived) (some .replying) world.state.flights
        after.state.flights) :
      Move handler world after
        [.served fd ask (result.response.take result.length.toNat)]
  | send {fd : ℤ} {bytes : List Byte} (hstore : after.state.store = world.state.store)
      (hns : after.state.connectionNamespaces = world.state.connectionNamespaces)
      (hopened : after.opened = world.opened)
      (hflights : Rekeyed fd (some .replying) (some .replied) world.state.flights
        after.state.flights) : Move handler world after [.sent fd bytes]
  | close {fd : ℤ} (hstore : after.state.store = world.state.store)
      (hns : after.state.connectionNamespaces =
        initConnectionNamespace world.state.connectionNamespaces fd)
      (hopened : after.opened = Function.update world.opened fd false)
      (hflights : Rekeyed fd (some .hungUp) none world.state.flights after.state.flights) :
      Move handler world after [.closed fd]
  | abandon {fd : ℤ} (hstore : after.state.store = world.state.store)
      (hns : after.state.connectionNamespaces = world.state.connectionNamespaces)
      (hopened : after.opened = world.opened)
      (hflights : Rekeyed fd (some .failed) none world.state.flights after.state.flights) :
      Move handler world after []

/-! ## Where the operations are -/

section Flights

variable {prepared : List Sqe} {posted : List Posted} {completed batch : List Cqe}

/-- An operation in the kernel gets its result, or is completed. -/
theorem flights_posted {index : ℕ} {operation : Posted}
    (hoperation : posted[index]? = some operation) (prepared : List Sqe)
    (completed batch : List Cqe) :
    ∃ rest, (flightsOf prepared posted completed batch).Perm (operation.leg.toList ++ rest) ∧
      (∀ other, (flightsOf prepared (posted.set index other) completed batch).Perm
        (other.leg.toList ++ rest)) ∧
      ∀ item, (flightsOf prepared (posted.eraseIdx index) (completed ++ [item]) batch).Perm
        (item.leg.toList ++ rest) := by
  obtain ⟨others, hbefore, hset, herase⟩ := exists_others hoperation Posted.leg
  have hfront : ∀ (legs : Entries ℤ Leg) (list : List Posted),
      (list.filterMap Posted.leg).Perm (legs ++ others) →
      (flightsOf prepared list completed batch).Perm
        (legs ++ (prepared.filterMap (fun sqe => sqe.leg none) ++ others ++
          (completed.filterMap Cqe.leg ++ batch.filterMap Cqe.leg))) := by
    intro legs list hlist
    have hmiddle := (hlist.append_left (prepared.filterMap fun sqe => sqe.leg none)).append_right
      (completed.filterMap Cqe.leg ++ batch.filterMap Cqe.leg)
    refine hmiddle.trans ?_
    rw [← append_assoc legs, ← append_assoc legs, ← append_assoc _ legs]
    exact (perm_append_comm.append_right _).append_right _
  refine ⟨_, hfront _ _ hbefore, fun other => hfront _ _ (hset other), fun item => ?_⟩
  have hitem : [item].filterMap Cqe.leg = item.leg.toList := by
    cases hleg : item.leg <;> simp [hleg]
  rw [flightsOf, filterMap_append, hitem]
  refine ((herase.append_left _).append_right _).trans ?_
  rw [append_assoc (completed.filterMap Cqe.leg)]
  -- the completion moves from the middle to the front
  refine (Perm.append_left _ ?_).trans (perm_append_comm_assoc _ _ _)
  exact perm_append_comm_assoc _ _ _

theorem flights_batch (prepared : List Sqe) (posted : List Posted) (completed : List Cqe)
    (item : Cqe) (batch : List Cqe) :
    (flightsOf prepared posted completed (item :: batch)).Perm
      (item.leg.toList ++ flightsOf prepared posted completed batch) := by
  have hitem : (item :: batch).filterMap Cqe.leg =
      item.leg.toList ++ batch.filterMap Cqe.leg := by
    cases hleg : item.leg <;> simp [hleg]
  rw [flightsOf, hitem, flightsOf]
  refine (Perm.append_left _ (perm_append_comm_assoc _ _ _)).trans ?_
  exact perm_append_comm_assoc _ _ _

theorem flights_prepared (prepared new : List Sqe) (posted : List Posted)
    (completed batch : List Cqe) :
    (flightsOf (prepared ++ new) posted completed batch).Perm
      (new.filterMap (fun sqe => sqe.leg none) ++ flightsOf prepared posted completed batch) := by
  rw [flightsOf, filterMap_append, flightsOf, append_assoc, append_assoc]
  refine (perm_append_comm_assoc _ _ _).trans (.of_eq ?_)
  simp only [append_assoc]

end Flights

section Moves

variable {handler : Handler E S} {world after : World S}
variable {traffic : List (Traffic ℤ (Ask E) Byte)}

theorem move_submit (hstep : worldStep handler world .submit = some (after, traffic)) :
    Move handler world after traffic := by
  simp only [worldStep, kernelAllows, if_true, proactorStep, Option.map_eq_some_iff] at hstep
  obtain ⟨⟨state, seen⟩, hstep, hafter⟩ := hstep
  split at hstep
  case h_1 hphase =>
      simp only [Option.some.injEq, Prod.mk.injEq] at hstep
      obtain ⟨rfl, rfl⟩ := hstep
      obtain ⟨rfl, rfl⟩ := Prod.mk.inj hafter
      refine .quiet rfl rfl rfl ?_
      have hmap : (world.state.prepared.map fun sqe => (⟨sqe, none⟩ : Posted)).filterMap
          Posted.leg = world.state.prepared.filterMap fun sqe => sqe.leg none := by
        rw [filterMap_map]
        rfl
      simp only [Proactor.flights, flightsOf, hphase, Phase.batch, filterMap_append, hmap,
        filterMap_nil, nil_append]
      exact perm_append_comm.append_right _
  case h_2 => cases hstep

theorem move_peek (hstep : worldStep handler world .peek = some (after, traffic)) :
    Move handler world after traffic := by
  simp only [worldStep, kernelAllows, if_true, proactorStep, Option.map_eq_some_iff] at hstep
  obtain ⟨⟨state, seen⟩, hstep, hafter⟩ := hstep
  split at hstep
  case h_1 hphase =>
      simp only [Option.some.injEq, Prod.mk.injEq] at hstep
      obtain ⟨rfl, rfl⟩ := hstep
      obtain ⟨rfl, rfl⟩ := Prod.mk.inj hafter
      refine .quiet rfl rfl rfl ?_
      have hbatch : world.state.phase.batch = [] := by rw [hphase]; rfl
      simp only [Proactor.flights, flightsOf, batch_after, hbatch, filterMap_nil, append_nil]
      refine Perm.append_left _ (perm_append_comm.trans (.of_eq ?_))
      rw [← filterMap_append, take_append_drop]
  case h_2 => cases hstep

/-- An operation in the kernel that counts gets a result that counts. -/
theorem rekeyed_posted {state : Proactor S} {index : ℕ} {operation other : Posted} (fd : ℤ)
    (old new : Option Leg) (hoperation : state.posted[index]? = some operation)
    (hold : operation.leg = old.map (entry fd)) (hnew : other.leg = new.map (entry fd)) :
    Rekeyed fd old new state.flights
      (flightsOf state.prepared (state.posted.set index other) state.completed
        state.phase.batch) := by
  obtain ⟨rest, hbefore, hset, -⟩ :=
    flights_posted hoperation state.prepared state.completed state.phase.batch
  have hafter := hset other
  rw [hold] at hbefore
  rw [hnew] at hafter
  exact ⟨rest, hbefore, hafter⟩

theorem perm_posted {state : Proactor S} {index : ℕ} {operation other : Posted}
    (hoperation : state.posted[index]? = some operation) (hsame : other.leg = operation.leg) :
    (flightsOf state.prepared (state.posted.set index other) state.completed
      state.phase.batch).Perm state.flights := by
  obtain ⟨rest, hbefore, hset, -⟩ :=
    flights_posted hoperation state.prepared state.completed state.phase.batch
  exact (hsame ▸ hset other).trans hbefore.symm

theorem move_resolve {index : ℕ} {res : ℤ} (hopened : ∀ fd, world.opened fd = true → 0 ≤ fd)
    (hlimit : res < maxConnections)
    (hstep : worldStep handler world (.resolve index res) = some (after, traffic)) :
    Move handler world after traffic := by
  simp only [worldStep] at hstep
  split at hstep
  case isFalse => cases hstep
  case isTrue hallowed =>
      obtain ⟨⟨state, seen⟩, hstate, hafter⟩ := Option.map_eq_some_iff.1 hstep
      obtain ⟨rfl, rfl⟩ := Prod.mk.inj hafter
      simp only [proactorStep] at hstate
      split at hstate
      case h_1 hposted =>
          simp only [Option.some.injEq, Prod.mk.injEq] at hstate
          obtain ⟨rfl, rfl⟩ := hstate
          by_cases hres : 0 ≤ res
          · have hfresh : world.opened res = false := by
              simpa [kernelAllows, hposted, not_lt.2 hres] using hallowed
            refine .connect hfresh ⟨hres, hlimit⟩ rfl rfl ?_
              (rekeyed_posted res none (some .accepted) hposted rfl
                (by simp [Posted.leg, Sqe.leg, hres]))
            simp [openedAfter, hposted, hres]
          · refine .quiet rfl rfl (by simp [openedAfter, hposted, hres]) ?_
            exact perm_posted hposted (by simp [Posted.leg, Sqe.leg, hres])
      case h_2 fd hposted =>
          split at hstate
          case isTrue hres =>
              simp only [Option.some.injEq, Prod.mk.injEq] at hstate
              obtain ⟨rfl, rfl⟩ := hstate
              have hsame : openedAfter (E := E) world (.resolve index res) = world.opened := by
                simp [openedAfter, hposted]
              by_cases hfd : 0 ≤ fd
              · have hold : Posted.leg ⟨.recv fd, none⟩ = some (entry fd .receiving) := by
                  simp [Posted.leg, Sqe.leg, hfd]
                by_cases hzero : res = 0
                · exact .go (by decide) (by decide) rfl rfl hsame
                    (rekeyed_posted fd (some .receiving) (some .hungUp) hposted hold
                      (by simp [Posted.leg, Sqe.leg, hzero]))
                · exact .go (by decide) (by decide) rfl rfl hsame
                    (rekeyed_posted fd (some .receiving) (some .failed) hposted hold
                      (by simp [Posted.leg, Sqe.leg, hzero, not_lt.2 hres, hfd]))
              · -- a descriptor that is not open gives an error, which is not counted
                have hclosed : world.opened fd ≠ true := fun hopen => hfd (hopened fd hopen)
                have hnegative : res < 0 := by
                  simpa [kernelAllows, hposted, hclosed] using hallowed
                refine .quiet rfl rfl hsame (perm_posted hposted ?_)
                simp [Posted.leg, Sqe.leg, hfd, hnegative.ne, not_lt.2 hnegative.le]
          case isFalse => cases hstate
      case h_3 => cases hstate

theorem move_store {index : ℕ} {bytes : List Byte}
    (hopened : ∀ fd, world.opened fd = true → 0 ≤ fd)
    (hstep : worldStep handler world (.store index bytes) = some (after, traffic)) :
    Move handler world after traffic := by
  simp only [worldStep] at hstep
  split at hstep
  case isFalse => cases hstep
  case isTrue hallowed =>
      obtain ⟨⟨state, seen⟩, hstate, hafter⟩ := Option.map_eq_some_iff.1 hstep
      obtain ⟨rfl, rfl⟩ := Prod.mk.inj hafter
      simp only [proactorStep] at hstate
      split at hstate
      case h_1 fd hposted =>
          split at hstate
          case isTrue hbytes =>
              simp only [Option.some.injEq, Prod.mk.injEq] at hstate
              obtain ⟨rfl, rfl⟩ := hstate
              have hfd : 0 ≤ fd := hopened fd (by simpa [kernelAllows, hposted] using hallowed)
              exact .go (by decide) (by decide) rfl rfl rfl
                (rekeyed_posted fd (some .receiving) (some .arrived) hposted
                  (by simp [Posted.leg, Sqe.leg, hfd])
                  (by simp [Posted.leg, Sqe.leg, hbytes.1, length_pos_iff]))
          case isFalse => cases hstate
      case h_2 => cases hstate

theorem move_take {index count : ℕ}
    (hstep : worldStep handler world (.take index count) = some (after, traffic)) :
    Move handler world after traffic := by
  simp only [worldStep, kernelAllows, if_true, proactorStep, Option.map_eq_some_iff] at hstep
  obtain ⟨⟨state, seen⟩, hstate, hafter⟩ := hstep
  split at hstate
  case h_1 fd length hposted =>
      split at hstate
      case isTrue hcount =>
          simp only [Option.some.injEq, Prod.mk.injEq] at hstate
          obtain ⟨rfl, rfl⟩ := hstate
          obtain ⟨rfl, rfl⟩ := Prod.mk.inj hafter
          exact .send rfl rfl rfl
            (rekeyed_posted fd (some .replying) (some .replied) hposted rfl rfl)
      case isFalse => cases hstate
  case h_2 => cases hstate

theorem move_complete {index : ℕ}
    (hstep : worldStep handler world (.complete index) = some (after, traffic)) :
    Move handler world after traffic := by
  simp only [worldStep, kernelAllows, if_true, proactorStep, Option.map_eq_some_iff] at hstep
  obtain ⟨⟨state, seen⟩, hstate, hafter⟩ := hstep
  split at hstate
  case h_1 sqe res hposted =>
      simp only [Option.some.injEq, Prod.mk.injEq] at hstate
      obtain ⟨rfl, rfl⟩ := hstate
      obtain ⟨rfl, rfl⟩ := Prod.mk.inj hafter
      obtain ⟨rest, hbefore, -, hcompleted⟩ := flights_posted hposted world.state.prepared
        world.state.completed world.state.phase.batch
      exact .quiet rfl rfl rfl ((hcompleted ⟨sqe, res⟩).trans hbefore.symm)
  case h_2 => cases hstate

/-- A completion is handled, and what the loop prepares takes its place. -/
theorem rekeyed_handled {state : Proactor S} {item : Cqe} {batch : List Cqe} {added : List Sqe}
    (fd : ℤ) (old new : Option Leg) (hbatch : state.phase.batch = item :: batch)
    (hold : item.leg = old.map (entry fd))
    (hnew : added.filterMap (fun sqe => sqe.leg none) = (new.map (entry fd)).toList) :
    Rekeyed fd old new state.flights
      (flightsOf (state.prepared ++ added) state.posted state.completed
        (Phase.after batch).batch) := by
  refine ⟨flightsOf state.prepared state.posted state.completed batch, ?_, ?_⟩
  · rw [Proactor.flights, hbatch, ← hold]
    exact flights_batch _ _ _ _ _
  · rw [batch_after, ← hnew]
    exact flights_prepared _ _ _ _ _

/-- A completion that does not count is handled. -/
theorem perm_handled {state : Proactor S} {item : Cqe} {batch : List Cqe} {added : List Sqe}
    (hbatch : state.phase.batch = item :: batch) (hold : item.leg = none)
    (hnew : added.filterMap (fun sqe => sqe.leg none) = []) :
    (flightsOf (state.prepared ++ added) state.posted state.completed
      (Phase.after batch).batch).Perm state.flights := by
  have hbefore := flights_batch state.prepared state.posted state.completed item batch
  have hafter := flights_prepared state.prepared added state.posted state.completed batch
  rw [hold, Option.toList_none, nil_append, ← hbatch] at hbefore
  rw [hnew, nil_append] at hafter
  rw [batch_after]
  exact hafter.trans hbefore.symm

/-- The entry that is handled, and the loop behind it. -/
theorem worldStep_handle {env : E}
    (hstep : worldStep handler world (.handle env) = some (after, traffic)) :
    ∃ item batch seen, world.state.phase.batch = item :: batch ∧
      handleEntry handler env item { world.state with phase := .after batch } =
        some (after.state, seen) ∧
      after.opened = openedAfter (E := E) world (.handle env) ∧
      traffic = trafficOf world (.handle env) seen := by
  simp only [worldStep, kernelAllows, if_true, proactorStep, Option.map_eq_some_iff] at hstep
  obtain ⟨⟨state, seen⟩, hstate, hafter⟩ := hstep
  obtain ⟨rfl, rfl⟩ := Prod.mk.inj hafter
  split at hstate
  case h_1 item batch hphase =>
      exact ⟨item, batch, seen, by rw [hphase]; rfl, hstate, rfl, rfl⟩
  case h_2 => cases hstate

theorem move_handle {env : E}
    (hflights : ∀ fd leg, entry fd leg ∈ world.state.flights → 0 ≤ fd)
    (hstep : worldStep handler world (.handle env) = some (after, traffic)) :
    Move handler world after traffic := by
  obtain ⟨⟨sqe, res⟩, batch, seen, hbatch, hentry, hopened, rfl⟩ := worldStep_handle hstep
  obtain ⟨state, opened⟩ := after
  subst hopened
  have hhead : world.state.phase.batch.head? = some ⟨sqe, res⟩ := by rw [hbatch]; rfl
  cases sqe with
  | accept =>
      simp only [handleEntry, Option.some.injEq, Prod.mk.injEq] at hentry
      obtain ⟨rfl, rfl⟩ := hentry
      by_cases hres : 0 ≤ res
      · have htraffic : trafficOf (E := E) (S := S) world (.handle env) none = [.opened res] := by
          simp [trafficOf, hhead, hres]
        rw [htraffic]
        exact .welcome rfl rfl (by simp [openedAfter, hhead])
          (rekeyed_handled res (some .accepted) (some .receiving) hbatch
            (by simp [Cqe.leg, Sqe.leg, hres]) (by simp [Sqe.leg, hres]))
      · have htraffic : trafficOf (E := E) (S := S) world (.handle env) none = [] := by
          simp [trafficOf, hhead, hres]
        have hns : initConnectionNamespace world.state.connectionNamespaces res =
            world.state.connectionNamespaces := if_neg fun hrange => hres hrange.1
        rw [htraffic]
        exact .quiet rfl hns (by simp [openedAfter, hhead])
          (perm_handled hbatch (by simp [Cqe.leg, Sqe.leg, hres]) (by simp [Sqe.leg, hres]))
  | send fd length =>
      simp only [handleEntry, Option.some.injEq, Prod.mk.injEq] at hentry
      obtain ⟨rfl, rfl⟩ := hentry
      have htraffic : trafficOf (E := E) (S := S) world (.handle env) none = [] := by
        simp [trafficOf, hhead]
      have hfd : 0 ≤ fd := by
        refine hflights fd .replied ?_
        rw [Proactor.flights, hbatch]
        exact (flights_batch _ _ _ _ _).mem_iff.2 mem_cons_self
      rw [htraffic]
      exact .go (by decide) (by decide) rfl rfl (by simp [openedAfter, hhead])
        (rekeyed_handled fd (some .replied) (some .receiving) hbatch rfl
          (by simp [Sqe.leg, hfd]))
  | recv fd =>
      simp only [handleEntry] at hentry
      split at hentry
      case isTrue hzero =>
          simp only [Option.some.injEq, Prod.mk.injEq] at hentry
          obtain ⟨rfl, rfl⟩ := hentry
          have htraffic : trafficOf (E := E) (S := S) world (.handle env) none = [.closed fd] := by
            simp [trafficOf, hhead, hzero]
          rw [htraffic]
          refine .close rfl rfl (by simp [openedAfter, hhead, hzero]) ?_
          have hrekeyed := rekeyed_handled fd (some .hungUp) none hbatch
            (by simp [Cqe.leg, Sqe.leg, hzero]) filterMap_nil
          rwa [append_nil] at hrekeyed
      case isFalse hzero =>
          split at hentry
          case isTrue hpositive =>
              obtain ⟨result, hresult, hentry⟩ := Option.bind_eq_some_iff.1 hentry
              simp only [Option.pure_def, Option.some.injEq, Prod.mk.injEq] at hentry
              obtain ⟨rfl, rfl⟩ := hentry
              exact .serve ⟨env, world.state.buffer, res⟩ hresult rfl rfl
                (by simp [openedAfter, hhead, hzero])
                (rekeyed_handled fd (some .arrived) (some .replying) hbatch
                  (by simp [Cqe.leg, Sqe.leg, hzero, hpositive]) rfl)
          case isFalse hnegative =>
              simp only [Option.some.injEq, Prod.mk.injEq] at hentry
              obtain ⟨rfl, rfl⟩ := hentry
              have htraffic : trafficOf (E := E) (S := S) world (.handle env) none = [] := by
                simp [trafficOf, hhead, hzero]
              have hsame : openedAfter (E := E) world (.handle env) = world.opened := by
                simp [openedAfter, hhead, hzero]
              rw [htraffic]
              by_cases hfd : 0 ≤ fd
              · have hrekeyed := rekeyed_handled fd (some .failed) none hbatch
                  (by simp [Cqe.leg, Sqe.leg, hzero, hnegative, hfd]) filterMap_nil
                rw [append_nil] at hrekeyed
                exact .abandon rfl rfl hsame hrekeyed
              · have hperm := perm_handled hbatch
                  (by simp [Cqe.leg, Sqe.leg, hzero, hnegative, hfd]) filterMap_nil
                rw [append_nil] at hperm
                exact .quiet rfl rfl hsame hperm

/-- The one place where a step is taken apart. -/
theorem move_of_step {event : Event E} (hopened : ∀ fd, world.opened fd = true → 0 ≤ fd)
    (hflights : ∀ fd leg, entry fd leg ∈ world.state.flights → 0 ≤ fd)
    (hlimit : event.WithinLimit)
    (hstep : worldStep handler world event = some (after, traffic)) :
    Move handler world after traffic := by
  cases event with
  | submit => exact move_submit hstep
  | peek => exact move_peek hstep
  | handle env => exact move_handle hflights hstep
  | resolve index res => exact move_resolve hopened hlimit hstep
  | store index bytes => exact move_store hopened hstep
  | take index count => exact move_take hstep
  | complete index => exact move_complete hstep

end Moves

/-! ## Sessions and turns -/

/-- The namespaces of the connections that the loop has seen and not closed. -/
def World.session (world : World S) (fd : ℤ) : Option CStr :=
  if world.opened fd = true ∧ denote world.state.flights fd ≠ some .accepted then
    some (world.state.connectionNamespaces fd)
  else none

/-- What a run has done: it has served the requests one after the other, each in the session of
its connection, and every connection has at most one operation under way. -/
structure Shuttling (handler : Handler E S) (store : S) (world : World S)
    (history : List (Traffic ℤ (Ask E) Byte)) : Prop where
  nodup : world.state.flights.NodupKeys
  opened : ∀ fd, denote world.state.flights fd ≠ none → world.opened fd = true
  range : ∀ fd, world.opened fd = true → 0 ≤ fd ∧ fd < maxConnections
  explained : Explains (handlerService handler) id (Hub.empty ℤ store) history
    ⟨world.state.store, world.session⟩
  turns : ∀ fd, ∃ pending, InTurn (fun _ _ => True) pending (exchangesOn fd history) ∧
    (pending = none ↔ denote world.state.flights fd ≠ some .replying)

theorem shuttling_start (handler : Handler E S) (store : S) :
    Shuttling handler store (World.start store) [] := by
  have hnone : ∀ fd, denote (World.start store).state.flights fd = none := fun _ => rfl
  refine ⟨nodupKeys_nil, ?_, ?_, ?_, ?_⟩
  · intro fd hflight
    exact absurd (hnone fd) hflight
  · intro fd hopen
    cases hopen
  · have hsession : (World.start store).session = fun _ => none := by
      funext fd
      simp [World.session, World.start]
    rw [hsession]
    exact explains_nil
  · exact fun fd => ⟨none, inTurn_nil, by simp [hnone fd]⟩

section Steps

variable {handler : Handler E S} {store : S} {world after : World S}
variable {history : List (Traffic ℤ (Ask E) Byte)}

/-- One connection is moved on; what is said of the others stays. -/
theorem Shuttling.update {fd : ℤ} {old new : Option Leg}
    (hshuttling : Shuttling handler store world history)
    (traffic : List (Traffic ℤ (Ask E) Byte))
    (hflights : Rekeyed fd old new world.state.flights after.state.flights)
    (hold : old = none → denote world.state.flights fd = none)
    (hopened : ∀ other, other ≠ fd → after.opened other = world.opened other)
    (hown : after.opened fd = true → 0 ≤ fd ∧ fd < maxConnections)
    (hopen : new ≠ none → after.opened fd = true)
    (hexplained : Explains (handlerService handler) id ⟨world.state.store, world.session⟩ traffic
      ⟨after.state.store, after.session⟩)
    (hothers : ∀ other, other ≠ fd → exchangesOn other (history ++ traffic) =
      exchangesOn other history)
    (hturn : ∃ pending, InTurn (fun _ _ => True) pending (exchangesOn fd (history ++ traffic)) ∧
      (pending = none ↔ new ≠ some .replying)) :
    Shuttling handler store after (history ++ traffic) := by
  obtain ⟨hnodup, -, hlegs⟩ := hflights.spec hshuttling.nodup hold
  refine ⟨hnodup, ?_, ?_, hshuttling.explained.append hexplained, ?_⟩
  · intro other hflight
    by_cases hother : other = fd
    · subst hother
      rw [hlegs, Function.update_self] at hflight
      exact hopen hflight
    · rw [hlegs, Function.update_of_ne hother] at hflight
      rw [hopened other hother]
      exact hshuttling.opened other hflight
  · intro other hother
    by_cases heq : other = fd
    · subst heq
      exact hown hother
    · rw [hopened other heq] at hother
      exact hshuttling.range other hother
  · intro other
    by_cases hother : other = fd
    · subst hother
      rw [hlegs, Function.update_self]
      exact hturn
    · rw [hlegs, Function.update_of_ne hother, hothers other hother]
      exact hshuttling.turns other

/-- The session of a connection changes with its own operations only. -/
theorem session_update {fd : ℤ} {new : Option Leg}
    (hlegs : denote after.state.flights =
      Function.update (denote world.state.flights) fd new)
    (hopened : ∀ other, other ≠ fd → after.opened other = world.opened other)
    (hns : ∀ other, other ≠ fd → after.state.connectionNamespaces other =
      world.state.connectionNamespaces other) :
    after.session = Function.update world.session fd (after.session fd) := by
  funext other
  by_cases hother : other = fd
  · rw [hother, Function.update_self]
  · rw [Function.update_of_ne hother, World.session, World.session, hlegs,
      Function.update_of_ne hother, hopened other hother, hns other hother]

theorem session_eq_some {fd : ℤ} (hopen : world.opened fd = true) {leg : Option Leg}
    (hleg : denote world.state.flights fd = leg) (hne : leg ≠ some .accepted) :
    world.session fd = some (world.state.connectionNamespaces fd) :=
  if_pos ⟨hopen, hleg ▸ hne⟩

theorem session_eq_none {fd : ℤ}
    (hnot : world.opened fd = false ∨ denote world.state.flights fd = some .accepted) :
    world.session fd = none := by
  rw [World.session, if_neg]
  rintro ⟨hopen, hleg⟩
  rcases hnot with hclosed | haccepted
  · rw [hclosed] at hopen
    cases hopen
  · exact hleg haccepted

theorem initConnectionNamespace_of_ne (namespaces : ℤ → CStr) {fd other : ℤ}
    (hne : other ≠ fd) : initConnectionNamespace namespaces fd other = namespaces other := by
  unfold initConnectionNamespace
  split
  · exact Function.update_of_ne hne _ _
  · rfl

theorem putConnectionNamespace_of_ne (namespaces : ℤ → CStr) {fd other : ℤ} (hne : other ≠ fd)
    (ns : Option CStr) : putConnectionNamespace namespaces fd ns other = namespaces other := by
  cases ns with
  | none => rfl
  | some ns => exact Function.update_of_ne hne _ _

theorem putConnectionNamespace_self (namespaces : ℤ → CStr) (fd : ℤ) (ns : Option CStr) :
    putConnectionNamespace namespaces fd ns fd = ns.getD (namespaces fd) := by
  cases ns with
  | none => rfl
  | some ns => exact Function.update_self _ _ _

variable (hshuttling : Shuttling handler store world history)
include hshuttling

/-- A step that is not seen. -/
theorem Shuttling.unseen {fd : ℤ} {old new : Option Leg}
    (hflights : Rekeyed fd old new world.state.flights after.state.flights)
    (hold : old = none → denote world.state.flights fd = none)
    (holdReplying : old ≠ some .replying) (hnewReplying : new ≠ some .replying)
    (hopened : ∀ other, other ≠ fd → after.opened other = world.opened other)
    (hown : after.opened fd = true → 0 ≤ fd ∧ fd < maxConnections)
    (hopen : new ≠ none → after.opened fd = true)
    (hstore : after.state.store = world.state.store)
    (hns : after.state.connectionNamespaces = world.state.connectionNamespaces)
    (hsession : after.session fd = world.session fd) :
    Shuttling handler store after history := by
  obtain ⟨-, hleg, hlegs⟩ := hflights.spec hshuttling.nodup hold
  have hsessions : after.session = world.session := by
    rw [session_update hlegs hopened (fun other _ => by rw [hns]), hsession,
      Function.update_eq_self]
  have hsame := hshuttling.update [] hflights hold hopened hown hopen
    (by rw [hstore, hsessions]; exact explains_nil) (fun other _ => by rw [append_nil]) ?_
  · rwa [append_nil] at hsame
  · obtain ⟨pending, hturn, hpending⟩ := hshuttling.turns fd
    rw [hleg] at hpending
    have hnone : pending = none := hpending.2 holdReplying
    exact ⟨pending, by rwa [append_nil], by simp [hnone, hnewReplying]⟩

theorem Shuttling.leg_range {fd : ℤ} {leg : Leg}
    (hleg : denote world.state.flights fd = some leg) :
    world.opened fd = true ∧ 0 ≤ fd ∧ fd < maxConnections := by
  have hopen := hshuttling.opened fd (by simp [hleg])
  exact ⟨hopen, hshuttling.range fd hopen⟩

theorem Shuttling.quiet (hstore : after.state.store = world.state.store)
    (hns : after.state.connectionNamespaces = world.state.connectionNamespaces)
    (hopened : after.opened = world.opened)
    (hflights : after.state.flights.Perm world.state.flights) :
    Shuttling handler store after history := by
  have hnodup := (perm_nodupKeys hflights).2 hshuttling.nodup
  have hlegs := denote_perm hnodup hflights
  have hsession : after.session = world.session := by
    funext fd
    rw [World.session, World.session, hlegs, hopened, hns]
  refine ⟨hnodup, ?_, ?_, ?_, ?_⟩
  · rw [hlegs, hopened]
    exact hshuttling.opened
  · rw [hopened]
    exact hshuttling.range
  · rw [hstore, hsession]
    exact hshuttling.explained
  · rw [hlegs]
    exact hshuttling.turns

/-- The kernel accepts a connection; the loop does not know it yet. -/
theorem Shuttling.connect {fd : ℤ} (hfresh : world.opened fd = false)
    (hfd : 0 ≤ fd ∧ fd < maxConnections)
    (hstore : after.state.store = world.state.store)
    (hns : after.state.connectionNamespaces = world.state.connectionNamespaces)
    (hopened : after.opened = Function.update world.opened fd true)
    (hflights : Rekeyed fd none (some .accepted) world.state.flights after.state.flights) :
    Shuttling handler store after history := by
  have habsent : denote world.state.flights fd = none := by
    by_contra hflight
    rw [hshuttling.opened fd hflight] at hfresh
    cases hfresh
  obtain ⟨-, -, hlegs⟩ := hflights.spec hshuttling.nodup fun _ => habsent
  have hother : ∀ other, other ≠ fd → after.opened other = world.opened other := by
    intro other hne
    rw [hopened, Function.update_of_ne hne]
  refine hshuttling.unseen hflights (fun _ => habsent) (by simp) (by simp) hother
    (fun _ => hfd) (fun _ => by rw [hopened, Function.update_self]) hstore hns ?_
  rw [session_eq_none (.inl hfresh), session_eq_none (.inr (by rw [hlegs]; simp))]

/-- A connection that the loop knows moves on unseen, or is left alone from now on. -/
theorem Shuttling.go {fd : ℤ} {old : Leg} {new : Option Leg}
    (hold : old ≠ .accepted ∧ old ≠ .replying)
    (hnew : new ≠ some .accepted ∧ new ≠ some .replying)
    (hstore : after.state.store = world.state.store)
    (hns : after.state.connectionNamespaces = world.state.connectionNamespaces)
    (hopened : after.opened = world.opened)
    (hflights : Rekeyed fd (some old) new world.state.flights after.state.flights) :
    Shuttling handler store after history := by
  obtain ⟨-, hleg, hlegs⟩ := hflights.spec hshuttling.nodup (by simp)
  obtain ⟨hopen, hrange⟩ := hshuttling.leg_range hleg
  have hopenAfter : after.opened fd = true := by rw [hopened, hopen]
  refine hshuttling.unseen hflights (by simp) (by simpa using hold.2) hnew.2
    (fun other _ => by rw [hopened]) (fun _ => hrange) (fun _ => hopenAfter) hstore hns ?_
  rw [session_eq_some hopen hleg (by simpa using hold.1),
    session_eq_some hopenAfter (by rw [hlegs, Function.update_self]) hnew.1, hns]

/-- The loop opens the session of a connection. -/
theorem Shuttling.welcome {fd : ℤ} (hstore : after.state.store = world.state.store)
    (hns : after.state.connectionNamespaces =
      initConnectionNamespace world.state.connectionNamespaces fd)
    (hopened : after.opened = world.opened)
    (hflights : Rekeyed fd (some .accepted) (some .receiving) world.state.flights
      after.state.flights) :
    Shuttling handler store after (history ++ [.opened fd]) := by
  obtain ⟨-, hleg, hlegs⟩ := hflights.spec hshuttling.nodup (by simp)
  obtain ⟨hopen, hrange⟩ := hshuttling.leg_range hleg
  have hopenAfter : after.opened fd = true := by rw [hopened, hopen]
  have hnew : after.session fd = some (lit "default") := by
    rw [session_eq_some hopenAfter (by rw [hlegs, Function.update_self]) (by simp), hns,
      initConnectionNamespace, if_pos hrange, Function.update_self]
  refine hshuttling.update _ hflights (by simp) (fun other _ => by rw [hopened])
    (fun _ => hrange) (fun _ => hopenAfter) ?_ ?_ ?_
  · rw [session_update hlegs (fun other _ => by rw [hopened]) (fun other hne => by
      rw [hns, initConnectionNamespace_of_ne _ hne]), hnew, hstore]
    exact explains_opened (session_eq_none (.inr hleg))
  · intro other hne
    simp [exchangesOn_snoc, noteTraffic, hne.symm]
  · exact ⟨none, by simpa [exchangesOn_snoc, noteTraffic] using inTurn_nil, by simp⟩

/-- The handler serves a request in the session of its connection. -/
theorem Shuttling.serve {fd : ℤ} {ask : Ask E} {result : Handled S}
    (hcall : handler ask.env world.state.store ask.buffer ask.length
      (getConnectionNamespace world.state.connectionNamespaces fd) = some result)
    (hstore : after.state.store = result.store)
    (hns : after.state.connectionNamespaces =
      putConnectionNamespace world.state.connectionNamespaces fd result.ns)
    (hopened : after.opened = world.opened)
    (hflights : Rekeyed fd (some .arrived) (some .replying) world.state.flights
      after.state.flights) :
    Shuttling handler store after
      (history ++ [.served fd ask (result.response.take result.length.toNat)]) := by
  obtain ⟨-, hleg, hlegs⟩ := hflights.spec hshuttling.nodup (by simp)
  obtain ⟨hopen, hrange⟩ := hshuttling.leg_range hleg
  have hopenAfter : after.opened fd = true := by rw [hopened, hopen]
  have hnew : after.session fd =
      some (result.ns.getD (world.state.connectionNamespaces fd)) := by
    rw [session_eq_some hopenAfter (by rw [hlegs, Function.update_self]) (by simp), hns,
      putConnectionNamespace_self]
  rw [getConnectionNamespace, if_pos hrange] at hcall
  refine hshuttling.update _ hflights (by simp) (fun other _ => by rw [hopened])
    (fun _ => hrange) (fun _ => hopenAfter) ?_ ?_ ?_
  · rw [session_update hlegs (fun other _ => by rw [hopened]) (fun other hne => by
      rw [hns, putConnectionNamespace_of_ne _ hne]), hnew, hstore]
    refine explains_served (session_eq_some hopen hleg (by simp)) ?_
    simp [handlerService, hcall]
  · intro other hne
    simp [exchangesOn_snoc, noteTraffic, hne.symm]
  · obtain ⟨pending, hturn, hpending⟩ := hshuttling.turns fd
    obtain rfl : pending = none := hpending.2 (by simp [hleg])
    exact ⟨some (result.response.take result.length.toNat),
      by simpa [exchangesOn_snoc, noteTraffic] using hturn.serve _, by simp⟩

theorem Shuttling.send {fd : ℤ} (bytes : List Byte)
    (hstore : after.state.store = world.state.store)
    (hns : after.state.connectionNamespaces = world.state.connectionNamespaces)
    (hopened : after.opened = world.opened)
    (hflights : Rekeyed fd (some .replying) (some .replied) world.state.flights
      after.state.flights) :
    Shuttling handler store after (history ++ [.sent fd bytes]) := by
  obtain ⟨-, hleg, hlegs⟩ := hflights.spec hshuttling.nodup (by simp)
  obtain ⟨hopen, hrange⟩ := hshuttling.leg_range hleg
  have hopenAfter : after.opened fd = true := by rw [hopened, hopen]
  have hsame : after.session fd = world.session fd := by
    rw [session_eq_some hopen hleg (by simp),
      session_eq_some hopenAfter (by rw [hlegs, Function.update_self]) (by simp), hns]
  refine hshuttling.update _ hflights (by simp) (fun other _ => by rw [hopened])
    (fun _ => hrange) (fun _ => hopenAfter) ?_ ?_ ?_
  · rw [session_update hlegs (fun other _ => by rw [hopened]) (fun other _ => by rw [hns]),
      hsame, Function.update_eq_self, hstore]
    exact explains_sent bytes
  · intro other hne
    simp [exchangesOn_snoc, noteTraffic, hne.symm]
  · obtain ⟨pending, hturn, hpending⟩ := hshuttling.turns fd
    rw [hleg] at hpending
    cases pending with
    | none => exact absurd rfl (hpending.1 rfl)
    | some reply =>
        exact ⟨none, by simpa [exchangesOn_snoc, noteTraffic] using hturn.send trivial, by simp⟩

theorem Shuttling.close {fd : ℤ} (hstore : after.state.store = world.state.store)
    (hns : after.state.connectionNamespaces =
      initConnectionNamespace world.state.connectionNamespaces fd)
    (hopened : after.opened = Function.update world.opened fd false)
    (hflights : Rekeyed fd (some .hungUp) none world.state.flights after.state.flights) :
    Shuttling handler store after (history ++ [.closed fd]) := by
  obtain ⟨-, hleg, hlegs⟩ := hflights.spec hshuttling.nodup (by simp)
  obtain ⟨hopen, hrange⟩ := hshuttling.leg_range hleg
  have hsession := session_eq_some hopen hleg (by simp)
  have hclosed : after.opened fd = false := by rw [hopened, Function.update_self]
  have hother : ∀ other, other ≠ fd → after.opened other = world.opened other := by
    intro other hne
    rw [hopened, Function.update_of_ne hne]
  refine hshuttling.update _ hflights (by simp) hother (fun _ => hrange) (by simp) ?_ ?_ ?_
  · rw [session_update hlegs hother (fun other hne => by
      rw [hns, initConnectionNamespace_of_ne _ hne]), session_eq_none (.inl hclosed), hstore]
    exact explains_closed (by simp [hsession])
  · intro other hne
    simp [exchangesOn_snoc, noteTraffic]
  · obtain ⟨pending, hturn, hpending⟩ := hshuttling.turns fd
    obtain rfl : pending = none := hpending.2 (by simp [hleg])
    exact ⟨none, by simpa [exchangesOn_snoc, noteTraffic] using hturn, by simp⟩

/-- Whatever a step does, it keeps the connections apart. -/
theorem Shuttling.move {traffic : List (Traffic ℤ (Ask E) Byte)}
    (hmove : Move handler world after traffic) :
    Shuttling handler store after (history ++ traffic) := by
  cases hmove with
  | quiet hstore hns hopened hflights =>
      rw [append_nil]
      exact hshuttling.quiet hstore hns hopened hflights
  | connect hfresh hfd hstore hns hopened hflights =>
      rw [append_nil]
      exact hshuttling.connect hfresh hfd hstore hns hopened hflights
  | go hold hnew hstore hns hopened hflights =>
      rw [append_nil]
      exact hshuttling.go hold (by simpa using hnew) hstore hns hopened hflights
  | abandon hstore hns hopened hflights =>
      rw [append_nil]
      exact hshuttling.go (by decide) (by simp) hstore hns hopened hflights
  | welcome hstore hns hopened hflights => exact hshuttling.welcome hstore hns hopened hflights
  | serve ask hcall hstore hns hopened hflights =>
      exact hshuttling.serve hcall hstore hns hopened hflights
  | send hstore hns hopened hflights => exact hshuttling.send _ hstore hns hopened hflights
  | close hstore hns hopened hflights => exact hshuttling.close hstore hns hopened hflights

theorem Shuttling.step {event : Event E} {traffic : List (Traffic ℤ (Ask E) Byte)}
    (hlimit : event.WithinLimit) (hstep : worldStep handler world event = some (after, traffic)) :
    Shuttling handler store after (history ++ traffic) := by
  refine hshuttling.move (move_of_step ?_ ?_ hlimit hstep)
  · exact fun fd hopen => (hshuttling.range fd hopen).1
  · intro fd leg hflight
    exact (hshuttling.leg_range ((denote_eq_some_iff hshuttling.nodup).2 hflight)).2.1

end Steps

theorem shuttling_of_run {handler : Handler E S} {store : S} {events : List (Event E)}
    (hlimit : ∀ event ∈ events, event.WithinLimit) {final : World S}
    {parts : List (List (Traffic ℤ (Ask E) Byte))}
    (hrun : run (worldStep handler) (World.start store) events = some (final, parts)) :
    Shuttling handler store final parts.flatten := by
  have hstep : ∀ (world : World S) (past : List (List (Traffic ℤ (Ask E) Byte)))
      (event : Event E) (after : World S) (traffic : List (Traffic ℤ (Ask E) Byte)),
      Shuttling handler store world past.flatten → event.WithinLimit →
      worldStep handler world event = some (after, traffic) →
      Shuttling handler store after (past ++ [traffic]).flatten := by
    intro world past event after traffic hshuttling hevent hstep
    rw [flatten_concat]
    exact hshuttling.step hevent hstep
  have hstart : Shuttling handler store (World.start store) ([] : List _).flatten :=
    shuttling_start handler store
  exact run_history_along hstep hstart (along_of_forall (fun _ => hlimit) _) hrun

/-- In every run of the loop and the kernel, the handler serves one request after the other,
each with the namespace of its own connection, and on every connection there is one send for
each request, before the next one is served. -/
theorem proactor_serves_in_turn (handler : Handler E S) (store : S) (events : List (Event E))
    (hlimit : ∀ event ∈ events, event.WithinLimit) {final : World S}
    {parts : List (List (Traffic ℤ (Ask E) Byte))}
    (hrun : run (worldStep handler) (World.start store) events = some (final, parts)) :
    Explains (handlerService handler) id (Hub.empty ℤ store) parts.flatten
        ⟨final.state.store, final.session⟩ ∧
      ∀ fd, ∃ pending, InTurn (fun _ _ => True) pending (exchangesOn fd parts.flatten) ∧
        (pending = none ↔ denote final.state.flights fd ≠ some .replying) := by
  have hshuttling := shuttling_of_run hlimit hrun
  exact ⟨hshuttling.explained, hshuttling.turns⟩

end Worlds

/-- Both requests are stored before either is handled, so that one of them is lost; the turns
of the connections are kept all the same. -/
theorem proactor_serves_in_turn_atOnce :
    ∃ final parts,
      run (worldStep kvsHandler) (World.start emptyServer) atOnce = some (final, parts) ∧
      exchangesOn 5 parts.flatten = [⟨ascii "NO EXIST\r\n", [ascii "NO EXIST\r\n"]⟩] ∧
      Explains (handlerService kvsHandler) id (Hub.empty ℤ emptyServer) parts.flatten
        ⟨final.state.store, final.session⟩ := by
  have hexchanges : (run (worldStep kvsHandler) (World.start emptyServer) atOnce).map
      (fun result => exchangesOn 5 result.2.flatten) =
        some [⟨ascii "NO EXIST\r\n", [ascii "NO EXIST\r\n"]⟩] := by
    decide +kernel
  obtain ⟨⟨final, parts⟩, hrun, hexchanges⟩ := Option.map_eq_some_iff.1 hexchanges
  exact ⟨final, parts, hrun, hexchanges,
    (proactor_serves_in_turn kvsHandler emptyServer atOnce (by decide +kernel) hrun).1⟩

end LiteMultiKV.Network
