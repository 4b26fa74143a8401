import Mathlib

/-!
# Doubly linked cells

A heap maps addresses to cells with a payload and two link fields.  A list of
addresses is threaded through the heap when following `next` from its first
address meets the others in order and following `prev` from its last one meets
them in reverse; the two ends of a threaded segment point to given addresses
outside it.  The rules below say how a segment is cut and joined, that writes
elsewhere do not disturb it, and how the two writes at its ends redirect it.
-/

namespace LiteMultiKV.DoublyLinked

open List

variable {α V : Type*}

structure Cell (α V : Type*) where
  payload : V
  prev : Option α
  next : Option α

abbrev Heap (α V : Type*) := α → Option (Cell α V)

section Writes

variable [DecidableEq α]

/-- `node->next = target`; a write through a pointer to no cell has no result. -/
def setNext (heap : Heap α V) (node : α) (target : Option α) : Option (Heap α V) :=
  (heap node).map fun cell => Function.update heap node (some { cell with next := target })

/-- `node->prev = target`. -/
def setPrev (heap : Heap α V) (node : α) (target : Option α) : Option (Heap α V) :=
  (heap node).map fun cell => Function.update heap node (some { cell with prev := target })

/-- The cell is given back. -/
def release (heap : Heap α V) (node : α) : Heap α V :=
  Function.update heap node none

end Writes

/-- The walk along `next` to the first cell whose payload passes the test. -/
def search (heap : Heap α V) (test : V → Bool) : ℕ → Option α → Option (Option α)
  | 0, _ => none
  | _ + 1, none => some none
  | fuel + 1, some node =>
      match heap node with
      | none => none
      | some cell =>
          if test cell.payload then some (some node)
          else search heap test fuel cell.next

/-- The addresses form a segment between the two given ones. -/
def Threaded (heap : Heap α V) : Option α → List α → Option α → Prop
  | _, [], _ => True
  | before, node :: rest, after =>
      (∃ payload, heap node =
        some { payload := payload, prev := before, next := rest.head?.or after }) ∧
      Threaded heap (some node) rest after

variable {heap changed : Heap α V} {before after target : Option α} {node : α}
variable {front back list : List α}

theorem threaded_append : Threaded heap before (front ++ back) after ↔
    Threaded heap before front (back.head?.or after) ∧
      Threaded heap (front.getLast?.or before) back after := by
  induction front generalizing before with
  | nil => simp [Threaded]
  | cons node front ih =>
      have hlast : (node :: front).getLast?.or before = front.getLast?.or (some node) := by
        rw [getLast?_cons]
        cases front.getLast? <;> rfl
      have hhead : (front ++ back).head?.or after = front.head?.or (back.head?.or after) := by
        cases front <;> simp
      simp only [cons_append, Threaded, hlast, hhead, and_assoc, ih]

/-- The frame rule. -/
theorem Threaded.congr (hthreaded : Threaded heap before list after)
    (hsame : ∀ node ∈ list, changed node = heap node) : Threaded changed before list after := by
  induction list generalizing before with
  | nil => trivial
  | cons node list ih =>
      obtain ⟨⟨payload, hcell⟩, hrest⟩ := hthreaded
      exact ⟨⟨payload, (hsame node mem_cons_self).trans hcell⟩,
        ih hrest fun other hother => hsame other (mem_cons_of_mem _ hother)⟩

theorem Threaded.exists_cell (hthreaded : Threaded heap before list after)
    (hnode : node ∈ list) : ∃ cell, heap node = some cell := by
  obtain ⟨front, back, rfl⟩ := append_of_mem hnode
  obtain ⟨-, ⟨payload, hcell⟩, -⟩ := threaded_append.1 hthreaded
  exact ⟨_, hcell⟩

/-- The payloads of the cells of a list. -/
def payloads (heap : Heap α V) (list : List α) : List V :=
  list.filterMap fun node => (heap node).map Cell.payload

theorem payloads_congr (hsame : ∀ node ∈ list,
    (changed node).map Cell.payload = (heap node).map Cell.payload) :
    payloads changed list = payloads heap list :=
  filterMap_congr hsame

theorem Threaded.length_payloads (hthreaded : Threaded heap before list after) :
    (payloads heap list).length = list.length := by
  induction list generalizing before with
  | nil => rfl
  | cons node list ih =>
      obtain ⟨⟨payload, hcell⟩, hrest⟩ := hthreaded
      simp only [payloads] at ih
      simp [payloads, hcell, ih hrest]

theorem Threaded.payloads_take (hthreaded : Threaded heap before list after) (count : ℕ) :
    payloads heap (list.take count) = (payloads heap list).take count := by
  induction list generalizing before count with
  | nil => simp [payloads]
  | cons node list ih =>
      obtain ⟨⟨payload, hcell⟩, hrest⟩ := hthreaded
      cases count with
      | zero => rfl
      | succ count =>
          have htake := ih hrest count
          simp only [payloads] at htake
          simp [payloads, hcell, htake]

/-- The two heaps have the same payloads. -/
def SamePayloads (heap changed : Heap α V) : Prop :=
  ∀ node, (changed node).map Cell.payload = (heap node).map Cell.payload

theorem SamePayloads.trans {first second third : Heap α V} (hfirst : SamePayloads first second)
    (hsecond : SamePayloads second third) : SamePayloads first third :=
  fun node => (hsecond node).trans (hfirst node)

/-- The walk finds the first cell that passes. -/
theorem Threaded.search_eq (hthreaded : Threaded heap before list none) (test : V → Bool)
    {fuel : ℕ} (hfuel : list.length < fuel) :
    search heap test fuel list.head? =
      some (list.find? fun node => (heap node).any fun cell => test cell.payload) := by
  induction list generalizing before fuel with
  | nil =>
      obtain ⟨fuel, rfl⟩ : ∃ less, fuel = less + 1 := ⟨fuel - 1, by omega⟩
      rfl
  | cons node list ih =>
      rw [length_cons] at hfuel
      obtain ⟨fuel, rfl⟩ : ∃ less, fuel = less + 1 := ⟨fuel - 1, by omega⟩
      obtain ⟨⟨payload, hcell⟩, hrest⟩ := hthreaded
      by_cases htest : test payload = true
      · simp [search, hcell, htest]
      · have hnext := ih hrest (by omega : list.length < fuel)
        simpa [search, hcell, htest] using hnext

section Writes

variable [DecidableEq α]

/-- A cell outside the segment is written. -/
theorem Threaded.update (hthreaded : Threaded heap before list after) (hnode : node ∉ list)
    (cell : Option (Cell α V)) : Threaded (Function.update heap node cell) before list after :=
  hthreaded.congr fun _ hother => Function.update_of_ne (ne_of_mem_of_not_mem hother hnode) _ _

theorem samePayloads_update {cell : Cell α V} (hcell : heap node = some cell)
    (prev next : Option α) : SamePayloads heap (Function.update heap node
      (some { payload := cell.payload, prev := prev, next := next })) := by
  intro other
  by_cases hother : other = node
  · rw [hother, Function.update_self, hcell]
    rfl
  · rw [Function.update_of_ne hother]

/-- The last cell of a segment is redirected. -/
theorem Threaded.setNext_last (hthreaded : Threaded heap before (front ++ [node]) after)
    (hnodup : (front ++ [node]).Nodup) (target : Option α) :
    ∃ changed, setNext heap node target = some changed ∧
      Threaded changed before (front ++ [node]) target ∧ SamePayloads heap changed ∧
      ∀ other, other ≠ node → changed other = heap other := by
  obtain ⟨hfront, ⟨⟨payload, hcell⟩, -⟩⟩ := threaded_append.1 hthreaded
  have hnode : node ∉ front :=
    fun hmem => (nodup_append.1 hnodup).2.2 node hmem node mem_cons_self rfl
  have hset : setNext heap node target = some (Function.update heap node
      (some { payload := payload, prev := front.getLast?.or before, next := target })) := by
    rw [setNext, hcell, Option.map_some]
  exact ⟨_, hset, threaded_append.2 ⟨hfront.update hnode _,
    ⟨payload, Function.update_self _ _ _⟩, trivial⟩, samePayloads_update hcell _ target,
    fun other hother => Function.update_of_ne hother _ _⟩

/-- The first cell of a segment is redirected. -/
theorem Threaded.setPrev_first (hthreaded : Threaded heap before (node :: back) after)
    (hnodup : (node :: back).Nodup) (target : Option α) :
    ∃ changed, setPrev heap node target = some changed ∧
      Threaded changed target (node :: back) after ∧ SamePayloads heap changed ∧
      ∀ other, other ≠ node → changed other = heap other := by
  obtain ⟨⟨payload, hcell⟩, hback⟩ := hthreaded
  have hset : setPrev heap node target = some (Function.update heap node
      (some { payload := payload, prev := target, next := back.head?.or after })) := by
    rw [setPrev, hcell, Option.map_some]
  exact ⟨_, hset, ⟨⟨payload, Function.update_self _ _ _⟩,
    hback.update (nodup_cons.1 hnodup).1 _⟩, samePayloads_update hcell target _,
    fun other hother => Function.update_of_ne hother _ _⟩

end Writes

end LiteMultiKV.DoublyLinked
