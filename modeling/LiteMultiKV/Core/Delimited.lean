import Mathlib

/-!
# Streams of self-delimiting items

The end of an item of such an encoding can be seen from its own symbols, so a reader
can take the items off a text one by one.  Every text is in exactly one way a longest
sequence of valid items and a tail that starts with none, and of a truncated stream
these are the items that lie wholly inside.
-/

namespace LiteMultiKV.Delimited

open List

variable {α β : Type*}

/-- The reader takes an item off exactly the texts that start with a valid one. -/
structure Reads (encode : β → List α) (valid : β → Prop)
    (next : List α → Option (β × List α)) : Prop where
  complete : ∀ {item : β}, valid item → ∀ rest, next (encode item ++ rest) = some (item, rest)
  sound : ∀ {text : List α} {item : β} {rest : List α}, next text = some (item, rest) →
    valid item ∧ text = encode item ++ rest

/-- The text starts with no valid item. -/
def Stuck (encode : β → List α) (valid : β → Prop) (text : List α) : Prop :=
  ∀ item rest, valid item → text ≠ encode item ++ rest

/-- The longest sequence of valid items that the text starts with, and the tail. -/
structure Longest (encode : β → List α) (valid : β → Prop) (text : List α) (items : List β)
    (tail : List α) : Prop where
  all_valid : ∀ item ∈ items, valid item
  split : text = items.flatMap encode ++ tail
  stuck : Stuck encode valid tail

/-- The items at the front that lie wholly inside the first `room` symbols. -/
def within (encode : β → List α) : ℕ → List β → List β
  | _, [] => []
  | room, item :: items =>
      if (encode item).length ≤ room then
        item :: within encode (room - (encode item).length) items
      else []

section Reads

variable {encode : β → List α} {valid : β → Prop} {next : List α → Option (β × List α)}
variable {text tail other : List α} {items others : List β} {item : β}

theorem Reads.eq_none_iff (hreads : Reads encode valid next) :
    next text = none ↔ Stuck encode valid text := by
  constructor
  · rintro hnone item rest hvalid rfl
    rw [hreads.complete hvalid] at hnone
    cases hnone
  · intro hstuck
    cases hnext : next text with
    | none => rfl
    | some result =>
        obtain ⟨item, rest⟩ := result
        obtain ⟨hvalid, htext⟩ := hreads.sound hnext
        exact absurd htext (hstuck item rest hvalid)

/-- Two items at the front of one text are the same item. -/
theorem Reads.append_inj (hreads : Reads encode valid next) {first second : β}
    (hfirst : valid first) (hsecond : valid second) {rest last : List α}
    (heq : encode first ++ rest = encode second ++ last) : first = second ∧ rest = last := by
  have hread := hreads.complete hfirst rest
  rw [heq, hreads.complete hsecond last, Option.some.injEq, Prod.mk.injEq] at hread
  exact ⟨hread.1.symm, hread.2.symm⟩

theorem longest_nil_iff :
    Longest encode valid text [] tail ↔ tail = text ∧ Stuck encode valid text := by
  constructor
  · intro hlongest
    obtain rfl : text = tail := hlongest.split
    exact ⟨rfl, hlongest.stuck⟩
  · rintro ⟨rfl, hstuck⟩
    exact ⟨by simp, rfl, hstuck⟩

theorem longest_cons_iff :
    Longest encode valid text (item :: items) tail ↔
      valid item ∧ ∃ rest, text = encode item ++ rest ∧
        Longest encode valid rest items tail := by
  constructor
  · intro hlongest
    obtain ⟨hitem, hitems⟩ := forall_mem_cons.1 hlongest.all_valid
    refine ⟨hitem, items.flatMap encode ++ tail, ?_, hitems, rfl, hlongest.stuck⟩
    rw [hlongest.split, flatMap_cons, append_assoc]
  · rintro ⟨hitem, rest, rfl, hlongest⟩
    refine ⟨forall_mem_cons.2 ⟨hitem, hlongest.all_valid⟩, ?_, hlongest.stuck⟩
    rw [hlongest.split, flatMap_cons, append_assoc]

theorem Longest.unique (hreads : Reads encode valid next)
    (hlongest : Longest encode valid text items tail)
    (hother : Longest encode valid text others other) : items = others ∧ tail = other := by
  induction items generalizing text others with
  | nil =>
      obtain ⟨rfl, hstuck⟩ := longest_nil_iff.1 hlongest
      cases others with
      | nil => exact ⟨rfl, (longest_nil_iff.1 hother).1.symm⟩
      | cons first others =>
          obtain ⟨hvalid, rest, htext, -⟩ := longest_cons_iff.1 hother
          exact absurd htext (hstuck first rest hvalid)
  | cons item items ih =>
      obtain ⟨hvalid, rest, rfl, hrest⟩ := longest_cons_iff.1 hlongest
      cases others with
      | nil => exact absurd rfl ((longest_nil_iff.1 hother).2 item rest hvalid)
      | cons first others =>
          obtain ⟨hfirst, last, htext, hlast⟩ := longest_cons_iff.1 hother
          obtain ⟨rfl, rfl⟩ := hreads.append_inj hvalid hfirst htext
          obtain ⟨rfl, rfl⟩ := ih hrest hlast
          exact ⟨rfl, rfl⟩

theorem Reads.exists_longest (hreads : Reads encode valid next)
    (hlength : ∀ item, valid item → encode item ≠ []) (text : List α) :
    ∃ items tail, Longest encode valid text items tail := by
  induction hsize : text.length using Nat.strong_induction_on generalizing text with
  | _ size ih =>
      cases hnext : next text with
      | none => exact ⟨[], text, longest_nil_iff.2 ⟨rfl, hreads.eq_none_iff.1 hnext⟩⟩
      | some result =>
          obtain ⟨item, rest⟩ := result
          obtain ⟨hvalid, rfl⟩ := hreads.sound hnext
          have hpositive := length_pos_iff.2 (hlength item hvalid)
          obtain ⟨items, tail, hlongest⟩ :=
            ih rest.length (by rw [← hsize, length_append]; omega) rest rfl
          exact ⟨item :: items, tail, longest_cons_iff.2 ⟨hvalid, rest, rfl, hlongest⟩⟩

/-- An item that is cut short does not start with a valid item. -/
theorem Reads.stuck_take (hreads : Reads encode valid next) (hvalid : valid item) {count : ℕ}
    (hcount : count < (encode item).length) : Stuck encode valid ((encode item).take count) := by
  intro first rest hfirst heq
  have hwhole : encode first ++ (rest ++ (encode item).drop count) = encode item ++ [] := by
    rw [← append_assoc, ← heq, take_append_drop, append_nil]
  obtain ⟨-, hnil⟩ := hreads.append_inj hfirst hvalid hwhole
  rw [append_eq_nil_iff, drop_eq_nil_iff] at hnil
  omega

/-- Of a truncated stream the items that lie wholly inside are left. -/
theorem Reads.longest_take (hreads : Reads encode valid next) {items : List β}
    (hvalid : ∀ item ∈ items, valid item) {last : List α}
    (hlast : ∀ count, Stuck encode valid (last.take count)) (room : ℕ) :
    ∃ tail, Longest encode valid ((items.flatMap encode ++ last).take room)
      (within encode room items) tail := by
  induction items generalizing room with
  | nil => exact ⟨_, longest_nil_iff.2 ⟨rfl, hlast room⟩⟩
  | cons item items ih =>
      obtain ⟨hitem, hitems⟩ := forall_mem_cons.1 hvalid
      rw [flatMap_cons, append_assoc, within]
      by_cases hinside : (encode item).length ≤ room
      · obtain ⟨tail, hlongest⟩ := ih hitems (room - (encode item).length)
        rw [if_pos hinside, take_append, take_of_length_le hinside]
        exact ⟨tail, longest_cons_iff.2 ⟨hitem, _, rfl, hlongest⟩⟩
      · have hcut := Nat.lt_of_not_le hinside
        rw [if_neg hinside, take_append_of_le_length hcut.le]
        exact ⟨_, longest_nil_iff.2 ⟨rfl, hreads.stuck_take hitem hcut⟩⟩

end Reads

end LiteMultiKV.Delimited
