import Mathlib

/-!
# Recent values in a ring and their smoothing

The latest values of a sequence are kept in a ring of cells: each value goes to
the cell behind the one before it, and the first cell comes after the last.
Exponential smoothing folds over a list and weighs late values more, so it
depends on the order; the last result says that it sees two parts of a list
change places, whatever the factor and the lengths of the parts are.
-/

namespace LiteMultiKV.History

open List

section Ring

variable {α : Type*} {size : ℕ} {cells : ℕ → α} {values : List α}

/-- The latest values are in the cells of their places modulo the size. -/
def Holds (size : ℕ) (cells : ℕ → α) (values : List α) : Prop :=
  ∀ place value, values.length ≤ place + size → values[place]? = some value →
    cells (place % size) = value

theorem holds_nil : Holds size cells [] := by
  intro place value _ hvalue
  simp at hvalue

theorem Holds.push (hholds : Holds size cells values) (latest : α) :
    Holds size (Function.update cells (values.length % size) latest) (values ++ [latest]) := by
  intro place value hrecent hvalue
  rw [length_append, length_singleton] at hrecent
  rcases lt_trichotomy place values.length with hbefore | rfl | hbehind
  · have hother : place % size ≠ values.length % size := by
      intro heq
      have hround : (values.length - place) % size = 0 := Nat.sub_mod_eq_zero_of_mod_eq heq.symm
      have hle : size ≤ values.length - place :=
        Nat.le_of_dvd (by omega) (Nat.dvd_of_mod_eq_zero hround)
      omega
    rw [getElem?_append_left hbefore] at hvalue
    rw [Function.update_of_ne hother]
    exact hholds place value (by omega) hvalue
  · rw [getElem?_concat_length, Option.some.injEq] at hvalue
    rw [Function.update_self, hvalue]
  · rw [getElem?_eq_none (by rw [length_append, length_singleton]; omega)] at hvalue
    cases hvalue

/-- Before the ring is full, its cells are the values. -/
theorem Holds.cells_of_le (hholds : Holds size cells values) (hle : values.length ≤ size) :
    (range values.length).map cells = values := by
  refine ext_getElem (by simp) fun place hplace hvalue => ?_
  rw [getElem_map, getElem_range]
  have hcell := hholds place values[place] (by omega) (getElem?_eq_getElem hvalue)
  rwa [Nat.mod_eq_of_lt (by omega)] at hcell

/-- A full ring begins with the values of the last round, and those of the round
before that have not been overwritten follow. -/
theorem Holds.cells_of_ge (hholds : Holds size cells values) (hpos : 0 < size)
    (hge : size ≤ values.length) :
    (range size).map cells = values.drop (values.length - values.length % size) ++
      (values.drop (values.length - size)).take (size - values.length % size) := by
  have hround := Nat.mod_lt values.length hpos
  have hpast := Nat.div_add_mod values.length size
  obtain ⟨rounds, hrounds⟩ : ∃ rounds, values.length / size = rounds + 1 :=
    Nat.exists_eq_add_one.2 (Nat.div_pos hge hpos)
  rw [hrounds, Nat.mul_succ] at hpast
  have hnewLength : (values.drop (values.length - values.length % size)).length =
      values.length % size := by
    rw [length_drop]
    omega
  refine ext_getElem (by simp; omega) fun place hplace hvalue => ?_
  rw [length_map, length_range] at hplace
  rw [getElem_map, getElem_range, getElem_append]
  split
  next hnew =>
    have hmod : (values.length - values.length % size + place) % size = place := by
      have hplaceNew : values.length - values.length % size + place =
          size * (rounds + 1) + place := by
        rw [Nat.mul_succ]
        omega
      rw [hplaceNew, Nat.mul_add_mod, Nat.mod_eq_of_lt hplace]
    have hcell := hholds (values.length - values.length % size + place) _ (by omega)
      (getElem?_eq_getElem (by omega))
    rw [getElem_drop]
    rwa [hmod] at hcell
  next hold =>
    have hmod : (values.length - size + (place - (values.drop
        (values.length - values.length % size)).length)) % size = place := by
      have hplaceOld : values.length - size + (place - values.length % size) =
          size * rounds + place := by
        omega
      rw [hnewLength, hplaceOld, Nat.mul_add_mod, Nat.mod_eq_of_lt hplace]
    have hcell := hholds (values.length - size + (place - (values.drop
      (values.length - values.length % size)).length)) _ (by omega)
      (getElem?_eq_getElem (by omega))
    rw [getElem_take, getElem_drop]
    rwa [hmod] at hcell

/-- The latest values, cut where the ring starts again. -/
theorem latest_eq_append (values : List α) {size : ℕ} (hpos : 0 < size)
    (hge : size ≤ values.length) :
    values.drop (values.length - size) =
      (values.drop (values.length - size)).take (size - values.length % size) ++
        values.drop (values.length - values.length % size) := by
  have hround := Nat.mod_lt values.length hpos
  conv_lhs => rw [← take_append_drop (size - values.length % size)
    (values.drop (values.length - size)), drop_drop]
  congr 2
  omega

end Ring

section Smoothing

variable {R : Type*} [CommRing R] (alpha : R)

/-- Each value pulls the estimate towards itself. -/
def blend (estimate : R) (values : List R) : R :=
  values.foldl (fun estimate value => alpha * value + (1 - alpha) * estimate) estimate

/-- Exponential smoothing from the oldest value on. -/
def smooth : List R → R
  | [] => 0
  | oldest :: values => blend alpha oldest values

/-- What is left of the estimate after some values. -/
theorem blend_eq (estimate : R) (values : List R) :
    blend alpha estimate values =
      (1 - alpha) ^ values.length * estimate + blend alpha 0 values := by
  induction values generalizing estimate with
  | nil => simp [blend]
  | cons value values ih =>
      have hstep : ∀ start, blend alpha start (value :: values) =
          blend alpha (alpha * value + (1 - alpha) * start) values := fun _ => rfl
      rw [hstep, hstep, ih, ih (alpha * value + (1 - alpha) * 0), length_cons, pow_succ]
      ring

theorem smooth_append {front : List R} (hfront : front ≠ []) (back : List R) :
    smooth alpha (front ++ back) =
      (1 - alpha) ^ back.length * smooth alpha front + blend alpha 0 back := by
  cases front with
  | nil => exact absurd rfl hfront
  | cons oldest front =>
      rw [cons_append, smooth, smooth, ← blend_eq]
      exact foldl_append

theorem blend_replicate (count : ℕ) (value : R) :
    blend alpha 0 (replicate count value) = (1 - (1 - alpha) ^ count) * value := by
  induction count with
  | zero => simp [blend]
  | succ count ih =>
      have hstep : blend alpha 0 (replicate (count + 1) value) =
          blend alpha (alpha * value + (1 - alpha) * 0) (replicate count value) := rfl
      rw [hstep, blend_eq, ih, length_replicate, pow_succ]
      ring

theorem smooth_replicate {count : ℕ} (hcount : 0 < count) (value : R) :
    smooth alpha (replicate count value) = value := by
  obtain ⟨more, rfl⟩ := Nat.exists_eq_add_one.2 hcount
  rw [replicate_succ, smooth, blend_eq, blend_replicate, length_replicate]
  ring

/-- The weight of the newest value. -/
theorem smooth_newest {count : ℕ} (hcount : 0 < count) :
    smooth alpha (replicate count 0 ++ [1]) = alpha := by
  rw [smooth_append alpha (by simp; omega), smooth_replicate alpha hcount]
  simp [blend]

variable [IsDomain R]

/-- Two parts of which the older one has more than one value cannot always change places:
the weight of the newest value of one part would be that of the other. -/
theorem exists_exchange_ne_of_lt {before since : ℕ} (hbefore : 1 < before) (hsince : 0 < since) :
    ∃ old new : List R, old.length = before ∧ new.length = since ∧
      smooth alpha (new ++ old) ≠ smooth alpha (old ++ new) := by
  by_contra! hsame
  have hconstant : (1 - alpha) ^ before = 1 - (1 - alpha) ^ since := by
    have heq := hsame (replicate before 0) (replicate since 1) (by simp) (by simp)
    rw [smooth_append alpha (by simp; omega), smooth_append alpha (by simp; omega),
      smooth_replicate alpha hsince, smooth_replicate alpha (by omega)] at heq
    simpa [blend_replicate] using heq
  have hnewest : alpha * (1 - (1 - alpha) ^ since) = 0 := by
    have heq := hsame (replicate (before - 1) 0 ++ [1]) (replicate since 0) (by simp; omega)
      (by simp)
    rw [smooth_append alpha (by simp) (replicate since 0), ← append_assoc,
      replicate_append_replicate, smooth_newest alpha (by omega), smooth_newest alpha (by omega),
      blend_replicate, length_replicate] at heq
    linear_combination heq
  rcases mul_eq_zero.1 hnewest with hzero | hfull
  · simp [hzero] at hconstant
  · rw [hfull] at hconstant
    have hnone : 1 - alpha = 0 := eq_zero_of_pow_eq_zero hconstant
    rw [hnone, zero_pow hsince.ne', sub_zero] at hfull
    exact one_ne_zero hfull

/-- Smoothing sees the exchange of two parts of a list of more than two values. -/
theorem exists_exchange_ne {before since : ℕ} (hbefore : 0 < before) (hsince : 0 < since)
    (hmore : 2 < before + since) :
    ∃ old new : List R, old.length = before ∧ new.length = since ∧
      smooth alpha (new ++ old) ≠ smooth alpha (old ++ new) := by
  rcases Nat.lt_or_ge 1 before with hlong | hshort
  · exact exists_exchange_ne_of_lt alpha hlong hsince
  · obtain ⟨new, old, hnew, hold, hne⟩ :=
      exists_exchange_ne_of_lt alpha (by omega : 1 < since) hbefore
    exact ⟨old, new, hold, hnew, hne.symm⟩

end Smoothing

end LiteMultiKV.History
