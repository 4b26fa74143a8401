import Mathlib

/-!
# Windows of counters

A window has a counter for each of the latest units of time.  When time goes on
all counters move up and the last ones fall out, so the window counts events by
a place that grows with time.  An event enters at the place of its unit modulo
the size of the window and not at the first place, and the events before the
clock is started wait at the first place.  The last result compares what is left
in the window with the events of the latest units.
-/

namespace LiteMultiKV.Windows

open List

variable {size : ℕ} {window : ℕ → ℕ} {places : List ℕ}

def total (size : ℕ) (window : ℕ → ℕ) : ℕ :=
  ((range size).map window).sum

/-- The counters of the window count the places. -/
def Counts (size : ℕ) (window : ℕ → ℕ) (places : List ℕ) : Prop :=
  ∀ i < size, window i = places.count i

theorem countP_lt_succ (places : List ℕ) (bound : ℕ) :
    places.countP (· < bound + 1) = places.countP (· < bound) + places.count bound := by
  induction places with
  | nil => rfl
  | cons place places ih =>
      simp only [countP_cons, count_cons, ih, decide_eq_true_eq, beq_iff_eq]
      split <;> split <;> split <;> omega

theorem Counts.total_eq (hcounts : Counts size window places) :
    total size window = places.countP (· < size) := by
  induction size with
  | zero => simp [total]
  | succ size ih =>
      have hfewer : Counts size window places := fun i hi => hcounts i (by omega)
      rw [countP_lt_succ, ← ih hfewer, ← hcounts size (Nat.lt_succ_self size), total, total,
        range_succ, map_append, sum_append]
      rfl

theorem Counts.perm {others : List ℕ} (hcounts : Counts size window places)
    (hperm : places.Perm others) : Counts size window others :=
  fun i hi => (hcounts i hi).trans (hperm.count_eq i)

/-- One more event at a place. -/
theorem Counts.bump (hcounts : Counts size window places) (place : ℕ) :
    Counts size (Function.update window place (window place + 1)) (place :: places) := by
  intro i hi
  by_cases hown : i = place
  · subst hown
    rw [Function.update_self, count_cons_self, hcounts i hi]
  · rw [Function.update_of_ne hown, count_cons_of_ne (Ne.symm hown), hcounts i hi]

/-- The counters move up and zeros follow. -/
theorem Counts.shift (hcounts : Counts size window places) (shift : ℕ) :
    Counts size (fun i => if i < shift then 0 else window (i - shift))
      (places.map (· + shift)) := by
  intro i hi
  change (if i < shift then 0 else window (i - shift)) = _
  split
  next hzero =>
    refine (count_eq_zero.2 fun hmem => ?_).symm
    obtain ⟨place, -, rfl⟩ := mem_map.1 hmem
    omega
  next hmoved =>
    have hcount := count_map_of_injective places (· + shift) (add_left_injective shift) (i - shift)
    rw [Nat.sub_add_cancel (not_lt.1 hmoved)] at hcount
    rw [hcount, hcounts (i - shift) (by omega)]

/-- All counters fall out. -/
theorem counts_clear {shift : ℕ} (hshift : size ≤ shift) (places : List ℕ) :
    Counts size (fun _ => 0) (places.map (· + shift)) := by
  intro i hi
  refine (count_eq_zero.2 fun hmem => ?_).symm
  obtain ⟨place, -, rfl⟩ := mem_map.1 hmem
  omega

/-! ## Events -/

/-- The place at a later unit of an event that entered at its unit. -/
def placeAt (size now unit : ℕ) : ℕ :=
  unit % size + (now - unit)

/-- An event is in the window until the next round begins. -/
theorem placeAt_lt_iff (hpos : 0 < size) {now unit : ℕ} (hle : unit ≤ now) :
    placeAt size now unit < size ↔ unit / size = now / size := by
  have hunit := Nat.div_add_mod unit size
  have hround := Nat.mod_lt unit hpos
  rw [placeAt]
  constructor
  · intro hlt
    refine (Nat.div_eq_of_lt_le ?_ ?_).symm
    · rw [Nat.mul_comm]
      omega
    · rw [Nat.succ_mul, Nat.mul_comm]
      omega
  · intro heq
    have hnow := Nat.div_add_mod now size
    have hroundNow := Nat.mod_lt now hpos
    rw [heq] at hunit
    omega

/-- The window since the clock was started at `first`: the events of some units, and a
number of early ones. -/
structure Tracks (size : ℕ) (window : ℕ → ℕ) (first last early : ℕ) (units : List ℕ) :
    Prop where
  counts : Counts size window (units.map (placeAt size last) ++ replicate early (last - first))
  first_le : first ≤ last
  units_le : ∀ unit ∈ units, unit ≤ last

variable {first last early now : ℕ} {units : List ℕ}

theorem tracks_empty : Tracks size (fun _ => 0) 0 0 0 [] :=
  ⟨fun _ _ => rfl, le_rfl, by simp⟩

/-- Time goes on, however the counters are moved. -/
theorem Tracks.move (htracks : Tracks size window first last early units) (hnow : last ≤ now)
    {moved : ℕ → ℕ} (hmoved : ∀ places, Counts size window places →
      Counts size moved (places.map (· + (now - last)))) :
    Tracks size moved first now early units where
  counts := by
    have hcounts := hmoved _ htracks.counts
    have hfirst := htracks.first_le
    have hearly : last - first + (now - last) = now - first := by omega
    have hplaces : (units.map (placeAt size last)).map (· + (now - last)) =
        units.map (placeAt size now) := by
      rw [map_map]
      refine map_congr_left fun unit hunit => ?_
      have hle := htracks.units_le unit hunit
      simp only [Function.comp_apply, placeAt]
      omega
    rwa [map_append, hplaces, map_replicate, hearly] at hcounts
  first_le := htracks.first_le.trans hnow
  units_le := fun unit hunit => (htracks.units_le unit hunit).trans hnow

/-- An event of the present unit. -/
theorem Tracks.enter (htracks : Tracks size window first last early units) :
    Tracks size (Function.update window (last % size) (window (last % size) + 1)) first last early
      (units ++ [last]) where
  counts := by
    have hplace : placeAt size last last = last % size := by simp [placeAt]
    refine (htracks.counts.bump (last % size)).perm ?_
    rw [map_append, map_singleton, hplace, append_assoc]
    exact perm_middle.symm
  first_le := htracks.first_le
  units_le := by
    intro unit hunit
    rcases mem_append.1 hunit with hunit | hunit
    · exact htracks.units_le unit hunit
    · exact (mem_singleton.1 hunit).le

/-- An event before the clock is started. -/
theorem Tracks.wait (htracks : Tracks size window first first early []) :
    Tracks size (Function.update window 0 (window 0 + 1)) first first (early + 1) [] where
  counts := by
    have hcounts := htracks.counts.bump 0
    simpa [replicate_succ] using hcounts
  first_le := le_rfl
  units_le := by simp

/-- The clock is started and nothing moves. -/
theorem Tracks.start (htracks : Tracks size window first first early []) (unit : ℕ) :
    Tracks size window unit unit early [] where
  counts := by simpa using htracks.counts
  first_le := le_rfl
  units_le := by simp

/-! ## What the window still counts -/

theorem Tracks.total_eq (hpos : 0 < size) (htracks : Tracks size window first last early units) :
    total size window = units.countP (fun unit => unit / size = last / size) +
      if last < first + size then early else 0 := by
  have hplaces : (units.map (placeAt size last)).countP (· < size) =
      units.countP fun unit => unit / size = last / size := by
    rw [countP_map]
    refine countP_congr fun unit hunit => ?_
    simp [placeAt_lt_iff hpos (htracks.units_le unit hunit)]
  rw [htracks.counts.total_eq, countP_append, hplaces, countP_replicate]
  have hfirst := htracks.first_le
  have hwaited : last - first < size ↔ last < first + size := by omega
  simp only [hwaited, decide_eq_true_eq]

/-- The events of the latest units that fell out when a round ended. -/
def lost (size now : ℕ) (units : List ℕ) : ℕ :=
  units.countP fun unit => now < unit + size ∧ unit / size ≠ now / size

/-- The early events that stay in the window beyond their time. -/
def stale (size now first early : ℕ) : ℕ :=
  if size ≤ now ∧ now < first + size then early else 0

theorem countP_recent (hpos : 0 < size) (hle : ∀ unit ∈ units, unit ≤ now) :
    units.countP (fun unit => now < unit + size) =
      units.countP (fun unit => unit / size = now / size) + lost size now units := by
  induction units with
  | nil => rfl
  | cons unit units ih =>
      have hrest := ih fun other hother => hle other (mem_cons_of_mem _ hother)
      have hround : unit / size = now / size → now < unit + size := by
        intro heq
        have hplace := (placeAt_lt_iff hpos (hle unit mem_cons_self)).2 heq
        simp only [placeAt] at hplace
        omega
      rw [lost] at hrest ⊢
      rw [countP_cons, countP_cons, countP_cons, hrest]
      by_cases hsame : unit / size = now / size
      · simp [hsame, hround hsame]
        omega
      · by_cases hrecent : now < unit + size
        · simp [hsame, hrecent]
          omega
        · simp [hsame, hrecent]

/-- The window counts the latest events, the early ones at unit zero, exactly if as
many were lost as are stale. -/
theorem Tracks.total_eq_iff (hpos : 0 < size)
    (htracks : Tracks size window first last early units) :
    total size window = (replicate early 0 ++ units).countP (fun unit => last < unit + size) ↔
      lost size last units = stale size last first early := by
  rw [htracks.total_eq hpos, countP_append, countP_recent hpos htracks.units_le, countP_replicate,
    stale]
  simp only [decide_eq_true_eq, Nat.zero_add]
  have hfirst := htracks.first_le
  by_cases hlate : size ≤ last
  · rw [if_neg (not_lt.2 hlate)]
    by_cases hwaited : last < first + size
    · rw [if_pos hwaited, if_pos ⟨hlate, hwaited⟩]
      omega
    · rw [if_neg hwaited, if_neg fun hboth => hwaited hboth.2]
      omega
  · rw [if_pos (not_le.1 hlate), if_pos (by omega), if_neg fun hboth => hlate hboth.1]
    omega

/-! ## Clocks -/

/-- The units a window counts in.  Its clock is started at the first time at which
the guard is not zero. -/
structure Clock where
  size : ℕ
  unit : ℕ → ℕ
  guard : ℕ → ℕ
  size_pos : 0 < size
  unit_mono : Monotone unit
  guard_mono : Monotone guard
  unit_early : ∀ time, guard time = 0 → unit time = 0

variable {clock : Clock} {times : List ℕ} {time : ℕ}

/-- The units of the events since the start. -/
def Clock.started (clock : Clock) (times : List ℕ) : List ℕ :=
  (times.filter fun time => clock.guard time ≠ 0).map clock.unit

/-- The number of events before the start. -/
def Clock.waiting (clock : Clock) (times : List ℕ) : ℕ :=
  times.countP fun time => clock.guard time = 0

/-- The events of the latest units. -/
def Clock.within (clock : Clock) (times : List ℕ) (now : ℕ) : ℕ :=
  times.countP fun time => clock.unit now < clock.unit time + clock.size

/-- Those of them that entered in an earlier round. -/
def Clock.lost (clock : Clock) (times : List ℕ) (now : ℕ) : ℕ :=
  times.countP fun time => clock.unit now < clock.unit time + clock.size ∧
    clock.unit time / clock.size ≠ clock.unit now / clock.size

/-- The events before the start, while they are out of date and the event that
started the clock is not. -/
def Clock.stale (clock : Clock) (times : List ℕ) (now : ℕ) : ℕ :=
  Windows.stale clock.size (clock.unit now) ((clock.started times).headD 0) (clock.waiting times)

theorem Clock.started_concat_early (hearly : clock.guard time = 0) :
    clock.started (times ++ [time]) = clock.started times := by
  simp [Clock.started, hearly]

theorem Clock.started_concat (hguard : clock.guard time ≠ 0) :
    clock.started (times ++ [time]) = clock.started times ++ [clock.unit time] := by
  simp [Clock.started, hguard]

theorem Clock.waiting_concat (hguard : clock.guard time ≠ 0) :
    clock.waiting (times ++ [time]) = clock.waiting times := by
  simp [Clock.waiting, hguard]

/-- Before the start there is no event after it. -/
theorem Clock.started_eq_nil (hsorted : ∀ other ∈ times, other ≤ time)
    (hearly : clock.guard time = 0) : clock.started times = [] := by
  rw [Clock.started, map_eq_nil_iff, filter_eq_nil_iff]
  intro other hother
  have hle := clock.guard_mono (hsorted other hother)
  have hzero : clock.guard other = 0 := by omega
  simp [hzero]

/-- Early events are events of unit zero. -/
theorem Clock.countP_unit (clock : Clock) (times : List ℕ) (test : ℕ → Bool) :
    times.countP (fun time => test (clock.unit time)) =
      (replicate (clock.waiting times) 0 ++ clock.started times).countP test := by
  induction times with
  | nil => rfl
  | cons time times ih =>
      rw [countP_append, countP_replicate] at ih ⊢
      by_cases hearly : clock.guard time = 0
      · have hwaiting : clock.waiting (time :: times) = clock.waiting times + 1 := by
          simp [Clock.waiting, hearly]
        have hstarted : clock.started (time :: times) = clock.started times := by
          simp [Clock.started, hearly]
        rw [countP_cons, ih, hwaiting, hstarted, clock.unit_early time hearly]
        split <;> omega
      · have hwaiting : clock.waiting (time :: times) = clock.waiting times := by
          simp [Clock.waiting, hearly]
        have hstarted : clock.started (time :: times) =
            clock.unit time :: clock.started times := by
          simp [Clock.started, hearly]
        rw [countP_cons, ih, hwaiting, hstarted, countP_cons, Nat.add_assoc]

/-- The window and the unit of its last move, after events at the given times. -/
structure Follows (clock : Clock) (window : ℕ → ℕ) (last : ℕ) (times : List ℕ) : Prop where
  tracks : Tracks clock.size window ((clock.started times).headD 0) last (clock.waiting times)
    (clock.started times)
  last_eq : last = (clock.started times).getLastD 0
  sorted : times.Pairwise (· ≤ ·)

theorem follows_nil : Follows clock (fun _ => 0) 0 [] :=
  ⟨tracks_empty, rfl, Pairwise.nil⟩

theorem sorted_concat (hsorted : times.Pairwise (· ≤ ·)) (hle : ∀ other ∈ times, other ≤ time) :
    (times ++ [time]).Pairwise (· ≤ ·) :=
  pairwise_append.2 ⟨hsorted, pairwise_singleton _ _, fun other hother _ hmem =>
    (mem_singleton.1 hmem).symm ▸ hle other hother⟩

/-- After an event, the last move was at its unit. -/
theorem Follows.last_eq_unit (hfollows : Follows clock window last (times ++ [time])) :
    last = clock.unit time := by
  have hle : ∀ other ∈ times ++ [time], other ≤ time := by
    intro other hother
    rcases mem_append.1 hother with hother | hother
    · exact (pairwise_append.1 hfollows.sorted).2.2 other hother time mem_cons_self
    · exact (mem_singleton.1 hother).le
  rw [hfollows.last_eq]
  by_cases hearly : clock.guard time = 0
  · rw [Clock.started_eq_nil hle hearly, clock.unit_early time hearly]
    rfl
  · rw [Clock.started_concat hearly, getLastD_concat]

/-- A clock whose units are its guard has been started once its unit is not zero. -/
theorem Follows.last_eq_zero_iff (hfollows : Follows clock window last times)
    (hguard : clock.guard = clock.unit) : last = 0 ↔ clock.started times = [] := by
  rw [hfollows.last_eq]
  rcases eq_nil_or_concat' (clock.started times) with hnone | ⟨front, unit, hsome⟩
  · simp [hnone]
  · have hmem : unit ∈ clock.started times := by
      rw [hsome]
      exact mem_concat_self
    obtain ⟨time, htime, rfl⟩ := mem_map.1 hmem
    have hne : clock.unit time ≠ 0 := by
      rw [← hguard]
      simpa using (mem_filter.1 htime).2
    simp [hsome, hne]

/-- An event before the start. -/
theorem Follows.wait (hfollows : Follows clock window last times)
    (hle : ∀ other ∈ times, other ≤ time) (hearly : clock.guard time = 0) :
    Follows clock (Function.update window 0 (window 0 + 1)) 0 (times ++ [time]) := by
  have hnone := Clock.started_eq_nil hle hearly
  have hwaiting : clock.waiting (times ++ [time]) = clock.waiting times + 1 := by
    simp [Clock.waiting, hearly]
  have hlast := hfollows.last_eq
  have htracks := hfollows.tracks
  rw [hnone] at hlast htracks
  rw [hlast] at htracks
  refine ⟨?_, ?_, sorted_concat hfollows.sorted hle⟩
  · rw [Clock.started_concat_early hearly, hnone, hwaiting]
    exact htracks.wait
  · rw [Clock.started_concat_early hearly, hnone]
    rfl

/-- The event that starts the clock. -/
theorem Follows.start (hfollows : Follows clock window last times)
    (hnone : clock.started times = []) (hle : ∀ other ∈ times, other ≤ time)
    (hguard : clock.guard time ≠ 0) :
    Follows clock (Function.update window (clock.unit time % clock.size)
      (window (clock.unit time % clock.size) + 1)) (clock.unit time) (times ++ [time]) := by
  have hlast := hfollows.last_eq
  have htracks := hfollows.tracks
  rw [hnone] at hlast htracks
  rw [hlast] at htracks
  refine ⟨?_, ?_, sorted_concat hfollows.sorted hle⟩
  · rw [Clock.started_concat hguard, hnone, Clock.waiting_concat hguard]
    exact (htracks.start (clock.unit time)).enter
  · rw [Clock.started_concat hguard, getLastD_concat]

/-- A later event, once the window has been moved to its unit. -/
theorem Follows.later (hfollows : Follows clock window last times)
    (hsome : clock.started times ≠ []) (hle : ∀ other ∈ times, other ≤ time)
    (hguard : clock.guard time ≠ 0) (hlast : last ≤ clock.unit time) {moved : ℕ → ℕ}
    (hmoved : ∀ places, Counts clock.size window places →
      Counts clock.size moved (places.map (· + (clock.unit time - last)))) :
    Follows clock (Function.update moved (clock.unit time % clock.size)
      (moved (clock.unit time % clock.size) + 1)) (clock.unit time) (times ++ [time]) := by
  have hhead : (clock.started times ++ [clock.unit time]).headD 0 =
      (clock.started times).headD 0 := by
    cases hstarted : clock.started times with
    | nil => exact absurd hstarted hsome
    | cons _ _ => rfl
  refine ⟨?_, ?_, sorted_concat hfollows.sorted hle⟩
  · rw [Clock.started_concat hguard, hhead, Clock.waiting_concat hguard]
    exact (hfollows.tracks.move hlast hmoved).enter
  · rw [Clock.started_concat hguard, getLastD_concat]

/-- After an event the window counts the latest events exactly if as many were lost
as are stale. -/
theorem Follows.total_eq_iff (hfollows : Follows clock window last (times ++ [time])) :
    total clock.size window = clock.within (times ++ [time]) time ↔
      clock.lost (times ++ [time]) time = clock.stale (times ++ [time]) time := by
  have hlast := hfollows.last_eq_unit
  subst hlast
  have hlost : clock.lost (times ++ [time]) time =
      Windows.lost clock.size (clock.unit time) (clock.started (times ++ [time])) := by
    rw [Clock.lost, clock.countP_unit _ fun unit => decide (clock.unit time < unit + clock.size ∧
      unit / clock.size ≠ clock.unit time / clock.size), countP_append, countP_replicate,
      if_neg, Nat.zero_add]
    · rfl
    · intro hearly
      obtain ⟨hrecent, hround⟩ := of_decide_eq_true hearly
      rw [Nat.zero_add] at hrecent
      rw [Nat.zero_div, Nat.div_eq_of_lt hrecent] at hround
      exact hround rfl
  rw [Clock.within, clock.countP_unit _ fun unit => decide (clock.unit time < unit + clock.size),
    hlost]
  exact hfollows.tracks.total_eq_iff clock.size_pos

end LiteMultiKV.Windows
