import LiteMultiKV.Cache.Report
import LiteMultiKV.Core.History
import LiteMultiKV.Core.Windows

/-!
# Access windows and the hit rate history

`kvs_cache_ai_recommend` averages over the recent past.  The hit rates are kept
in a ring and smoothed in the order of its cells, which is the order of time
until the ring is full and once in each round after that.  The accesses are
counted in three windows that move with the clock, but an access enters at the
clock time modulo the window, so it is counted until the clock begins a new
minute, hour or day.
-/

namespace LiteMultiKV.Cache

open List History CText Numeric
open LiteMultiKV.Windows (Clock Counts Follows follows_nil)

/-! ## The hit rate history -/

section Samples

variable {F : Type} {cache : CacheManager F} {samples : List F}

/-- The ring has taken these samples. -/
structure Sampled (cache : CacheManager F) (samples : List F) : Prop where
  holds : Holds historySize cache.ai.hitRateHistory samples
  idx_eq : cache.ai.historyIdx = samples.length % historySize
  count_eq : cache.ai.historyCount = min samples.length historySize

theorem kvsCacheInit_sampled [CFloat F] (maxItems : ℤ) : Sampled (kvsCacheInit F maxItems) [] :=
  ⟨holds_nil, rfl, rfl⟩

theorem Sampled.record (hsampled : Sampled cache samples) (hitRate : F) :
    Sampled (recordHitRateSample cache hitRate) (samples ++ [hitRate]) where
  holds := by
    have hpushed := hsampled.holds.push hitRate
    rwa [← hsampled.idx_eq] at hpushed
  idx_eq := by
    simp only [recordHitRateSample, hsampled.idx_eq, length_append, length_singleton,
      Nat.mod_add_mod]
  count_eq := by
    simp only [recordHitRateSample, hsampled.count_eq, length_append, length_singleton]
    split <;> omega

theorem Sampled.record_all (hsampled : Sampled cache samples) (more : List F) :
    Sampled (more.foldl recordHitRateSample cache) (samples ++ more) := by
  induction more generalizing cache samples with
  | nil => rwa [append_nil]
  | cons hitRate more ih =>
      rw [foldl_cons, ← singleton_append, ← append_assoc]
      exact ih (hsampled.record hitRate)

end Samples

/-- The loop smooths the cells from the first one on. -/
theorem exponentialSmooth_eq (history : ℕ → ℚ) (count : ℕ) (alpha : ℚ) :
    exponentialSmooth history count alpha =
      smooth alpha ((range (min count historySize)).map history) := by
  have hzero : (0.0 : ℚ) = 0 := by norm_num
  have hone : (1.0 : ℚ) = 1 := by norm_num
  cases count with
  | zero => exact hzero
  | succ count =>
      have hcells : range (min (count + 1) historySize) =
          0 :: range' 1 (min (count + 1) historySize - 1) := by
        obtain ⟨more, hmore⟩ : ∃ more, min (count + 1) historySize = more + 1 :=
          Nat.exists_eq_add_one.2 (lt_min (Nat.succ_pos count) (by decide))
        rw [hmore, range_eq_range', range'_succ]
        rfl
      rw [hcells, map_cons, smooth, blend, foldl_map, exponentialSmooth,
        if_neg (Nat.succ_ne_zero count), ← hone]

/-- The samples of the round that the ring is in. -/
def samplesSince (samples : List ℚ) : List ℚ :=
  samples.drop (samples.length - samples.length % historySize)

/-- The samples of the round before that are still in the ring. -/
def samplesBefore (samples : List ℚ) : List ℚ :=
  (samples.drop (samples.length - historySize)).take
    (historySize - samples.length % historySize)

/-- What `kvs_cache_ai_recommend` predicts after the samples. -/
def prediction (alpha : ℚ) (maxItems : ℤ) (samples : List ℚ) : ℚ :=
  let ai := (samples.foldl recordHitRateSample (kvsCacheInit ℚ maxItems)).ai
  exponentialSmooth ai.hitRateHistory ai.historyCount alpha

/-- The prediction smooths the cells of a ring of samples in the order of the cells. -/
theorem exists_prediction_eq (alpha : ℚ) (maxItems : ℤ) (samples : List ℚ) :
    ∃ cells, Holds historySize cells samples ∧ prediction alpha maxItems samples =
      smooth alpha ((range (min samples.length historySize)).map cells) := by
  obtain ⟨hholds, -, hcount⟩ := (kvsCacheInit_sampled (F := ℚ) maxItems).record_all samples
  rw [nil_append] at hholds hcount
  refine ⟨_, hholds, ?_⟩
  rw [prediction, exponentialSmooth_eq, hcount, min_assoc, min_self]

theorem prediction_of_le (alpha : ℚ) (maxItems : ℤ) {samples : List ℚ}
    (hle : samples.length ≤ historySize) :
    prediction alpha maxItems samples = smooth alpha samples := by
  obtain ⟨cells, hholds, hprediction⟩ := exists_prediction_eq alpha maxItems samples
  rw [hprediction, min_eq_left hle, hholds.cells_of_le hle]

/-- A full ring is read from the current round on. -/
theorem prediction_of_ge (alpha : ℚ) (maxItems : ℤ) {samples : List ℚ}
    (hge : historySize ≤ samples.length) :
    prediction alpha maxItems samples =
      smooth alpha (samplesSince samples ++ samplesBefore samples) := by
  obtain ⟨cells, hholds, hprediction⟩ := exists_prediction_eq alpha maxItems samples
  rw [hprediction, min_eq_right hge, hholds.cells_of_ge (by decide) hge, samplesSince,
    samplesBefore]

/-- After some number of samples the prediction follows the order of time, whatever the
samples are, exactly if the ring has not wrapped or is at the end of a round. -/
theorem prediction_in_time_order_iff (alpha : ℚ) (maxItems : ℤ) (count : ℕ) :
    (∀ samples : List ℚ, samples.length = count →
      prediction alpha maxItems samples =
        smooth alpha (samples.drop (samples.length - historySize))) ↔
    count ≤ historySize ∨ historySize ∣ count := by
  have hpos : 0 < historySize := by decide
  constructor
  · intro hordered
    by_contra! hwrapped
    obtain ⟨hmore, hpart⟩ := hwrapped
    have hround := Nat.mod_lt count hpos
    obtain ⟨old, new, hold, hnew, hne⟩ := exists_exchange_ne alpha
      (by omega : 0 < historySize - count % historySize)
      (Nat.pos_of_ne_zero fun hzero => hpart (Nat.dvd_of_mod_eq_zero hzero))
      (by simp only [historySize] at hround ⊢; omega)
    -- the two rounds in the ring are the parts that smoothing can tell apart
    let samples := replicate (count - historySize) 0 ++ (old ++ new)
    have hlength : samples.length = count := by simp [samples, hold, hnew]; omega
    have hlatest : samples.drop (samples.length - historySize) = old ++ new := by
      rw [hlength, drop_left' (by simp)]
    have hsince : samplesSince samples = new := by
      rw [samplesSince, hlength]
      simp only [samples, ← append_assoc]
      exact drop_left' (by simp [hold]; omega)
    have hbefore : samplesBefore samples = old := by
      rw [samplesBefore, hlatest, hlength]
      exact take_left' hold
    have hsame := hordered samples hlength
    rw [prediction_of_ge alpha maxItems (by omega), hsince, hbefore, hlatest] at hsame
    exact hne hsame
  · rintro hcount samples rfl
    rcases le_total samples.length historySize with hle | hge
    · rw [prediction_of_le alpha maxItems hle, Nat.sub_eq_zero_of_le hle, drop_zero]
    · have hdvd : historySize ∣ samples.length := by
        rcases hcount with hle | hdvd
        · exact dvd_of_eq (le_antisymm hge hle)
        · exact hdvd
      have hsince : samplesSince samples = [] := by
        rw [samplesSince, Nat.mod_eq_zero_of_dvd hdvd, Nat.sub_zero, drop_length]
      have hlatest : samples.drop (samples.length - historySize) =
          samplesBefore samples ++ samplesSince samples := latest_eq_append samples hpos hge
      rw [prediction_of_ge alpha maxItems hge, hlatest, hsince, nil_append, append_nil]

/-- Twenty samples of 0 and one of 1: the newest sample is read as the oldest. -/
theorem prediction_not_in_time_order :
    let samples : List ℚ := replicate 20 0 ++ [1]
    prediction 0.3 1000 samples ≠ smooth 0.3 (samples.drop (samples.length - historySize)) := by
  decide +kernel

/-! ## The access windows -/

/-- `access_by_second` moves with `last_update_time`, which is zero before its start. -/
def secondClock : Clock where
  size := 60
  unit := id
  guard := id
  size_pos := by decide
  unit_mono := monotone_id
  guard_mono := monotone_id
  unit_early := fun _ hzero => hzero

/-- `access_by_minute` moves with `last_minute`. -/
def minuteClock : Clock where
  size := minuteWindow
  unit second := second / 60
  guard second := second / 60
  size_pos := by decide
  unit_mono := fun _ _ hle => Nat.div_le_div_right hle
  guard_mono := fun _ _ hle => Nat.div_le_div_right hle
  unit_early := fun _ hzero => hzero

/-- `access_by_hour` moves with `last_hour`, but it is `last_minute` that says whether
it has been started. -/
def hourClock : Clock where
  size := hourWindow
  unit second := second / 3600
  guard second := second / 60
  size_pos := by decide
  unit_mono := fun _ _ hle => Nat.div_le_div_right hle
  guard_mono := fun _ _ hle => Nat.div_le_div_right hle
  unit_early := by
    intro second hzero
    omega

section Windows

variable {F : Type} [CFloat F] {cache : CacheManager F}

/-- The three windows after accesses at the given seconds. -/
structure Windowed (cache : CacheManager F) (seconds : List ℕ) : Prop where
  second : Follows secondClock cache.accessBySecond cache.lastUpdateTime seconds
  minute : Follows minuteClock cache.ai.accessByMinute cache.ai.lastMinute seconds
  hour : Follows hourClock cache.ai.accessByHour cache.ai.lastHour seconds

theorem kvsCacheInit_windowed (maxItems : ℤ) : Windowed (kvsCacheInit F maxItems) [] :=
  ⟨follows_nil, follows_nil, follows_nil⟩

/-- A difference of less than 68 years is not changed by the conversion. -/
theorem elapsed_eq {now last : ℕ} (hle : last ≤ now) (hgap : now < last + 2 ^ 31) :
    elapsed now last = ((now - last : ℕ) : ℤ) := by
  rw [elapsed, int32, Int.bmod_eq_of_le]
  · omega
  · omega
  · omega

/-- Clearing a window and moving it beyond its size are the same to it. -/
theorem moveWindow_counts {size shift : ℕ} {clear : Bool} (hclear : clear = true → size ≤ shift)
    (window : ℕ → ℕ) :
    ∃ moved, moveWindow clear shift window = some moved ∧
      ∀ places, Counts size window places → Counts size moved (places.map (· + shift)) := by
  by_cases hreset : clear = true
  · exact ⟨_, if_pos hreset, fun places _ => Windows.counts_clear (hclear hreset) places⟩
  · refine ⟨shiftWindow shift window, ?_, fun places hcounts => hcounts.shift shift⟩
    rw [moveWindow, if_neg hreset, if_neg (by omega), Int.toNat_natCast]

omit [CFloat F] in
theorem advanceMinute_spec (ai : AIStats F) {minute : ℕ} (hle : ai.lastMinute ≤ minute)
    (hgap : minute < ai.lastMinute + 2 ^ 31) :
    ∃ moved, advanceMinute ai minute =
        some { ai with accessByMinute := moved, lastMinute := minute } ∧
      ∀ places, Counts minuteWindow ai.accessByMinute places →
        Counts minuteWindow moved (places.map (· + (minute - ai.lastMinute))) := by
  rcases hle.eq_or_lt with rfl | hlt
  · exact ⟨ai.accessByMinute, if_neg (lt_irrefl _), fun places hcounts => by simpa using hcounts⟩
  · have hclear : decide ((minuteWindow : ℤ) ≤ (minute - ai.lastMinute : ℕ)) = true →
        minuteWindow ≤ minute - ai.lastMinute := fun hreset => by simpa using hreset
    obtain ⟨moved, hmove, hcounts⟩ := moveWindow_counts hclear ai.accessByMinute
    refine ⟨moved, ?_, hcounts⟩
    simp only [advanceMinute, if_pos hlt, elapsed_eq hle hgap, hmove]
    rfl

omit [CFloat F] in
theorem advanceHour_spec (ai : AIStats F) {hour : ℕ} (hle : ai.lastHour ≤ hour)
    (hgap : hour < ai.lastHour + 2 ^ 31) :
    ∃ moved, advanceHour ai hour = some { ai with accessByHour := moved, lastHour := hour } ∧
      ∀ places, Counts hourWindow ai.accessByHour places →
        Counts hourWindow moved (places.map (· + (hour - ai.lastHour))) := by
  rcases hle.eq_or_lt with rfl | hlt
  · exact ⟨ai.accessByHour, if_neg (lt_irrefl _), fun places hcounts => by simpa using hcounts⟩
  · have hclear : decide ((hourWindow : ℤ) ≤ (hour - ai.lastHour : ℕ)) = true →
        hourWindow ≤ hour - ai.lastHour := fun hreset => by simpa using hreset
    obtain ⟨moved, hmove, hcounts⟩ := moveWindow_counts hclear ai.accessByHour
    refine ⟨moved, ?_, hcounts⟩
    simp only [advanceHour, if_pos hlt, elapsed_eq hle hgap, hmove]
    rfl

/-- The later windows are left alone. -/
structure SecondOnly (cache after : CacheManager F) : Prop where
  accessByMinute_eq : after.ai.accessByMinute = cache.ai.accessByMinute
  accessByHour_eq : after.ai.accessByHour = cache.ai.accessByHour
  lastMinute_eq : after.ai.lastMinute = cache.ai.lastMinute
  lastHour_eq : after.ai.lastHour = cache.ai.lastHour

theorem updateDynamicThresholds_spec (cache : CacheManager F) :
    SecondOnly cache (updateDynamicThresholds cache) ∧
      (updateDynamicThresholds cache).accessBySecond = cache.accessBySecond ∧
      (updateDynamicThresholds cache).lastUpdateTime = cache.lastUpdateTime := by
  unfold updateDynamicThresholds
  split <;> exact ⟨⟨rfl, rfl, rfl, rfl⟩, rfl, rfl⟩

theorem advanceSecond_spec (cache : CacheManager F) {second : ℕ}
    (hle : cache.lastUpdateTime ≤ second) (hgap : second < cache.lastUpdateTime + 2 ^ 31) :
    ∃ after, advanceSecond cache second = some after ∧ SecondOnly cache after ∧
      after.lastUpdateTime = second ∧
      ∀ places, Counts 60 cache.accessBySecond places →
        Counts 60 after.accessBySecond (places.map (· + (second - cache.lastUpdateTime))) := by
  rcases hle.eq_or_lt with heq | hlt
  · refine ⟨cache, if_neg (not_lt.2 heq.ge), ⟨rfl, rfl, rfl, rfl⟩, heq, fun places hcounts => ?_⟩
    simpa [heq] using hcounts
  · have hclear : decide ((60 : ℤ) < (second - cache.lastUpdateTime : ℕ)) = true →
        60 ≤ second - cache.lastUpdateTime := by
      intro hreset
      have hlater := of_decide_eq_true hreset
      omega
    obtain ⟨moved, hmove, hcounts⟩ := moveWindow_counts hclear cache.accessBySecond
    let sampled := recordHitRateSample
      { cache with accessBySecond := moved, lastUpdateTime := second }
      (hitRateOf { cache with accessBySecond := moved, lastUpdateTime := second })
    obtain ⟨⟨hminutes, hhours, hminute, hhour⟩, hseconds, hsecond⟩ :=
      updateDynamicThresholds_spec sampled
    refine ⟨updateDynamicThresholds sampled, ?_, ⟨hminutes, hhours, hminute, hhour⟩, hsecond,
      fun places hplaces => ?_⟩
    · simp only [advanceSecond, if_pos hlt, elapsed_eq hle hgap, hmove]
      rfl
    · rw [hseconds]
      exact hcounts places hplaces

variable {seconds : List ℕ} {second : ℕ}

/-- The next access is not before the others, and less than 68 years after them. -/
structure Next (seconds : List ℕ) (second : ℕ) : Prop where
  later : ∀ other ∈ seconds, other ≤ second
  gap : ∀ last ∈ seconds.getLast?, second < last + 2 ^ 31

theorem Next.of_follows (hnext : Next seconds second) {clock : Clock} {window : ℕ → ℕ} {last : ℕ}
    (hfollows : Follows clock window last seconds) (hsome : clock.started seconds ≠ []) :
    ∃ before, before ≤ second ∧ second < before + 2 ^ 31 ∧ last = clock.unit before := by
  rcases eq_nil_or_concat' seconds with rfl | ⟨front, before, rfl⟩
  · exact absurd rfl hsome
  · exact ⟨before, hnext.later before mem_concat_self, hnext.gap before (by simp),
      hfollows.last_eq_unit⟩

/-- The first half of `kvs_cache_record_access`. -/
theorem record_second (cache : CacheManager F)
    (hfollows : Follows secondClock cache.accessBySecond cache.lastUpdateTime seconds)
    (hnext : Next seconds second) :
    ∃ after, advanceSecond (if cache.lastUpdateTime = 0 then
        { cache with lastUpdateTime := second } else cache) second = some after ∧
      SecondOnly cache after ∧
      Follows secondClock (bump (second % 60) after.accessBySecond) after.lastUpdateTime
        (seconds ++ [second]) := by
  have hstarted := hfollows.last_eq_zero_iff rfl
  by_cases hzero : cache.lastUpdateTime = 0
  · refine ⟨{ cache with lastUpdateTime := second }, ?_, ⟨rfl, rfl, rfl, rfl⟩, ?_⟩
    · rw [if_pos hzero]
      exact if_neg (lt_irrefl _)
    · by_cases hearly : second = 0
      · subst hearly
        exact hfollows.wait hnext.later rfl
      · exact hfollows.start (hstarted.1 hzero) hnext.later hearly
  · have hsome := fun hnone => hzero (hstarted.2 hnone)
    obtain ⟨before, hbefore, hgap, hlast⟩ := hnext.of_follows hfollows hsome
    have hlast : cache.lastUpdateTime = before := hlast
    obtain ⟨after, hadvance, honly, hsecond, hcounts⟩ :=
      advanceSecond_spec cache (hlast ▸ hbefore) (hlast ▸ hgap)
    refine ⟨after, by rw [if_neg hzero, hadvance], honly, ?_⟩
    rw [hsecond]
    exact hfollows.later hsome hnext.later (show second ≠ 0 by omega)
      (hlast.trans_le hbefore) hcounts

omit [CFloat F] in
/-- The second half. -/
theorem record_minute (cache : CacheManager F)
    (hminute : Follows minuteClock cache.ai.accessByMinute cache.ai.lastMinute seconds)
    (hhour : Follows hourClock cache.ai.accessByHour cache.ai.lastHour seconds)
    (hnext : Next seconds second) :
    ∃ after, updateTimeWindows cache second = some after ∧
      after.accessBySecond = cache.accessBySecond ∧ after.lastUpdateTime = cache.lastUpdateTime ∧
      Follows minuteClock (bump (second / 60 % minuteWindow) after.ai.accessByMinute)
        after.ai.lastMinute (seconds ++ [second]) ∧
      Follows hourClock (bump (second / 3600 % hourWindow) after.ai.accessByHour)
        after.ai.lastHour (seconds ++ [second]) := by
  have hstarted := hminute.last_eq_zero_iff rfl
  -- both clocks start at the same time
  have hboth : minuteClock.started seconds = [] ↔ hourClock.started seconds = [] := by
    rw [Clock.started, map_eq_nil_iff, Clock.started, map_eq_nil_iff]
    rfl
  by_cases hzero : cache.ai.lastMinute = 0
  · have hnone := hstarted.1 hzero
    refine ⟨_, if_pos hzero, rfl, rfl, ?_⟩
    by_cases hearly : second / 60 = 0
    · have hhourEarly : second / 3600 = 0 := by omega
      simp only [hearly, hhourEarly]
      exact ⟨hminute.wait hnext.later hearly, hhour.wait hnext.later hearly⟩
    · exact ⟨hminute.start hnone hnext.later hearly,
        hhour.start (hboth.1 hnone) hnext.later hearly⟩
  · have hsome := fun hnone => hzero (hstarted.2 hnone)
    have hsomeHour := fun hnone => hsome (hboth.2 hnone)
    obtain ⟨before, hbefore, hgap, hlast⟩ := hnext.of_follows hminute hsome
    obtain ⟨beforeHour, hbeforeHour, hgapHour, hlastHour⟩ := hnext.of_follows hhour hsomeHour
    have hlast : cache.ai.lastMinute = before / 60 := hlast
    have hlastHour : cache.ai.lastHour = beforeHour / 3600 := hlastHour
    have hguard : second / 60 ≠ 0 := by omega
    obtain ⟨minutes, hadvance, hcounts⟩ :=
      advanceMinute_spec cache.ai (by omega : cache.ai.lastMinute ≤ second / 60) (by omega)
    obtain ⟨hours, hadvanceHour, hcountsHour⟩ := advanceHour_spec
      { cache.ai with accessByMinute := minutes, lastMinute := second / 60 }
      (show cache.ai.lastHour ≤ second / 3600 by omega)
      (show second / 3600 < cache.ai.lastHour + 2 ^ 31 by omega)
    refine ⟨{ cache with ai := { cache.ai with
        accessByMinute := minutes
        lastMinute := second / 60
        accessByHour := hours
        lastHour := second / 3600 } }, ?_, rfl, rfl,
      hminute.later hsome hnext.later hguard (show cache.ai.lastMinute ≤ second / 60 by omega)
        hcounts,
      hhour.later hsomeHour hnext.later hguard
        (show cache.ai.lastHour ≤ second / 3600 by omega) hcountsHour⟩
    rw [updateTimeWindows, if_neg hzero, hadvance]
    simp only [Option.bind_eq_bind, Option.bind_some, hadvanceHour]
    rfl

theorem record_windowed (hwindowed : Windowed cache seconds) {now : ℕ}
    (hnext : Next seconds (now / 1000)) :
    ∃ after, kvsCacheRecordAccess cache now = some after ∧
      Windowed after (seconds ++ [now / 1000]) := by
  obtain ⟨advanced, hadvance, ⟨hminutes, hhours, hminute, hhour⟩, hsecond⟩ :=
    record_second { cache with totalAccess := cache.totalAccess + 1 } hwindowed.second hnext
  let counted := { advanced with
    accessBySecond := bump (now / 1000 % 60) advanced.accessBySecond }
  have hminuteBefore : Follows minuteClock counted.ai.accessByMinute counted.ai.lastMinute
      seconds := by
    simp only [counted, hminutes, hminute]
    exact hwindowed.minute
  have hhourBefore : Follows hourClock counted.ai.accessByHour counted.ai.lastHour
      seconds := by
    simp only [counted, hhours, hhour]
    exact hwindowed.hour
  obtain ⟨after, hupdate, hseconds, hlast, hminuteAfter, hhourAfter⟩ :=
    record_minute counted hminuteBefore hhourBefore hnext
  refine ⟨{ after with ai := { after.ai with
      accessByMinute := bump (now / 1000 / 60 % minuteWindow) after.ai.accessByMinute
      accessByHour := bump (now / 1000 / 3600 % hourWindow) after.ai.accessByHour } }, ?_,
    ?_, hminuteAfter, hhourAfter⟩
  · simp only [kvsCacheRecordAccess, hadvance, Option.bind_eq_bind, Option.bind_some]
    rw [show updateTimeWindows _ _ = some after from hupdate]
    rfl
  · simp only [hseconds, hlast]
    exact hsecond

/-- Consecutive accesses are less than 68 years apart. -/
def Close (times : List ℕ) : Prop :=
  times.IsChain fun before now => now / 1000 < before / 1000 + 2 ^ 31

theorem next_of_sorted {front : List ℕ} {now : ℕ} (hsorted : (front ++ [now]).Pairwise (· ≤ ·))
    (hclose : Close (front ++ [now])) : Next (front.map (· / 1000)) (now / 1000) where
  later := by
    intro second hsecond
    obtain ⟨time, htime, rfl⟩ := mem_map.1 hsecond
    exact Nat.div_le_div_right
      ((pairwise_append.1 hsorted).2.2 time htime now mem_cons_self)
  gap := by
    intro last hlast
    rw [getLast?_map] at hlast
    obtain ⟨time, htime, rfl⟩ := Option.map_eq_some_iff.1 hlast
    exact (isChain_append.1 hclose).2.2 time htime now rfl

theorem record_all_windowed (maxItems : ℤ) {times : List ℕ} (hsorted : times.Pairwise (· ≤ ·))
    (hclose : Close times) :
    ∃ cache, times.foldlM kvsCacheRecordAccess (kvsCacheInit F maxItems) = some cache ∧
      Windowed cache (times.map (· / 1000)) := by
  induction times using reverseRecOn with
  | nil => exact ⟨_, rfl, kvsCacheInit_windowed maxItems⟩
  | append_singleton front now ih =>
      obtain ⟨cache, hrun, hwindowed⟩ :=
        ih (pairwise_append.1 hsorted).1 (isChain_append.1 hclose).1
      obtain ⟨after, hrecord, hafter⟩ :=
        record_windowed hwindowed (next_of_sorted hsorted hclose)
      refine ⟨after, ?_, by rwa [map_append]⟩
      rw [foldlM_append, hrun]
      simp [hrecord]

/-- The sums are the numbers of accesses in the last 60 seconds, 60 minutes and 24
hours. -/
def SumsRight (cache : CacheManager F) (times : List ℕ) (now : ℕ) : Prop :=
  let seconds := times.map (· / 1000)
  totalBySecond cache = secondClock.within seconds (now / 1000) ∧
    Windows.total minuteWindow cache.ai.accessByMinute =
      minuteClock.within seconds (now / 1000) ∧
    Windows.total hourWindow cache.ai.accessByHour = hourClock.within seconds (now / 1000)

/-- In each window the recent accesses of an earlier minute, hour or day are as many
as the accesses that were made before the window was started and are out of date. -/
def Punctual (times : List ℕ) (now : ℕ) : Prop :=
  let seconds := times.map (· / 1000)
  secondClock.lost seconds (now / 1000) = secondClock.stale seconds (now / 1000) ∧
    minuteClock.lost seconds (now / 1000) = minuteClock.stale seconds (now / 1000) ∧
    hourClock.lost seconds (now / 1000) = hourClock.stale seconds (now / 1000)

omit [CFloat F] in
theorem Windowed.sumsRight_iff {front : List ℕ} {now : ℕ}
    (hwindowed : Windowed cache ((front ++ [now]).map (· / 1000))) :
    SumsRight cache (front ++ [now]) now ↔ Punctual (front ++ [now]) now := by
  rw [map_append] at hwindowed
  obtain ⟨hsecond, hminute, hhour⟩ := hwindowed
  simp only [SumsRight, Punctual, map_append, map_singleton]
  exact and_congr hsecond.total_eq_iff (and_congr hminute.total_eq_iff hhour.total_eq_iff)

/-- The sums are right after each access exactly if the accesses are punctual at each
of them. -/
theorem windows_right_iff (maxItems : ℤ) {times : List ℕ} (hsorted : times.Pairwise (· ≤ ·))
    (hclose : Close times) :
    (∀ front now, front ++ [now] <+: times →
      ∃ cache, (front ++ [now]).foldlM kvsCacheRecordAccess (kvsCacheInit F maxItems) =
        some cache ∧ SumsRight cache (front ++ [now]) now) ↔
    ∀ front now, front ++ [now] <+: times → Punctual (front ++ [now]) now := by
  refine forall_congr' fun front => forall_congr' fun now => imp_congr_right fun hbegin => ?_
  obtain ⟨later, rfl⟩ := hbegin
  obtain ⟨cache, hrun, hwindowed⟩ := record_all_windowed (F := F) maxItems
    (pairwise_append.1 hsorted).1 (isChain_append.1 hclose).1
  rw [← hwindowed.sumsRight_iff]
  constructor
  · rintro ⟨other, hother, hright⟩
    rw [hrun, Option.some.injEq] at hother
    exact hother ▸ hright
  · exact fun hright => ⟨cache, hrun, hright⟩

end Windows

/-- Accesses one second apart, on both sides of a full minute. -/
theorem windows_right_iff_minute :
    (∀ front now, front ++ [now] <+: [59000, 60000] →
      ∃ cache, (front ++ [now]).foldlM kvsCacheRecordAccess (kvsCacheInit Float32 1000) =
        some cache ∧ SumsRight cache (front ++ [now]) now) ↔
    ∀ front now, front ++ [now] <+: [59000, 60000] → Punctual (front ++ [now]) now :=
  windows_right_iff 1000 (by decide) (by simp [Close])

/-- The first of them has left the window, where it should stay for a minute. -/
theorem access_lost_at_minute :
    ([59000, 60000].foldlM kvsCacheRecordAccess (kvsCacheInit Float32 1000)).map totalBySecond =
        some 1 ∧
      secondClock.within ([59000, 60000].map (· / 1000)) (60000 / 1000) = 2 := by
  decide +kernel

end LiteMultiKV.Cache
