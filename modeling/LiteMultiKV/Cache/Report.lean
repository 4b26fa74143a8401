import LiteMultiKV.Cache.Manager

/-!
# Statistics and recommendations

The texts of `STATS` and `RECOMMEND`, with the access windows, the hit rate
history and the thresholds they are computed from.  Both texts are cut to the
size of the buffer they are written into.
-/

namespace LiteMultiKV.Cache

open CText Numeric

def historySize : ℕ := 20

def minuteWindow : ℕ := 60

def hourWindow : ℕ := 24

/-- `CONFIDENCE_HIGH`, `CONFIDENCE_MEDIUM` and `CONFIDENCE_LOW`. -/
inductive Confidence where
  | high
  | medium
  | low
  deriving DecidableEq

def patternName : AccessPattern → CStr
  | .stable => lit "Stable"
  | .bursty => lit "Bursty"
  | .periodic => lit "Periodic"
  | .random => lit "Random"

def confidenceName : Confidence → CStr
  | .high => lit "High"
  | .medium => lit "Medium"
  | .low => lit "Low"

section

variable {F : Type} [CFloat F]

/-! ## Access windows -/

def exponentialSmooth (history : ℕ → F) (count : ℕ) (alpha : F) : F :=
  if count = 0 then 0.0
  else (List.range' 1 (min count historySize - 1)).foldl
    (fun prediction i => alpha * history i + (1.0 - alpha) * prediction) (history 0)

def calculateVariance (data : ℕ → F) (count : ℕ) (mean : F) : F :=
  if count ≤ 1 then 0.0
  else
    let sum := (List.range (min count historySize)).foldl
      (fun sum i => sum + (data i - mean) * (data i - mean)) 0.0
    sum / ((count - 1 : ℕ) : F)

/-- The mean of the recorded hit rates. -/
def meanHitRate (ai : AIStats F) : F :=
  (List.range (min ai.historyCount historySize)).foldl
    (fun mean i => mean + ai.hitRateHistory i) 0.0 / (ai.historyCount : F)

/-- Their standard deviation. -/
def hitRateDeviation (ai : AIStats F) : F :=
  CFloat.sqrt (calculateVariance ai.hitRateHistory ai.historyCount (meanHitRate ai))

def totalBySecond (cache : CacheManager F) : ℕ :=
  ((List.range 60).map cache.accessBySecond).sum

def peakQps (cache : CacheManager F) : ℕ :=
  ((List.range 60).map cache.accessBySecond).foldl max 0

def detectAccessPattern (cache : CacheManager F) : AccessPattern :=
  if cache.ai.historyCount < 5 then .stable
  else
    let mean := meanHitRate cache.ai
    let deviation := hitRateDeviation cache.ai
    let avgQps := totalBySecond cache / 60
    let burstRatio : F := if 0 < avgQps then (peakQps cache : F) / (avgQps : F) else 1.0
    if CFloat.lt 3.0 burstRatio then .bursty
    else if CFloat.lt deviation 5.0 && CFloat.lt 60.0 mean then .stable
    else if CFloat.lt 15.0 deviation then .random
    else .periodic

/-- Restrict a threshold to an interval, with the comparisons of the source. -/
def clampBelow (bound value : F) : F :=
  if CFloat.lt value bound then bound else value

def clampAbove (bound value : F) : F :=
  if CFloat.lt bound value then bound else value

def updateDynamicThresholds (cache : CacheManager F) : CacheManager F :=
  if cache.ai.historyCount < 3 then cache
  else
    let deviation := hitRateDeviation cache.ai
    let hitRate := meanHitRate cache.ai - deviation
    let burstRatio := 3.0 + deviation / 10.0
    { cache with ai := { cache.ai with
      thresholdHitRate := clampAbove 70.0 (clampBelow 30.0 hitRate)
      thresholdBurstRatio := clampBelow 2.0 (clampAbove 8.0 burstRatio) } }

def recordHitRateSample (cache : CacheManager F) (hitRate : F) : CacheManager F :=
  { cache with ai := { cache.ai with
    hitRateHistory := Function.update cache.ai.hitRateHistory cache.ai.historyIdx hitRate
    historyIdx := (cache.ai.historyIdx + 1) % historySize
    historyCount :=
      if cache.ai.historyCount < historySize then cache.ai.historyCount + 1
      else cache.ai.historyCount } }

/-- Move a window by `shift` positions; the cells in front become zero. -/
def shiftWindow (shift : ℕ) (window : ℕ → ℕ) : ℕ → ℕ :=
  fun i => if i < shift then 0 else window (i - shift)

/-- Clear a window, or run the two loops that move it; with a negative shift they
leave the array. -/
def moveWindow (clear : Bool) (shift : ℤ) (window : ℕ → ℕ) : Option (ℕ → ℕ) :=
  if clear then some fun _ => 0
  else if shift < 0 then none
  else some (shiftWindow shift.toNat window)

/-- `(int)(now - last)`. -/
def elapsed (now last : ℕ) : ℤ :=
  int32 ((now : ℤ) - last)

/-- The part of `update_time_windows` that runs when the minute changes. -/
def advanceMinute (ai : AIStats F) (minute : ℕ) : Option (AIStats F) :=
  if ai.lastMinute < minute then do
    let shift := elapsed minute ai.lastMinute
    let window ← moveWindow (minuteWindow ≤ shift) shift ai.accessByMinute
    return { ai with accessByMinute := window, lastMinute := minute }
  else some ai

/-- The part of `update_time_windows` that runs when the hour changes. -/
def advanceHour (ai : AIStats F) (hour : ℕ) : Option (AIStats F) :=
  if ai.lastHour < hour then do
    let shift := elapsed hour ai.lastHour
    let window ← moveWindow (hourWindow ≤ shift) shift ai.accessByHour
    return { ai with accessByHour := window, lastHour := hour }
  else some ai

def updateTimeWindows (cache : CacheManager F) (now : ℕ) : Option (CacheManager F) :=
  let ai := cache.ai
  if ai.lastMinute = 0 then
    some { cache with ai := { ai with lastMinute := now / 60, lastHour := now / 3600 } }
  else do
    let ai ← advanceMinute ai (now / 60)
    let ai ← advanceHour ai (now / 3600)
    return { cache with ai := ai }

/-- Add one to a cell. -/
def bump (index : ℕ) (window : ℕ → ℕ) : ℕ → ℕ :=
  Function.update window index (window index + 1)

/-- The hit rate in per cent. -/
def hitRateOf (cache : CacheManager F) : F :=
  if 0 < cache.totalAccess then 100.0 * (cache.cacheHit : F) / (cache.totalAccess : F)
  else 0.0

/-- The part of `kvs_cache_record_access` that runs when the second changes. -/
def advanceSecond (cache : CacheManager F) (second : ℕ) : Option (CacheManager F) :=
  if cache.lastUpdateTime < second then do
    let shift := elapsed second cache.lastUpdateTime
    let window ← moveWindow (60 < shift) shift cache.accessBySecond
    let cache := { cache with accessBySecond := window, lastUpdateTime := second }
    return updateDynamicThresholds (recordHitRateSample cache (hitRateOf cache))
  else some cache

/-- One access at the clock time `now`, in milliseconds. -/
def kvsCacheRecordAccess (cache : CacheManager F) (now : ℕ) : Option (CacheManager F) := do
  let second := now / 1000
  let cache := { cache with totalAccess := cache.totalAccess + 1 }
  let cache :=
    if cache.lastUpdateTime = 0 then { cache with lastUpdateTime := second } else cache
  let cache ← advanceSecond cache second
  let cache := { cache with accessBySecond := bump (second % 60) cache.accessBySecond }
  let cache ← updateTimeWindows cache second
  return { cache with ai := { cache.ai with
    accessByMinute := bump (second / 60 % minuteWindow) cache.ai.accessByMinute
    accessByHour := bump (second / 3600 % hourWindow) cache.ai.accessByHour } }

/-! ## Texts -/

def crlf : List Byte :=
  [13, 10]

/-- One line of a report: a label, a value and what follows it. -/
def line (label : String) (value : List Byte) (tail : String) : List Byte :=
  ascii label ++ value ++ ascii tail ++ crlf

/-- The C string that `snprintf(out, max_len, ...)` leaves in `out`. -/
def cutTo (maxLen : ℕ) (text : List Byte) : CStr :=
  CStr.read (snprintf maxLen text).buffer

theorem length_cutTo {maxLen : ℕ} (hmax : 0 < maxLen) (text : List Byte) :
    strlen (cutTo maxLen text) < maxLen := by
  have hread := CStr.length_read_le (text.take (maxLen - 1))
  simp only [List.length_take] at hread
  simp only [cutTo, snprintf, hmax.ne', if_false, strlen]
  omega

/-- The sizes that only one of the two forms of the statistics prints. -/
def sizeLines (cache : CacheManager F) : List Byte :=
  match cache.policy with
  | .arc =>
      line "  T1 Size: " (formatInt cache.arc.t1.size) " (recent)" ++
      line "  T2 Size: " (formatInt cache.arc.t2.size) " (frequent)" ++
      line "  B1 Size: " (formatInt cache.arc.b1.size) " (ghost recent)" ++
      line "  B2 Size: " (formatInt cache.arc.b2.size) " (ghost frequent)" ++
      line "  Target T1 Size: " (formatInt cache.arc.targetSize) ""
  | _ => line "  Cache Size: " (formatInt cache.lru.size) ""

def statsText (cache : CacheManager F) : List Byte :=
  let minuteTotal := ((List.range minuteWindow).map cache.ai.accessByMinute).sum
  line "=== Cache Statistics (Enhanced) ===" [] "" ++
  line "  Policy: " (policyName cache.policy).bytes "" ++
  line "  Max Items: " (formatInt cache.maxItems) "" ++
  sizeLines cache ++
  line "  Total Access: " (formatUlong cache.totalAccess) "" ++
  line "  Cache Hits: " (formatUlong cache.cacheHit) "" ++
  line "  Cache Miss: " (formatUlong cache.cacheMiss) "" ++
  line "  Hit Rate: " (CFloat.format 2 (hitRateOf cache)).bytes "%" ++
  line "  Evictions: " (formatUlong cache.evictionCount) "" ++
  line "  Policy Changes: " (formatUlong cache.policyChanges) "" ++
  line "  Recent QPS: ~" (formatUlong (totalBySecond cache / 60)) "/s" ++
  line "  Avg Access/Min: ~" (formatUlong (minuteTotal / minuteWindow)) "" ++
  line "  Detected Pattern: " (patternName cache.ai.detectedPattern).bytes "" ++
  line "  Dynamic Threshold (Hit Rate): "
    (CFloat.format 1 cache.ai.thresholdHitRate).bytes "%" ++
  line "  Dynamic Threshold (Burst): "
    (CFloat.format 1 cache.ai.thresholdBurstRatio).bytes "x" ++
  line "===================================" [] ""

def kvsCacheGetStats (cache : CacheManager F) (maxLen : ℕ) : CStr :=
  cutTo maxLen (statsText cache)

/-- What `kvs_cache_ai_recommend` advises. -/
structure Advice where
  policy : Policy
  maxItems : ℕ
  confidence : Confidence
  reason : String
  detail : String

def advise (cache : CacheManager F) (hitRate peakToAvg : F) : Advice :=
  if CFloat.lt hitRate cache.ai.thresholdHitRate then
    { policy := .lfu
      maxItems := cache.maxItems * 2
      confidence := .high
      reason := "Low hit rate detected"
      detail := "LFU better identifies persistent hot keys when hit rate is low" }
  else if CFloat.lt cache.ai.thresholdBurstRatio peakToAvg then
    { policy := .arc
      maxItems := cache.maxItems * 2
      confidence := .high
      reason := "Bursty access pattern detected"
      detail := "ARC dual-buffer adapts well to sudden traffic spikes" }
  else if cache.ai.detectedPattern = .periodic then
    { policy := .arc
      maxItems := cache.maxItems
      confidence := .medium
      reason := "Periodic access pattern detected"
      detail := "ARC adapts well to time-varying access patterns" }
  else if cache.ai.detectedPattern = .random then
    { policy := .lru
      maxItems := cache.maxItems
      confidence := .low
      reason := "Random access pattern detected"
      detail := "LRU provides best overall performance for random access" }
  else if 3 < cache.policyChanges then
    { policy := .lru
      maxItems := cache.maxItems
      confidence := .medium
      reason := "Frequent policy changes detected"
      detail := "Stick with LRU for stability" }
  else
    { policy := cache.policy
      maxItems := cache.maxItems
      confidence := .high
      reason := "Current configuration is optimal"
      detail := "No changes needed - system performing well" }

/-- The fields of the statistics that a recommendation refreshes. -/
def refreshPrediction (cache : CacheManager F) : CacheManager F :=
  { cache with ai := { cache.ai with
    detectedPattern := detectAccessPattern cache
    predictedHitRate := exponentialSmooth cache.ai.hitRateHistory cache.ai.historyCount 0.3
    predictedQps := ((totalBySecond cache / 60 : ℕ) : F) * 1.1 } }

def recommendText (cache : CacheManager F) : List Byte :=
  let avgQps := totalBySecond cache / 60
  let hitRate := hitRateOf cache
  let peakToAvg : F := if 0 < avgQps then (peakQps cache : F) / (avgQps : F) else 0.0
  let advice := advise cache hitRate peakToAvg
  line "=== AI Cache Recommendation (Enhanced) ===" [] "" ++
  crlf ++
  line "[Current Status]" [] "" ++
  line "  Policy: " (policyName cache.policy).bytes "" ++
  line "  Hit Rate: " ((CFloat.format 2 hitRate).bytes ++ ascii "% (Predicted: " ++
    (CFloat.format 1 cache.ai.predictedHitRate).bytes) "%)" ++
  line "  Peak QPS: " (formatUlong (peakQps cache) ++ ascii ", Avg QPS: " ++
    formatUlong avgQps) "" ++
  line "  Peak/Avg Ratio: " (CFloat.format 2 peakToAvg).bytes "x" ++
  line "  Predicted QPS: " (CFloat.format 0 cache.ai.predictedQps).bytes "" ++
  crlf ++
  line "[Pattern Analysis]" [] "" ++
  line "  Detected Pattern: " (patternName cache.ai.detectedPattern).bytes "" ++
  line "  Dynamic Hit Rate Threshold: "
    (CFloat.format 1 cache.ai.thresholdHitRate).bytes "%" ++
  line "  Dynamic Burst Threshold: "
    (CFloat.format 1 cache.ai.thresholdBurstRatio).bytes "x" ++
  line "  History Samples: " (formatInt cache.ai.historyCount) "" ++
  crlf ++
  line "[Recommendation]" [] "" ++
  line "  Recommended Policy: " (policyName advice.policy).bytes "" ++
  line "  Recommended Max Items: " (formatInt advice.maxItems) "" ++
  line "  Confidence: " (confidenceName advice.confidence).bytes "" ++
  line "  Reason: " (ascii advice.reason) "" ++
  line "  Detail: " (ascii advice.detail) "" ++
  crlf ++
  line "[Actions]" [] "" ++
  line "  To apply: POLICY SET " (policyName advice.policy).bytes "" ++
  line "  To view stats: STATS" [] "" ++
  line "=========================================" [] ""

def kvsCacheAiRecommend (cache : CacheManager F) (maxLen : ℕ) : CacheManager F × CStr :=
  let cache := refreshPrediction cache
  (cache, cutTo maxLen (recommendText cache))

end

end LiteMultiKV.Cache
