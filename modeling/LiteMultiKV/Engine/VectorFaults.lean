import LiteMultiKV.Engine.VectorBounds

/-!
# Reads outside the vectors

A distance that is computed over more components than its vectors have is not
defined in C.  Where the memory behind the vectors is mapped, the loop goes on with
what lies there; where it is not, the process ends.  A call on the engine is given
here with the answer to that question, and has no result if it leaves a vector and
the memory is not mapped.

The last section says when a set succeeds.  The capacity test looks at the append
position, so that vectors which were deleted or replaced still take up room.
-/

namespace LiteMultiKV.Vector

open List CText Memory Numeric Run

variable {F α : Type}

/-! ## Calls that may fault -/

instance (call : DistanceCall) : Decidable call.Within :=
  decidable_of_iff _ within_iff.symm

/-- No read faults: the computations stay inside, or the memory behind is mapped. -/
def ReadsPass (mapped : Bool) (calls : List DistanceCall) : Prop :=
  mapped = true ∨ ∀ call ∈ calls, call.Within

instance (mapped : Bool) (calls : List DistanceCall) : Decidable (ReadsPass mapped calls) :=
  inferInstanceAs (Decidable (_ ∨ _))

/-- The result of a call that makes these computations. -/
def unlessFault (mapped : Bool) (calls : List DistanceCall) (result : Option α) : Option α :=
  if ReadsPass mapped calls then result else none

theorem unlessFault_eq_some_iff {mapped : Bool} {calls : List DistanceCall} {result : Option α}
    {value : α} :
    unlessFault mapped calls result = some value ↔
      ReadsPass mapped calls ∧ result = some value := by
  unfold unlessFault
  split
  case isTrue hpass => simp [hpass]
  case isFalse hfault => simp [hfault]

/-- An update, and whether the memory behind the vectors is mapped while it runs. -/
structure Attempt (F : Type) where
  mapped : Bool
  update : Update F

section

variable [CFloat F]

/-- What the environment must grant to an update. -/
def Passes (vec : KvsVector F) (call : Attempt F) : Prop :=
  ReadsPass call.mapped (call.update.calls vec)

def attempt (vec : KvsVector F) (call : Attempt F) : Option (KvsVector F × ℤ) :=
  unlessFault call.mapped (call.update.calls vec) (updateStep vec call.update)

def attemptSearch (mapped : Bool) (chance : VectorChance F) (vec : KvsVector F) (k : ℕ)
    (key query : Option CStr) : Option (ℤ × List (ℕ × F)) :=
  unlessFault mapped (kvsVectorSearchCalls chance vec key query)
    (kvsVectorSearch chance vec k key query)

theorem attempt_of_passes {vec : KvsVector F} {call : Attempt F} (hpass : Passes vec call) :
    attempt vec call = updateStep vec call.update :=
  if_pos hpass

theorem attempt_of_fault {vec : KvsVector F} {call : Attempt F} (hfault : ¬Passes vec call) :
    attempt vec call = none :=
  if_neg hfault

theorem attemptSearch_mapped (chance : VectorChance F) (vec : KvsVector F) (k : ℕ)
    (key query : Option CStr) :
    attemptSearch true chance vec k key query = kvsVectorSearch chance vec k key query := by
  rw [attemptSearch, unlessFault, if_pos (.inl rfl)]

end

/-! ## Capacity -/

section Capacity

variable [CFloat F]

instance (vec : KvsVector F) (call : Attempt F) : Decidable (Passes vec call) :=
  inferInstanceAs (Decidable (ReadsPass _ _))

/-- As long as no read faults, a run has a result, keeps the layers, and the append position
is the number of sets that have succeeded. -/
theorem run_attempt {calls : List (Attempt F)}
    (hpass : Along attempt Passes (kvsVectorCreate F) calls) :
    ∃ vec codes, run attempt (kvsVectorCreate F) calls = some (vec, codes) ∧
      vec.index.Chained ∧
      vec.index.size =
        observed (fun appended call => noteAppended appended call.update) 0 calls codes := by
  have hstep : ∀ (vec : KvsVector F) appended (call : Attempt F),
      vec.index.Chained ∧ vec.index.size = appended → Passes vec call →
        ∃ after code, attempt vec call = some (after, code) ∧
          after.index.Chained ∧ after.index.size = noteAppended appended call.update code := by
    rintro vec - call ⟨hchained, rfl⟩ hpasses
    have hfact : Everywhere (fun _ _ => True) vec.index := fun _ _ _ _ => trivial
    obtain ⟨after, code, hstep, hafter, -, hsize⟩ := updateStep_kept hchained
      (fun _ _ _ _ => Iff.rfl) hfact call.update (fun _ _ => trivial)
    exact ⟨after, code, (attempt_of_passes hpasses).trans hstep, hafter, hsize⟩
  exact run_observed hstep (⟨chained_create, rfl⟩ :
    (kvsVectorCreate F).index.Chained ∧ (kvsVectorCreate F).index.size = 0) hpass

/-- A well-formed set succeeds if the index has a free place at its end and no read faults, and
the append position is the number of sets that have succeeded. -/
theorem set_succeeds_iff (calls : List (Attempt F))
    (hpass : Along attempt Passes (kvsVectorCreate F) calls) :
    ∃ vec codes, run attempt (kvsVectorCreate F) calls = some (vec, codes) ∧
      vec.index.size =
        observed (fun appended call => noteAppended appended call.update) 0 calls codes ∧
      ∀ mapped chance key value, chance.alloc = allocOk → WellFormed value →
        ((∃ after, attempt vec ⟨mapped, .set chance (some key) (some value)⟩ = some (after, 0)) ↔
          vec.index.size < maxElements ∧
            Passes vec ⟨mapped, .set chance (some key) (some value)⟩) := by
  obtain ⟨vec, codes, hrun, hchained, hsize⟩ := run_attempt hpass
  refine ⟨vec, codes, hrun, hsize, fun mapped chance key value halloc hvalue => ?_⟩
  simp only [attempt, unlessFault_eq_some_iff, exists_and_left]
  rw [and_comm]
  refine and_congr_left fun _ => ?_
  obtain ⟨vector, haccepted⟩ := hvalue.accepted (F := F) key
  rcases updateStep_cases hchained (.set chance (some key) (some value)) with
    ⟨code, hcode, hset, hfull⟩ | ⟨_, _, hdel, _⟩ | ⟨_, _, _, _, _, hroom, _, _, hset⟩
  · have hnode : (Update.set chance (some key) (some value)).node vec.index.size =
        hnswCreateNode allocOk vec.index.size vector (randomLevel chance.draws) key := by
      simp [Update.node, haccepted, halloc]
    have hcapacity := hfull _ hnode
    constructor
    · rintro ⟨after, hzero⟩
      rw [hset, Option.some.injEq, Prod.mk.injEq] at hzero
      omega
    · omega
  · cases hdel
  · exact ⟨fun _ => hroom, fun _ => ⟨_, hset⟩⟩

end Capacity

/-- A vector is stored, deleted and stored again; the last set leaves its vector and reads
what lies behind it. -/
def storedAgain : List (Attempt Float32) :=
  [⟨false, .set quietChance (some (lit "k")) (some oneVector)⟩, ⟨false, .del (some (lit "k"))⟩,
    ⟨true, .set quietChance (some (lit "k")) (some oneVector)⟩]

theorem set_succeeds_iff_storedAgain :
    Along attempt Passes (kvsVectorCreate Float32) storedAgain ∧
      ∃ vec codes, run attempt (kvsVectorCreate Float32) storedAgain = some (vec, codes) ∧
        vec.index.size =
          observed (fun appended call => noteAppended appended call.update) 0 storedAgain codes ∧
        ∀ mapped chance key value, chance.alloc = allocOk → WellFormed value →
          ((∃ after, attempt vec ⟨mapped, .set chance (some key) (some value)⟩ =
              some (after, 0)) ↔
            vec.index.size < maxElements ∧
              Passes vec ⟨mapped, .set chance (some key) (some value)⟩) :=
  have hpass : Along attempt Passes (kvsVectorCreate Float32) storedAgain := by decide +kernel
  ⟨hpass, set_succeeds_iff storedAgain hpass⟩

/-- A text with `MAX_DIM` components. -/
def wholeVector : CStr :=
  CStr.read (intercalate [32] (ascii "1536" :: replicate maxDim (ascii "0")))

theorem words_wholeVector : words wholeVector = lit "1536" :: replicate maxDim (lit "0") := by
  decide +kernel

theorem wholeVector_wellFormed : WellFormed wholeVector :=
  ⟨lit "1536", _, words_wholeVector, by decide +kernel, by decide +kernel, by decide +kernel⟩

/-- Every node made from the text is whole. -/
theorem wholeVector_length {key : CStr} {size : ℕ} {node : HNSWNode Float32}
    (hnode : (Update.set quietChance (some key) (some wholeVector)).node size = some node) :
    node.vector.length = maxDim := by
  obtain ⟨_, _, _, _, heq, haccepted, -⟩ := Update.node_fresh hnode
  obtain ⟨rfl, rfl, rfl⟩ := Update.set.inj heq
  obtain ⟨text, -, htext, hparse⟩ := acceptedVector_eq_some_iff.1 haccepted
  obtain rfl := Option.some.inj htext
  have hdim : ¬(atoi (lit "1536") ≤ 0 ∨ (maxDim : ℤ) < atoi (lit "1536")) ∧
      (atoi (lit "1536")).toNat = maxDim := by
    decide +kernel
  simp only [parseVector, words_wholeVector, hdim, if_false, length_replicate, lt_irrefl,
    Option.some.injEq] at hparse
  simp [← hparse]

/-- Among whole vectors such a set needs no memory behind them. -/
theorem AllWhole.passes {vec : KvsVector Float32} (hwhole : AllWhole vec.index)
    (hchained : vec.index.Chained) (key : CStr) :
    Passes vec ⟨false, .set quietChance (some key) (some wholeVector)⟩ :=
  .inr ((update_within_iff (hwhole.bounded hchained) _).2
    fun _ hnode _ _ => ⟨wholeVector_length hnode, hwhole⟩)

/-- Sets of one key leave one vector, and with whole vectors no read can fault. -/
theorem run_sameKey (key : CStr) {times : ℕ} (htimes : times ≤ maxElements) :
    ∃ vec codes, run attempt (kvsVectorCreate Float32)
        (replicate times ⟨false, .set quietChance (some key) (some wholeVector)⟩) =
          some (vec, codes) ∧
      vec.Tallied ∧ AllWhole vec.index ∧ vec.index.size = times ∧ others vec.index key = [] ∧
      (rows vec.index).length = min times 1 := by
  induction times with
  | zero =>
      exact ⟨_, [], rfl, tallied_create, fun node hnode => absurd hnode (Nat.not_lt_zero node),
        rfl, rfl, rfl⟩
  | succ times ih =>
      obtain ⟨vec, codes, hrun, htallied, hwhole, hsize, hothers, -⟩ := ih (by omega)
      obtain ⟨vector, final, hset, hfinal, hgrown, hrows⟩ :=
        wholeVector_wellFormed.set_rows (rfl : quietChance.alloc = allocOk) htallied (by omega) key
      have hpass := hwhole.passes htallied.chained key
      obtain ⟨after, code, hstep, -, hafter, -⟩ := updateStep_kept htallied.chained
        (fun _ _ _ _ => Iff.rfl) hwhole (.set quietChance (some key) (some wholeVector))
        fun node hnode => show node.vector.length = maxDim from wholeVector_length hnode
      obtain ⟨rfl, rfl⟩ : final = after ∧ 0 = code := by
        simpa [updateStep, hset] using hstep
      have hnext : run attempt vec [⟨false, .set quietChance (some key) (some wholeVector)⟩] =
          some (final, [0]) := by
        simp [run, attempt_of_passes hpass, hstep]
      rw [hothers, nil_append] at hrows
      refine ⟨final, codes ++ [0], ?_, hfinal, hafter, by omega, ?_, ?_⟩
      · rw [replicate_succ', run_append hrun, hnext]
        rfl
      · simp [others, hrows]
      · simp [hrows]

/-- After as many sets of one key as the index has places, one vector is left and no
further one can be stored. -/
theorem replaced_vectors_fill_index :
    ∃ vec codes, run attempt (kvsVectorCreate Float32)
        (replicate maxElements
          ⟨false, .set quietChance (some (lit "k")) (some wholeVector)⟩) = some (vec, codes) ∧
      kvsVectorCount vec = 1 ∧ WellFormed wholeVector ∧
      attempt vec ⟨false, .set quietChance (some (lit "k")) (some wholeVector)⟩ =
        some (vec, -1) := by
  obtain ⟨vec, codes, hrun, htallied, hwhole, hsize, -, hlength⟩ := run_sameKey (lit "k") le_rfl
  have hdeleted := htallied.deleted
  refine ⟨vec, codes, hrun, ?_, wholeVector_wellFormed, ?_⟩
  · simp only [maxElements] at hlength
    rw [kvsVectorCount]
    omega
  · rw [attempt_of_passes (hwhole.passes htallied.chained _)]
    rcases kvsVectorSet_rows quietChance htallied rfl (some (lit "k")) (some wholeVector) with
      ⟨-, hset⟩ | ⟨-, -, -, -, hroom, -⟩
    · exact hset
    · omega

end LiteMultiKV.Vector
