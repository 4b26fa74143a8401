import LiteMultiKV.Persist.Decode

/-!
# The buffers of a load

`rdb_load` reads each string into a buffer that `rdb_read_string` allocates and returns
through a pointer of its caller.  When the bytes of the string end early the callee frees
the buffer and leaves the pointer as it is, and the caller frees what the pointer shows.
This file follows the buffers of a whole load as a trace of handles and decides for which
files each handle is released exactly once.
-/

namespace LiteMultiKV.Persist

open List CText Delimited Families

/-! ## Traces -/

/-- A buffer is obtained or released. -/
inductive BufferEvent where
  | malloc (handle : ℕ)
  | free (handle : ℕ)
  deriving DecidableEq

def BufferEvent.handle : BufferEvent → ℕ
  | .malloc handle => handle
  | .free handle => handle

/-- What a trace does with one handle. -/
def eventsOn (handle : ℕ) (trace : List BufferEvent) : List BufferEvent :=
  trace.filter fun event => event.handle = handle

/-- Every handle of the trace is obtained once and then released once. -/
def ReleasedOnce (trace : List BufferEvent) : Prop :=
  ∀ handle, eventsOn handle trace = [] ∨ eventsOn handle trace = [.malloc handle, .free handle]

theorem eventsOn_eq_nil {handle : ℕ} {trace : List BufferEvent}
    (hother : ∀ event ∈ trace, event.handle ≠ handle) : eventsOn handle trace = [] := by
  rw [eventsOn, filter_eq_nil_iff]
  intro event hevent
  simpa using hother event hevent

/-- Traces on different handles are judged apart. -/
theorem releasedOnce_append_iff {first second : List BufferEvent} {bound : ℕ}
    (hfirst : ∀ event ∈ first, event.handle < bound)
    (hsecond : ∀ event ∈ second, bound ≤ event.handle) :
    ReleasedOnce (first ++ second) ↔ ReleasedOnce first ∧ ReleasedOnce second := by
  have hsplit : ∀ handle, eventsOn handle (first ++ second) =
      eventsOn handle first ++ eventsOn handle second := fun handle => filter_append ..
  have hlow : ∀ handle < bound, eventsOn handle second = [] := fun handle hhandle =>
    eventsOn_eq_nil fun event hevent => by
      have hle := hsecond event hevent
      omega
  have hhigh : ∀ handle, bound ≤ handle → eventsOn handle first = [] := fun handle hhandle =>
    eventsOn_eq_nil fun event hevent => by
      have hlt := hfirst event hevent
      omega
  constructor
  · intro hreleased
    refine ⟨fun handle => ?_, fun handle => ?_⟩
    · by_cases hhandle : handle < bound
      · have hown := hreleased handle
        rwa [hsplit, hlow handle hhandle, append_nil] at hown
      · exact .inl (hhigh handle (Nat.le_of_not_lt hhandle))
    · by_cases hhandle : handle < bound
      · exact .inl (hlow handle hhandle)
      · have hown := hreleased handle
        rwa [hsplit, hhigh handle (Nat.le_of_not_lt hhandle), nil_append] at hown
  · rintro ⟨hone, htwo⟩ handle
    rw [hsplit]
    by_cases hhandle : handle < bound
    · rw [hlow handle hhandle, append_nil]
      exact hone handle
    · rw [hhigh handle (Nat.le_of_not_lt hhandle), nil_append]
      exact htwo handle

/-! ## A load with its buffers -/

/-- What one call of `rdb_read_string` leaves: its events, the pointer of its caller, and
the string with the bytes behind it if it succeeds. -/
structure StringCall where
  events : List BufferEvent
  pointer : Option ℕ
  string : Option (CStr × List Byte)

/-- `rdb_read_string`; the buffer it allocates gets the handle. -/
def readString (alloc : Bool) (handle : ℕ) (bytes : List Byte) : StringCall :=
  match rdbReadInt bytes with
  | none => ⟨[], none, none⟩
  | some (length, bytes) =>
      if length ≤ 0 ∨ (maxStringLength : ℤ) < length then ⟨[], none, none⟩
      else if !alloc then ⟨[], none, none⟩
      else
        match readExact length.toNat bytes with
        | none => ⟨[.malloc handle, .free handle], some handle, none⟩
        | some (text, rest) => ⟨[.malloc handle], some handle, some (CStr.read text, rest)⟩

/-- `if (str) kvs_free(str)`. -/
def release (pointer : Option ℕ) : List BufferEvent :=
  pointer.toList.map .free

/-- The buffers of one round of the record loop, and the bytes the next round starts at.
The second string is read only if the first one was.  Both pointers are released at the end
of a round and when a string fails; the `set` operations copy the strings. -/
def recordBuffers (chance : LoadChance) (i : ℕ) (bytes : List Byte) :
    List BufferEvent × Option (List Byte) :=
  match rdbReadInt bytes with
  | none => ([], none)
  | some (tag, bytes) =>
      if tag = -1 then ([], none)
      else
        let key := readString (chance.strings (2 * i)) (2 * i) bytes
        match key.string with
        | none => (key.events ++ release key.pointer, none)
        | some (_, bytes) =>
            let value := readString (chance.strings (2 * i + 1)) (2 * i + 1) bytes
            (key.events ++ value.events ++ release key.pointer ++ release value.pointer,
              value.string.map Prod.snd)

/-- The buffers of the record loop. -/
def loopBuffers (chance : LoadChance) : ℕ → ℕ → List Byte → List BufferEvent
  | 0, _, _ => []
  | fuel + 1, i, bytes =>
      match recordBuffers chance i bytes with
      | (events, none) => events
      | (events, some rest) => events ++ loopBuffers chance fuel (i + 1) rest

/-- The buffers of `rdb_load`. -/
def loadBuffers (chance : LoadChance) (file : List Byte) : List BufferEvent :=
  match rdbLoadHeader file with
  | none => []
  | some body => loopBuffers chance (body.length + 1) 0 body

/-! ## One round -/

/-- The call of `rdb_read_string` that a result of it comes from. -/
def callOf (handle : ℕ) : StringRead → StringCall
  | .untouched => ⟨[], none, none⟩
  | .released => ⟨[.malloc handle, .free handle], some handle, none⟩
  | .text value rest => ⟨[.malloc handle], some handle, some (value, rest)⟩

theorem readString_eq (alloc : Bool) (handle : ℕ) (bytes : List Byte) :
    readString alloc handle bytes = callOf handle (rdbReadString alloc bytes) := by
  unfold readString rdbReadString
  cases rdbReadInt bytes with
  | none => rfl
  | some result =>
      obtain ⟨length, rest⟩ := result
      by_cases hbad : length ≤ 0 ∨ (maxStringLength : ℤ) < length
      · have hrefused : length ≤ 0 ∨ (maxStringLength : ℤ) < length ∨ (!alloc) = true := by tauto
        simp only [if_pos hbad, if_pos hrefused, callOf]
      · simp only [if_neg hbad]
        cases alloc with
        | false => simp [callOf]
        | true =>
            have hgood : ¬(length ≤ 0 ∨ (maxStringLength : ℤ) < length ∨ (!true) = true) := by
              simpa using hbad
            simp only [if_neg hgood]
            cases readExact length.toNat rest with
            | none => simp [callOf]
            | some text => simp [callOf]

/-- The events of a round are on its two handles. -/
def OnRound (i : ℕ) (events : List BufferEvent) : Prop :=
  ∀ event ∈ events, 2 * i ≤ event.handle ∧ event.handle < 2 * (i + 1)

/-- A round releases each buffer once, unless it frees one twice. -/
inductive RoundBuffers (i : ℕ) : RecordRead → List BufferEvent × Option (List Byte) → Prop
  | stop {events : List BufferEvent} (hround : OnRound i events)
      (hreleased : ReleasedOnce events) : RoundBuffers i .stop (events, none)
  | torn {events : List BufferEvent} (hround : OnRound i events)
      (htwice : ¬ReleasedOnce events) : RoundBuffers i .doubleFree (events, none)
  | record {events : List BufferEvent} {tag : ℤ} {key value : CStr} {rest : List Byte}
      (hround : OnRound i events) (hreleased : ReleasedOnce events) :
      RoundBuffers i (.record tag key value rest) (events, some rest)

section Rounds

variable (i : ℕ)

theorem releasedOnce_nil : ReleasedOnce [] :=
  fun _ => .inl rfl

theorem releasedOnce_key : ReleasedOnce [.malloc (2 * i), .free (2 * i)] := by
  intro handle
  by_cases hkey : 2 * i = handle
  · right
    simp [eventsOn, BufferEvent.handle, hkey]
  · left
    simp [eventsOn, BufferEvent.handle, hkey]

theorem releasedOnce_both : ReleasedOnce
    [.malloc (2 * i), .malloc (2 * i + 1), .free (2 * i), .free (2 * i + 1)] := by
  intro handle
  by_cases hkey : 2 * i = handle
  · right
    subst hkey
    simp [eventsOn, BufferEvent.handle]
  · by_cases hvalue : 2 * i + 1 = handle
    · right
      simp [eventsOn, BufferEvent.handle, hkey, hvalue]
    · left
      simp [eventsOn, BufferEvent.handle, hkey, hvalue]

/-- The key is freed by the callee and by the caller. -/
theorem not_releasedOnce_key :
    ¬ReleasedOnce [.malloc (2 * i), .free (2 * i), .free (2 * i)] := by
  intro hreleased
  have hkey := hreleased (2 * i)
  simp [eventsOn, BufferEvent.handle] at hkey

/-- So is the value. -/
theorem not_releasedOnce_value :
    ¬ReleasedOnce [.malloc (2 * i), .malloc (2 * i + 1), .free (2 * i + 1), .free (2 * i),
      .free (2 * i + 1)] := by
  intro hreleased
  have hvalue := hreleased (2 * i + 1)
  simp [eventsOn, BufferEvent.handle] at hvalue

/-- The buffers of a round follow from how its record is read. -/
theorem recordBuffers_spec (chance : LoadChance) (bytes : List Byte) :
    RoundBuffers i (readRecord chance i bytes) (recordBuffers chance i bytes) := by
  have hnone : OnRound i [] := by simp [OnRound]
  unfold readRecord recordBuffers
  cases rdbReadInt bytes with
  | none => exact .stop hnone releasedOnce_nil
  | some result =>
      obtain ⟨tag, rest⟩ := result
      by_cases htag : tag = -1
      · simp only [if_pos htag]
        exact .stop hnone releasedOnce_nil
      simp only [if_neg htag, readString_eq]
      cases rdbReadString (chance.strings (2 * i)) rest with
      | untouched => exact .stop hnone releasedOnce_nil
      | released =>
          have hround : OnRound i [.malloc (2 * i), .free (2 * i), .free (2 * i)] := by
            simp [OnRound, BufferEvent.handle]
          exact .torn hround (not_releasedOnce_key i)
      | text key rest =>
          simp only [callOf]
          cases rdbReadString (chance.strings (2 * i + 1)) rest with
          | untouched =>
              have hround : OnRound i [.malloc (2 * i), .free (2 * i)] := by
                simp [OnRound, BufferEvent.handle]
              exact .stop hround (releasedOnce_key i)
          | released =>
              have hround : OnRound i [.malloc (2 * i), .malloc (2 * i + 1), .free (2 * i + 1),
                  .free (2 * i), .free (2 * i + 1)] := by
                simp [OnRound, BufferEvent.handle]
                omega
              exact .torn hround (not_releasedOnce_value i)
          | text value rest =>
              have hround : OnRound i [.malloc (2 * i), .malloc (2 * i + 1), .free (2 * i),
                  .free (2 * i + 1)] := by
                simp [OnRound, BufferEvent.handle]
                omega
              exact .record hround (releasedOnce_both i)

end Rounds

/-! ## Whole loads -/

section Loads

variable {chance : LoadChance} {records : List Wire} {bytes tail : List Byte}

/-- The rounds from the `i`-th on use later handles. -/
theorem loopBuffers_handle (chance : LoadChance) (fuel i : ℕ) (bytes : List Byte) :
    ∀ event ∈ loopBuffers chance fuel i bytes, 2 * i ≤ event.handle := by
  induction fuel generalizing i bytes with
  | zero => simp [loopBuffers]
  | succ fuel ih =>
      intro event hevent
      have hround := recordBuffers_spec i chance bytes
      rw [loopBuffers] at hevent
      generalize readRecord chance i bytes = read at hround
      generalize recordBuffers chance i bytes = buffers at hround hevent
      cases hround with
      | stop hround _ => exact (hround event hevent).1
      | torn hround _ => exact (hround event hevent).1
      | record hround _ =>
          rcases mem_append.1 hevent with hnow | hlater
          · exact (hround event hnow).1
          · have hle := ih (i + 1) _ event hlater
            omega

/-- The strings of a round and those of the rounds behind it. -/
theorem strings_succ_iff (chance : LoadChance) (i rounds : ℕ) :
    (∀ j < 2 * (rounds + 1), chance.strings (2 * i + j) = true) ↔
      (chance.strings (2 * i) && chance.strings (2 * i + 1)) = true ∧
        ∀ j < 2 * rounds, chance.strings (2 * (i + 1) + j) = true := by
  constructor
  · intro hall
    refine ⟨Bool.and_eq_true_iff.2 ⟨hall 0 (by omega), hall 1 (by omega)⟩, fun j hj => ?_⟩
    have hlater := hall (j + 2) (by omega)
    rwa [show 2 * i + (j + 2) = 2 * (i + 1) + j by omega] at hlater
  · rintro ⟨hround, hlater⟩ j hj
    obtain ⟨hkey, hvalue⟩ := Bool.and_eq_true_iff.1 hround
    match j with
    | 0 => exact hkey
    | 1 => exact hvalue
    | j + 2 =>
        rw [show 2 * i + (j + 2) = 2 * (i + 1) + j by omega]
        exact hlater j (by omega)

/-- The loop releases every buffer once unless it comes, with memory for all strings
before, to a torn record. -/
theorem loopBuffers_releasedOnce_iff (chance : LoadChance)
    (hlongest : Longest Wire.bytes Wire.WellFormed bytes records tail) {fuel : ℕ}
    (hfuel : bytes.length < fuel) (i : ℕ) :
    ReleasedOnce (loopBuffers chance fuel i bytes) ↔
      ((∀ j < 2 * records.length, chance.strings (2 * i + j) = true) →
        ¬Torn (chance.strings (2 * (i + records.length)))
          (chance.strings (2 * (i + records.length) + 1)) tail) := by
  induction records generalizing bytes fuel i with
  | nil =>
      obtain ⟨rfl, hstuck⟩ := longest_nil_iff.1 hlongest
      obtain ⟨fuel, rfl⟩ := Nat.exists_eq_succ_of_ne_zero (Nat.ne_zero_of_lt hfuel)
      have hround := recordBuffers_spec i chance tail
      rw [loopBuffers]
      by_cases htorn : Torn (chance.strings (2 * i)) (chance.strings (2 * i + 1)) tail
      · rw [readRecord_eq_doubleFree_iff.2 htorn] at hround
        generalize recordBuffers chance i tail = buffers at hround
        cases hround with
        | torn _ htwice => simp [htwice, htorn]
      · rw [readRecord_stuck hstuck htorn] at hround
        generalize recordBuffers chance i tail = buffers at hround
        cases hround with
        | stop _ hreleased => simp [hreleased, htorn]
  | cons record records ih =>
      obtain ⟨hrecord, rest, rfl, hrest⟩ := longest_cons_iff.1 hlongest
      obtain ⟨fuel, rfl⟩ := Nat.exists_eq_succ_of_ne_zero (Nat.ne_zero_of_lt hfuel)
      have hshorter := Wire.rest_length_lt hfuel
      have hround := recordBuffers_spec i chance (record.bytes ++ rest)
      rw [readRecord_wire chance i hrecord rest] at hround
      rw [loopBuffers]
      generalize recordBuffers chance i (record.bytes ++ rest) = buffers at hround
      by_cases hmemory : (chance.strings (2 * i) && chance.strings (2 * i + 1)) = true
      · rw [if_pos hmemory] at hround
        cases hround with
        | record hround hreleased =>
            rw [releasedOnce_append_iff (fun event hevent => (hround event hevent).2)
              (loopBuffers_handle chance fuel (i + 1) rest), and_iff_right hreleased,
              ih hrest hshorter (i + 1), length_cons, strings_succ_iff, and_iff_right hmemory,
              show i + 1 + records.length = i + (records.length + 1) by omega]
      · rw [if_neg hmemory] at hround
        cases hround with
        | stop _ hreleased =>
            refine iff_of_true hreleased fun hall => ?_
            rw [length_cons, strings_succ_iff] at hall
            exact absurd hall.1 hmemory

/-- A load that has a result has released its buffers. -/
theorem loopBuffers_of_loadLoop {fuel i : ℕ} {engines : Engines} {count : ℤ}
    (hload : (loadLoop chance fuel i bytes engines count).isSome) :
    ReleasedOnce (loopBuffers chance fuel i bytes) := by
  induction fuel generalizing i bytes engines count with
  | zero => simp [loadLoop] at hload
  | succ fuel ih =>
      have hround := recordBuffers_spec i chance bytes
      rw [loadLoop] at hload
      rw [loopBuffers]
      generalize readRecord chance i bytes = read at hround hload
      generalize recordBuffers chance i bytes = buffers at hround
      cases hround with
      | stop _ hreleased => exact hreleased
      | torn _ _ => simp at hload
      | record hround hreleased =>
          refine (releasedOnce_append_iff (fun event hevent => (hround event hevent).2)
            (loopBuffers_handle chance fuel (i + 1) _)).2 ⟨hreleased, ?_⟩
          simp only at hload
          split at hload
          · exact ih hload
          · obtain ⟨result, hresult⟩ := Option.isSome_iff_exists.1 hload
            obtain ⟨⟨after, code⟩, -, hlater⟩ := Option.bind_eq_some_iff.1 hresult
            exact ih (Option.isSome_iff_exists.2 ⟨result, hlater⟩)

end Loads

/-- Every buffer of a load is obtained once and released once, except when the load comes
to a string that is cut short in a buffer it could allocate; a load that has a result has
released all its buffers. -/
theorem buffers_released_once_iff (chance : LoadChance) (file : List Byte) :
    (ReleasedOnce (loadBuffers chance file) ↔ ∀ body records tail, Headed file body →
      Longest Wire.bytes Wire.WellFormed body records tail →
      (∀ j < 2 * records.length, chance.strings j = true) →
      ¬Torn (chance.strings (2 * records.length)) (chance.strings (2 * records.length + 1))
        tail) ∧
    ∀ engines, (rdbLoad chance (some file) engines).isSome →
      ReleasedOnce (loadBuffers chance file) := by
  cases hheader : rdbLoadHeader file with
  | none =>
      have hreleased : ReleasedOnce (loadBuffers chance file) := by
        simp only [loadBuffers, hheader]
        exact releasedOnce_nil
      refine ⟨iff_of_true hreleased fun body records tail hheaded => ?_, fun _ _ => hreleased⟩
      rw [rdbLoadHeader_eq_some_iff.2 hheaded] at hheader
      cases hheader
  | some body =>
      have hbuffers : loadBuffers chance file =
          loopBuffers chance (body.length + 1) 0 body := by
        simp only [loadBuffers, hheader]
      rw [hbuffers]
      refine ⟨?_, fun engines hload => ?_⟩
      · have hdecide : ∀ records tail, Longest Wire.bytes Wire.WellFormed body records tail →
            (ReleasedOnce (loopBuffers chance (body.length + 1) 0 body) ↔
              ((∀ j < 2 * records.length, chance.strings j = true) →
                ¬Torn (chance.strings (2 * records.length))
                  (chance.strings (2 * records.length + 1)) tail)) := by
          intro records tail hlongest
          have hiff := loopBuffers_releasedOnce_iff chance hlongest (Nat.lt_succ_self _) 0
          simpa using hiff
        constructor
        · intro hreleased other records tail hheaded hlongest
          rw [rdbLoadHeader_eq_some_iff.2 hheaded, Option.some.injEq] at hheader
          subst hheader
          exact (hdecide records tail hlongest).1 hreleased
        · intro hall
          obtain ⟨records, tail, hlongest⟩ :=
            reads_wire.exists_longest (fun record _ => record.bytes_ne_nil) body
          exact (hdecide records tail hlongest).2
            (hall body records tail (rdbLoadHeader_eq_some_iff.1 hheader) hlongest)
      · simp only [rdbLoad, hheader] at hload
        exact loopBuffers_of_loadLoop hload

/-- A file that is cut inside its first key. -/
def cutKey : List Byte :=
  headerBytes 0 ++ (intBytes 0 ++ (intBytes 5 ++ [97, 98]))

/-- The buffer of the key is released by both functions. -/
theorem cut_key_released_twice :
    loadBuffers LoadChance.quiet cutKey = [.malloc 0, .free 0, .free 0] ∧
      ¬ReleasedOnce (loadBuffers LoadChance.quiet cutKey) := by
  have hbuffers : loadBuffers LoadChance.quiet cutKey = [.malloc 0, .free 0, .free 0] := by
    decide +kernel
  refine ⟨hbuffers, ?_⟩
  rw [hbuffers]
  exact not_releasedOnce_key 0

end LiteMultiKV.Persist
