import Mathlib

/-!
# Segments of a stream

A stream over an alphabet with spaces can be cut into segments in many ways.
What is visible of a segment are its letters that are not spaces, and trimming
takes the spaces off its ends.  The main result compares two ways to cut one
stream: if the segments that are not all space show the same letters one by
one, then they are the same up to spaces at their ends.
-/

namespace LiteMultiKV.Segments

open List

variable {α : Type*} (space : α → Bool)

/-- The segment has a letter that is not a space. -/
def filled (segment : List α) : Bool :=
  segment.any fun letter => !space letter

/-- The letters that are not spaces. -/
def visible (segment : List α) : List α :=
  segment.filter fun letter => !space letter

/-- The segment without the spaces at its ends. -/
def trim (segment : List α) : List α :=
  (segment.dropWhile space).rdropWhile space

/-- The pieces between spaces. -/
def words (segment : List α) : List (List α) :=
  (segment.splitOnP space).filter fun word => !word.isEmpty

variable {space} {segment more : List α}

theorem filled_eq_false_iff : filled space segment = false ↔ ∀ letter ∈ segment, space letter := by
  simp [filled]

theorem visible_append : visible space (segment ++ more) =
    visible space segment ++ visible space more :=
  filter_append ..

theorem visible_eq_nil_iff : visible space segment = [] ↔ ∀ letter ∈ segment, space letter := by
  simp [visible]

theorem visible_flatten (segments : List (List α)) :
    visible space segments.flatten = (segments.map (visible space)).flatten := by
  induction segments with
  | nil => rfl
  | cons segment segments ih => rw [flatten_cons, visible_append, ih, map_cons, flatten_cons]

/-- Segments that are all space show nothing. -/
theorem flatten_visible_filled (segments : List (List α)) :
    ((segments.filter (filled space)).map (visible space)).flatten =
      visible space segments.flatten := by
  rw [visible_flatten]
  induction segments with
  | nil => rfl
  | cons segment segments ih =>
      cases hfilled : filled space segment with
      | true =>
          rw [filter_cons_of_pos hfilled, map_cons, map_cons, flatten_cons, flatten_cons, ih]
      | false =>
          rw [filter_cons_of_neg (by simp [hfilled]), map_cons, flatten_cons, ih,
            visible_eq_nil_iff.2 (filled_eq_false_iff.1 hfilled), nil_append]

/-! ## Words -/

theorem splitOnP_cons_letter {letter : α} (hletter : space letter = false) (segment : List α) :
    ∃ word rest, segment.splitOnP space = word :: rest ∧
      (letter :: segment).splitOnP space = (letter :: word) :: rest := by
  obtain ⟨word, rest, hsplit⟩ := exists_cons_of_ne_nil (splitOnP_ne_nil space segment)
  refine ⟨word, rest, hsplit, ?_⟩
  rw [splitOnP_cons_eq_if_modifyHead, if_neg (by simp [hletter]), hsplit, modifyHead_cons]

theorem splitOnP_cons_space {letter : α} (hletter : space letter = true) (segment : List α) :
    (letter :: segment).splitOnP space = [] :: segment.splitOnP space := by
  rw [splitOnP_cons_eq_if_modifyHead, if_pos hletter]

theorem mem_of_mem_splitOnP {word : List α} (hword : word ∈ segment.splitOnP space) :
    ∀ letter ∈ word, letter ∈ segment ∧ space letter = false := by
  induction segment generalizing word with
  | nil =>
      obtain rfl : word = [] := by simpa using hword
      simp
  | cons first segment ih =>
      have hlift : ∀ {word : List α}, word ∈ segment.splitOnP space → ∀ letter ∈ word,
          letter ∈ first :: segment ∧ space letter = false := fun hword letter hletter =>
        ⟨mem_cons_of_mem _ (ih hword letter hletter).1, (ih hword letter hletter).2⟩
      cases hfirst : space first with
      | true =>
          rw [splitOnP_cons_space hfirst] at hword
          rcases mem_cons.1 hword with rfl | hword
          · simp
          · exact hlift hword
      | false =>
          obtain ⟨start, rest, hsplit, hgrown⟩ := splitOnP_cons_letter hfirst segment
          rw [hsplit] at hlift
          rw [hgrown] at hword
          rcases mem_cons.1 hword with rfl | hword
          · intro letter hletter
            rcases mem_cons.1 hletter with rfl | hletter
            · exact ⟨mem_cons_self, hfirst⟩
            · exact hlift mem_cons_self letter hletter
          · exact hlift (mem_cons_of_mem _ hword)

/-- The words hold what is visible. -/
theorem flatten_words (segment : List α) :
    (words space segment).flatten = visible space segment := by
  have hsplit : (segment.splitOnP space).flatten = visible space segment := by
    induction segment with
    | nil => rfl
    | cons first segment ih =>
        cases hfirst : space first with
        | true =>
            rw [splitOnP_cons_space hfirst, flatten_cons, ih]
            simp [visible, hfirst]
        | false =>
            obtain ⟨start, rest, hsplit, hgrown⟩ := splitOnP_cons_letter hfirst segment
            rw [hsplit, flatten_cons] at ih
            rw [hgrown, flatten_cons, cons_append, ih]
            simp [visible, hfirst]
  rw [words, ← hsplit]
  exact flatten_filter_not_isEmpty

theorem words_eq_nil_iff : words space segment = [] ↔ filled space segment = false := by
  rw [filled_eq_false_iff, ← visible_eq_nil_iff, ← flatten_words]
  constructor
  · intro hnil
    rw [hnil]
    rfl
  · intro hflat
    rw [eq_nil_iff_forall_not_mem]
    intro word hword
    have hempty := flatten_eq_nil_iff.1 hflat word hword
    simpa [hempty] using (mem_filter.1 hword).2

/-! ## Trimming -/

theorem rdropWhile_append_spaces (hmore : ∀ letter ∈ more, space letter) (segment : List α) :
    (segment ++ more).rdropWhile space = segment.rdropWhile space := by
  induction more using reverseRecOn with
  | nil => rw [append_nil]
  | append_singleton more letter ih =>
      rw [← append_assoc, rdropWhile_concat_pos _ _ _ (hmore letter mem_concat_self)]
      exact ih fun other hother => hmore other (mem_append_left _ hother)

theorem dropWhile_append_spaces (hmore : ∀ letter ∈ more, space letter) (segment : List α) :
    (more ++ segment).dropWhile space = segment.dropWhile space :=
  dropWhile_append_of_pos hmore

theorem dropWhile_append_filled (hfilled : filled space segment = true) (more : List α) :
    (segment ++ more).dropWhile space = segment.dropWhile space ++ more := by
  have hne : segment.dropWhile space ≠ [] := by
    rw [Ne, dropWhile_eq_nil_iff, ← filled_eq_false_iff, hfilled]
    simp
  rw [dropWhile_append, if_neg (by simpa using hne)]

theorem visible_dropWhile (segment : List α) :
    visible space (segment.dropWhile space) = visible space segment := by
  have hsplit := takeWhile_append_dropWhile (p := space) (l := segment)
  have hspaces : visible space (segment.takeWhile space) = [] :=
    visible_eq_nil_iff.2 fun letter hletter => mem_takeWhile_imp hletter
  conv_rhs => rw [← hsplit, visible_append, hspaces, nil_append]

/-- Two starts of one text that show the same end at the same letter. -/
theorem same_end {left right leftRest rightRest : List α}
    (htext : left ++ leftRest = right ++ rightRest)
    (hvisible : visible space left = visible space right) :
    left.rdropWhile space = right.rdropWhile space ∧
      leftRest.dropWhile space = rightRest.dropWhile space := by
  rcases append_eq_append_iff.1 htext with ⟨middle, rfl, rfl⟩ | ⟨middle, rfl, rfl⟩
  · rw [visible_append] at hvisible
    have hspaces := visible_eq_nil_iff.1 (self_eq_append_right.1 hvisible)
    exact ⟨(rdropWhile_append_spaces hspaces left).symm, dropWhile_append_spaces hspaces _⟩
  · rw [visible_append] at hvisible
    have hspaces := visible_eq_nil_iff.1 (append_right_eq_self.1 hvisible)
    exact ⟨rdropWhile_append_spaces hspaces right, (dropWhile_append_spaces hspaces _).symm⟩

/-- If two ways to cut a stream show the same, segment by segment, they differ by spaces at
the ends of the segments. -/
theorem forall₂_trim {left right : List (List α)}
    (hstream : left.flatten.dropWhile space = right.flatten.dropWhile space)
    (hvisible : Forall₂ (fun one other => visible space one = visible space other)
      (left.filter (filled space)) (right.filter (filled space))) :
    Forall₂ (fun one other => trim space one = trim space other)
      (left.filter (filled space)) (right.filter (filled space)) := by
  induction left generalizing right with
  | nil =>
      rw [filter_nil, forall₂_nil_left_iff] at hvisible
      rw [filter_nil, hvisible]
      exact .nil
  | cons one left ih =>
      cases hone : filled space one with
      | false =>
          rw [filter_cons_of_neg (by simp [hone])] at hvisible ⊢
          rw [flatten_cons, dropWhile_append_spaces (filled_eq_false_iff.1 hone)] at hstream
          exact ih hstream hvisible
      | true =>
          rw [filter_cons_of_pos hone] at hvisible ⊢
          -- the segments of the other cut that are all space are skipped
          induction right with
          | nil => cases hvisible
          | cons other right ihRight =>
              cases hother : filled space other with
              | false =>
                  rw [filter_cons_of_neg (by simp [hother])] at hvisible ⊢
                  rw [flatten_cons (l := other), dropWhile_append_spaces
                    (filled_eq_false_iff.1 hother)] at hstream
                  exact ihRight hstream hvisible
              | true =>
                  rw [filter_cons_of_pos hother] at hvisible ⊢
                  obtain ⟨hsame, hrest⟩ := forall₂_cons.1 hvisible
                  rw [flatten_cons, flatten_cons, dropWhile_append_filled hone,
                    dropWhile_append_filled hother] at hstream
                  obtain ⟨htrim, hdrop⟩ := same_end hstream
                    (by rw [visible_dropWhile, visible_dropWhile, hsame])
                  exact .cons htrim (ih hdrop hrest)

end LiteMultiKV.Segments
