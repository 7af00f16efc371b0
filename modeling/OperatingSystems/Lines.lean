import Mathlib.Data.List.Basic

/-!
# Lines of a text

A line ends with a newline or with the text. A reader with a buffer of limited
size cuts a text into pieces: a piece ends with a newline, with the text, or
where the buffer is full. The characters and the newline are parameters.
-/

namespace OperatingSystems.Lines

variable {α : Type}

/-- The first piece of a text for a buffer of this size. -/
def piece [DecidableEq α] (newline : α) : Nat → List α → List α
  | 0, _ => []
  | _, [] => []
  | most + 1, c :: rest => if c = newline then [c] else c :: piece newline most rest

/-- Reading the text in pieces meets the line with this content as a piece of
its own: it stands at the start of the text or after a newline, or after so many
characters of its line that they fill the buffer exactly some times. -/
def Meets (newline : α) (most : Nat) (mark text : List α) : Prop :=
  ∃ before full after, text = before ++ (full ++ (mark ++ newline :: after)) ∧
    (before = [] ∨ ∃ front, before = front ++ [newline]) ∧ newline ∉ full ∧ most ∣ full.length

variable {newline : α} {most : Nat} {mark text front rest other after : List α}

/-- A text without newlines that starts a text starts its first line. -/
theorem before_newline (clean : newline ∉ front) (same : front ++ rest = other ++ newline :: after) :
    ∃ between, other = front ++ between ∧ rest = between ++ newline :: after := by
  rcases List.append_eq_append_iff.mp same with ⟨between, rfl, rfl⟩ | ⟨between, rfl, tail⟩
  · exact ⟨between, rfl, rfl⟩
  · cases between with
    | nil => exact ⟨[], by simp, by simpa using tail.symm⟩
    | cons c between =>
      obtain rfl := (List.cons.inj tail).1
      simp at clean

/-- After a whole line the same lines are met, if it was not one of them. -/
theorem Meets.after_line (clean : newline ∉ mark) (first : newline ∉ front) (fits : front.length < most)
    (meets : Meets newline most mark (front ++ newline :: rest)) :
    front = mark ∨ Meets newline most mark rest := by
  obtain ⟨before, full, after, same, start, inside, filled⟩ := meets
  rcases start with rfl | ⟨ahead, rfl⟩
  · left
    rw [List.nil_append, ← List.append_assoc] at same
    have both : newline ∉ full ++ mark := by simp [inside, clean]
    obtain ⟨between, whole, tail⟩ := before_newline first same
    obtain rfl : between = [] := by
      cases between with
      | nil => rfl
      | cons c between =>
        obtain rfl := (List.cons.inj tail).1
        simp [whole] at both
    rw [List.append_nil] at whole
    subst whole
    have none : full.length = 0 := by
      apply Nat.eq_zero_of_dvd_of_lt filled
      rw [List.length_append] at fits
      omega
    rw [List.eq_nil_of_length_eq_zero none, List.nil_append]
  · right
    rw [List.append_assoc, List.singleton_append] at same
    obtain ⟨between, rfl, tail⟩ := before_newline first same
    cases between with
    | nil =>
      obtain ⟨-, rfl⟩ := List.cons.inj tail
      exact ⟨[], full, after, rfl, Or.inl rfl, inside, filled⟩
    | cons c between =>
      obtain ⟨-, rfl⟩ := List.cons.inj tail
      exact ⟨between ++ [newline], full, after, by simp, Or.inr ⟨between, rfl⟩, inside, filled⟩

/-- After characters that fill the buffer the same lines are met. -/
theorem Meets.after_full (room : mark.length < most) (first : newline ∉ front)
    (full : front.length = most) (meets : Meets newline most mark (front ++ rest)) :
    Meets newline most mark rest := by
  obtain ⟨before, filling, after, same, start, inside, filled⟩ := meets
  rcases start with rfl | ⟨ahead, rfl⟩
  · rw [List.nil_append, ← List.append_assoc] at same
    obtain ⟨between, split, rfl⟩ := before_newline first same
    have lengths := congrArg List.length split
    simp only [List.length_append] at lengths
    have enough : front.length ≤ filling.length :=
      full.symm ▸ Nat.le_of_dvd (by omega) filled
    obtain ⟨more, rfl, rfl⟩ : ∃ more, filling = front ++ more ∧ between = more ++ mark := by
      rcases List.append_eq_append_iff.mp split with ⟨none, isFront, isMark⟩ | more
      · have : none = [] := List.eq_nil_of_length_eq_zero (by
          have := congrArg List.length isFront
          rw [List.length_append] at this
          omega)
        subst this
        exact ⟨[], by simpa using isFront.symm, by simpa using isMark.symm⟩
      · exact more
    refine ⟨[], more, after, by simp, Or.inl rfl, fun member => inside (by simp [member]), ?_⟩
    rw [List.length_append, full] at filled
    exact (Nat.dvd_add_right (Nat.dvd_refl most)).mp filled
  · rw [List.append_assoc, List.singleton_append] at same
    obtain ⟨between, rfl, rfl⟩ := before_newline first same
    exact ⟨between ++ [newline], filling, after, by simp, Or.inr ⟨between, rfl⟩, inside, filled⟩

/-- What is met after a whole line is met before it. -/
theorem Meets.before_line (meets : Meets newline most mark rest) :
    Meets newline most mark (front ++ newline :: rest) := by
  obtain ⟨before, full, after, rfl, start, inside, filled⟩ := meets
  refine ⟨front ++ newline :: before, full, after, by simp, Or.inr ?_, inside, filled⟩
  rcases start with rfl | ⟨ahead, rfl⟩
  · exact ⟨front, rfl⟩
  · exact ⟨front ++ newline :: ahead, by simp⟩

/-- What is met after characters that fill the buffer is met before them. -/
theorem Meets.before_full (first : newline ∉ front) (full : front.length = most)
    (meets : Meets newline most mark rest) : Meets newline most mark (front ++ rest) := by
  obtain ⟨before, filling, after, rfl, start, inside, filled⟩ := meets
  rcases start with rfl | ⟨ahead, rfl⟩
  · refine ⟨[], front ++ filling, after, by simp, Or.inl rfl, by simp [first, inside], ?_⟩
    rw [List.length_append, full]
    exact (Nat.dvd_add_right (Nat.dvd_refl most)).mpr filled
  · exact ⟨front ++ (ahead ++ [newline]), filling, after, by simp, Or.inr ⟨front ++ ahead, by simp⟩, inside,
      filled⟩

section Pieces

variable [DecidableEq α]

/-- A line that fits into the buffer is the first piece. -/
theorem piece_line (clean : newline ∉ front) (fits : front.length < most) :
    piece newline most (front ++ newline :: rest) = front ++ [newline] := by
  induction front generalizing most with
  | nil =>
    cases most with
    | zero => simp at fits
    | succ most => simp [piece]
  | cons c front inductionHypothesis =>
    cases most with
    | zero => simp at fits
    | succ most =>
      simp only [List.mem_cons, not_or] at clean
      simp only [List.length_cons, Nat.add_lt_add_iff_right] at fits
      simp [piece, Ne.symm clean.1, inductionHypothesis clean.2 fits]

/-- A piece ends with a newline, or where the buffer is full, or with the text. -/
theorem piece_cases (newline : α) (most : Nat) (text : List α) :
    (∃ front rest, text = front ++ newline :: rest ∧ newline ∉ front ∧ front.length < most ∧
        piece newline most text = front ++ [newline]) ∨
      (∃ front rest, text = front ++ rest ∧ newline ∉ front ∧ front.length = most ∧
        piece newline most text = front) ∨
      newline ∉ text ∧ text.length < most ∧ piece newline most text = text := by
  induction most generalizing text with
  | zero => exact Or.inr (Or.inl ⟨[], text, rfl, by simp, rfl, by simp [piece]⟩)
  | succ most inductionHypothesis =>
    cases text with
    | nil => exact Or.inr (Or.inr ⟨by simp, by simp, by simp [piece]⟩)
    | cons c text =>
      by_cases ends : c = newline
      · exact Or.inl ⟨[], text, by simp [ends], by simp, by simp, by simp [piece, ends]⟩
      · rcases inductionHypothesis text with ⟨front, rest, rfl, clean, fits, same⟩ |
          ⟨front, rest, rfl, clean, full, same⟩ | ⟨clean, fits, same⟩
        · exact Or.inl ⟨c :: front, rest, rfl, by simp [clean, Ne.symm ends], by simpa using fits,
            by simp [piece, ends, same]⟩
        · exact Or.inr (Or.inl ⟨c :: front, rest, rfl, by simp [clean, Ne.symm ends], by simpa using full,
            by simp [piece, ends, same]⟩)
        · exact Or.inr (Or.inr ⟨by simp [clean, Ne.symm ends], by simpa using fits,
            by simp [piece, ends, same]⟩)

/-- A piece fits into the buffer. -/
theorem length_piece_le (newline : α) (most : Nat) (text : List α) : (piece newline most text).length ≤ most := by
  rcases piece_cases newline most text with ⟨front, rest, _, _, fits, same⟩ | ⟨front, rest, _, _, full, same⟩ |
    ⟨_, fits, same⟩
  · rw [same, List.length_append, List.length_singleton]
    exact fits
  · rw [same]
    exact Nat.le_of_eq full
  · rw [same]
    exact Nat.le_of_lt fits

/-- Behind the first piece the text goes on. -/
theorem piece_append_drop (newline : α) (most : Nat) (text : List α) :
    piece newline most text ++ text.drop (piece newline most text).length = text := by
  rcases piece_cases newline most text with ⟨front, rest, rfl, _, _, same⟩ | ⟨front, rest, rfl, _, _, same⟩ |
    ⟨_, _, same⟩
  · rw [same, List.append_cons front newline rest, List.drop_left]
  · rw [same, List.drop_left]
  · rw [same, List.drop_length, List.append_nil]

/-- Some of a text that has not ended is read. -/
theorem piece_ne_nil (positive : 0 < most) (more : text ≠ []) : piece newline most text ≠ [] := by
  obtain ⟨c, text, rfl⟩ := List.exists_cons_of_ne_nil more
  obtain ⟨most, rfl⟩ := Nat.exists_eq_succ_of_ne_zero (Nat.ne_of_gt positive)
  unfold piece
  split <;> simp

/-- Reading on after the first piece meets the same lines, except for one that
was this piece. -/
theorem meets_iff (clean : newline ∉ mark) (room : mark.length < most) :
    Meets newline most mark text ↔ piece newline most text = mark ++ [newline] ∨
      Meets newline most mark (text.drop (piece newline most text).length) := by
  rcases piece_cases newline most text with ⟨front, rest, rfl, first, fits, same⟩ |
    ⟨front, rest, rfl, first, full, same⟩ | ⟨none, _, same⟩
  · rw [same]
    have remains : (front ++ newline :: rest).drop (front ++ [newline]).length = rest := by
      rw [List.append_cons front newline rest, List.drop_left]
    rw [remains, List.append_cancel_right_eq]
    constructor
    · exact Meets.after_line clean first fits
    · rintro (rfl | meets)
      · exact ⟨[], [], rest, rfl, Or.inl rfl, by simp, by simp⟩
      · exact meets.before_line
  · rw [same, List.drop_left]
    constructor
    · exact fun meets => Or.inr (meets.after_full room first full)
    · rintro (rfl | meets)
      · simp at first
      · exact meets.before_full first full
  · rw [same, List.drop_length]
    constructor
    · rintro ⟨before, full, after, rfl, _⟩
      simp at none
    · rintro (rfl | ⟨before, full, after, empty, _⟩)
      · simp at none
      · simp at empty

end Pieces

section Whole

variable [DecidableEq α]

/-- The lines of a text, each with the newline that ends it. -/
def lines (newline : α) : List α → List (List α)
  | [] => []
  | c :: text =>
    if c = newline then [c] :: lines newline text
    else
      match lines newline text with
      | [] => [[c]]
      | line :: rest => (c :: line) :: rest

/-- The last lines of a text, or all of it if it has no more. -/
def lastLines (newline : α) (count : Nat) (text : List α) : List α :=
  ((lines newline text).drop ((lines newline text).length - count)).flatten

theorem flatten_lines (newline : α) (text : List α) : (lines newline text).flatten = text := by
  induction text with
  | nil => rfl
  | cons c text inductionHypothesis =>
    unfold lines
    split
    · simp [inductionHypothesis]
    · split
      next none => simpa [none] using inductionHypothesis
      next line rest split => simpa [split] using inductionHypothesis

/-- The lines up to a newline and those behind it. -/
theorem lines_append (newline : α) (front back : List α) :
    lines newline (front ++ newline :: back) = lines newline (front ++ [newline]) ++ lines newline back := by
  induction front with
  | nil => simp [lines]
  | cons c front inductionHypothesis =>
    by_cases ends : c = newline
    · simp [lines, ends, inductionHypothesis]
    · have some : lines newline (front ++ [newline]) ≠ [] := fun none => by
        have whole := flatten_lines newline (front ++ [newline])
        simp [none] at whole
      obtain ⟨line, rest, split⟩ := List.exists_cons_of_ne_nil some
      simp [lines, ends, inductionHypothesis, split]

/-- A line starts at the start of a text and behind every newline but the last character. -/
theorem length_lines (newline : α) {text : List α} (some : text ≠ []) :
    (lines newline text).length = text.dropLast.count newline + 1 := by
  induction text with
  | nil => exact absurd rfl some
  | cons c text inductionHypothesis =>
    by_cases more : text = []
    · subst more
      by_cases ends : c = newline <;> simp [lines, ends]
    · have rest := inductionHypothesis more
      rw [List.dropLast_cons_of_ne_nil more, List.count_cons]
      by_cases ends : c = newline
      · simp [lines, ends, rest]
      · obtain ⟨line, other, split⟩ : ∃ line other, lines newline text = line :: other := by
          refine List.exists_cons_of_ne_nil fun none => ?_
          simp [none] at rest
        rw [split] at rest
        simpa [lines, ends, split] using rest

theorem length_lines_le (newline : α) (text : List α) :
    (lines newline text).length ≤ text.dropLast.count newline + 1 := by
  by_cases none : text = []
  · simp [none, lines]
  · exact Nat.le_of_eq (length_lines newline none)

/-- The first character starts no further line unless it is a newline. -/
theorem length_lines_tail (inner : text.head? ≠ some newline) :
    (lines newline text).length ≤ (text.drop 1).dropLast.count newline + 1 := by
  cases text with
  | nil => exact Nat.zero_le _
  | cons c rest =>
    by_cases none : rest = []
    · subst none
      exact length_lines_le newline [c]
    · have other : c ≠ newline := by simpa using inner
      have whole := length_lines_le newline (c :: rest)
      rwa [List.dropLast_cons_of_ne_nil none, List.count_cons_of_ne other] at whole

/-- A newline is a line of its own before the others. -/
theorem lines_newline (newline : α) (text : List α) :
    lines newline (newline :: text) = [newline] :: lines newline text := if_pos rfl

/-- A text with no more lines is its last lines. -/
theorem lastLines_all {count : Nat} (few : (lines newline text).length ≤ count) :
    lastLines newline count text = text := by
  rw [lastLines, Nat.sub_eq_zero_of_le few, List.drop_zero, flatten_lines]

/-- What stands behind a newline is as many of the last lines as it has lines. -/
theorem lastLines_behind (newline : α) (front back : List α) :
    lastLines newline (lines newline back).length (front ++ newline :: back) = back := by
  rw [lastLines, lines_append, List.length_append, Nat.add_sub_cancel, List.drop_left, flatten_lines]

end Whole

end OperatingSystems.Lines
