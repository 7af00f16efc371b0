import Mathlib

/-!
# Texts

A text is a list of characters. C strings, C++ strings and the contents of files
are texts; a byte is the character with its code. What is said of words holds
over every type of characters, some of which are blank.
-/

namespace OperatingSystems.Texts

/-- The contents of a string or a file. -/
abbrev Text := List Char

/-- What holds of every character of a text is checked along the text, not over all
characters there are. -/
instance (text : Text) (p : Char → Prop) [DecidablePred p] : Decidable (∀ c ∈ text, p c) :=
  List.decidableBAll p text

instance (text : Text) (p : Char → Prop) [DecidablePred p] : Decidable (∃ c ∈ text, p c) :=
  List.decidableBEx p text

instance decidableOption (c : Option Char) (p : Char → Prop) [DecidablePred p] : Decidable (∀ d ∈ c, p d) :=
  Option.decidableForallMem c

/-- `isspace`, in the C locale. -/
def isSpace (c : Char) : Bool := c ∈ [' ', '\n', '\r', '\t', '\x0c', '\x0b']

/-- The C string at the start of a buffer. -/
def cString (buffer : Text) : Text := buffer.takeWhile (· ≠ '\x00')

theorem cString_starts (buffer : Text) : cString buffer <+: buffer := List.takeWhile_prefix _

/-- What stands behind the terminator does not count. -/
theorem cString_terminated (text rest : Text) : cString (text ++ '\x00' :: rest) = cString text := by
  unfold cString
  induction text with
  | nil => simp
  | cons c text inductionHypothesis => simp only [List.cons_append, List.takeWhile_cons, inductionHypothesis]

theorem cString_eq {text : Text} (proper : '\x00' ∉ text) : cString text = text := by
  refine List.takeWhile_eq_self_iff.mpr fun c member => ?_
  exact decide_eq_true (ne_of_mem_of_not_mem member proper)

/-- Two neighbouring characters of a text in two parts stand in one of the parts,
or where the parts meet. -/
theorem pair_infix_append {α : Type} {a b : α} {front back : List α} : [a, b] <:+: front ++ back ↔
    [a, b] <:+: front ∨ [a, b] <:+: back ∨ front.getLast? = some a ∧ back.head? = some b := by
  constructor
  · rintro ⟨before, after, same⟩
    rw [List.append_assoc] at same
    rcases List.append_eq_append_iff.mp same with ⟨middle, rfl, split⟩ | ⟨middle, rfl, split⟩
    · match middle with
      | [] => exact Or.inr (Or.inl ⟨[], after, by simpa using split⟩)
      | [c] =>
        simp only [List.cons_append, List.nil_append, List.cons.injEq] at split
        exact Or.inr (Or.inr (by simp [split.1, ← split.2]))
      | c :: d :: rest =>
        simp only [List.cons_append, List.nil_append, List.cons.injEq] at split
        exact Or.inl ⟨before, rest, by simp [split.1, split.2.1]⟩
    · exact Or.inr (Or.inl ⟨middle, after, by simpa using split.symm⟩)
  · rintro (inFront | inBack | ⟨last, first⟩)
    · exact inFront.trans (List.prefix_append front back).isInfix
    · exact inBack.trans (List.suffix_append front back).isInfix
    · obtain ⟨ahead, rfl⟩ := List.getLast?_eq_some_iff.mp last
      obtain ⟨behind, rfl⟩ := List.head?_eq_some_iff.mp first
      exact ⟨ahead, behind, by simp⟩

section Words

variable {α : Type} {blank : α → Bool} {text word : List α} {c : α}

/-- The longest parts of a text without blanks. -/
def words (blank : α → Bool) (text : List α) : List (List α) :=
  (text.splitOnP blank).filter (· ≠ [])

/-- The words on both sides of a blank. -/
theorem words_append (isBlank : blank c = true) (front back : List α) :
    words blank (front ++ c :: back) = words blank front ++ words blank back := by
  unfold words
  rw [List.splitOnP_append_cons front back isBlank, List.filter_append]

@[simp] theorem words_nil : words blank ([] : List α) = [] := by simp [words]

/-- A word alone. -/
theorem words_word (nonempty : word ≠ []) (solid : ∀ c ∈ word, blank c = false) :
    words blank word = [word] := by
  unfold words
  rw [List.splitOnP_eq_singleton solid]
  simp [nonempty]

/-- Blanks contain no word. -/
theorem words_blank (all : ∀ c ∈ text, blank c = true) : words blank text = [] := by
  induction text with
  | nil => exact words_nil
  | cons c text inductionHypothesis =>
    have rest := inductionHypothesis fun d member => all d (List.mem_cons_of_mem _ member)
    simpa [rest] using words_append (all c List.mem_cons_self) [] text

/-- Blanks in front of a text change no word. -/
theorem words_blank_append {blanks : List α} (all : ∀ c ∈ blanks, blank c = true) :
    words blank (blanks ++ text) = words blank text := by
  induction blanks with
  | nil => rfl
  | cons c blanks inductionHypothesis =>
    have rest := inductionHypothesis fun d member => all d (List.mem_cons_of_mem _ member)
    simpa [rest] using words_append (all c List.mem_cons_self) [] (blanks ++ text)

/-- Blanks behind a text change no word. -/
theorem words_append_blank {blanks : List α} (all : ∀ c ∈ blanks, blank c = true) :
    words blank (text ++ blanks) = words blank text := by
  cases blanks with
  | nil => rw [List.append_nil]
  | cons c blanks =>
    have rest := words_blank fun d member => all d (List.mem_cons_of_mem c member)
    rw [words_append (all c List.mem_cons_self), rest, List.append_nil]

theorem words_rdropWhile (blank : α → Bool) (text : List α) :
    words blank (text.rdropWhile blank) = words blank text := by
  have dropped : ∀ c ∈ text.rtakeWhile blank, blank c = true := fun c => List.mem_rtakeWhile_imp
  rw [← words_append_blank dropped, List.rdropWhile_append_rtakeWhile]

/-- A word in front of some blanks. -/
theorem words_word_append {blanks : List α} (nonempty : word ≠ []) (solid : ∀ c ∈ word, blank c = false)
    (some : blanks ≠ []) (all : ∀ c ∈ blanks, blank c = true) :
    words blank (word ++ (blanks ++ text)) = word :: words blank text := by
  obtain ⟨c, more, rfl⟩ := List.exists_cons_of_ne_nil some
  rw [List.cons_append, words_append (all c List.mem_cons_self), words_word nonempty solid,
    words_blank_append fun d member => all d (List.mem_cons_of_mem _ member)]
  rfl

/-- A text that is not blank has a word. -/
theorem words_ne_nil (solid : ∃ c ∈ text, blank c = false) : words blank text ≠ [] := by
  induction text with
  | nil => simp at solid
  | cons c text inductionHypothesis =>
    by_cases isBlank : blank c = true
    · have later : ∃ d ∈ text, blank d = false := by simpa [isBlank] using solid
      rw [← List.nil_append (c :: text), words_append isBlank, words_nil, List.nil_append]
      exact inductionHypothesis later
    · -- The word that starts here ends at the next blank, or with the text.
      have whole := List.takeWhile_append_dropWhile (p := fun d => !blank d) (l := c :: text)
      have starts : (c :: text).takeWhile (fun d => !blank d) ≠ [] := by simp [isBlank]
      have word := words_word starts fun d member => by simpa using List.mem_takeWhile_imp member
      cases rest : (c :: text).dropWhile fun d => !blank d with
      | nil =>
        rw [rest, List.append_nil] at whole
        rw [← whole, word]
        exact List.cons_ne_nil _ _
      | cons d rest' =>
        have ends := List.head?_dropWhile_not (p := fun d => !blank d) (l := c :: text)
        rw [rest] at ends whole
        rw [← whole, words_append (by simpa using ends), word]
        exact List.cons_ne_nil _ _

/-- What a split leaves are parts of the text, the first one at its start. -/
theorem splitOnP_parts (blank : α → Bool) (text : List α) :
    ∃ first rest, text.splitOnP blank = first :: rest ∧ first <+: text ∧ ∀ part ∈ rest, part <:+: text := by
  induction text with
  | nil => exact ⟨[], [], by simp, List.prefix_rfl, by simp⟩
  | cons c text inductionHypothesis =>
    obtain ⟨first, rest, split, starts, parts⟩ := inductionHypothesis
    have later : ∀ part ∈ rest, part <:+: c :: text := fun part member =>
      (parts part member).trans (List.suffix_cons c text).isInfix
    rw [List.splitOnP_cons_eq_if_modifyHead, split]
    by_cases isBlank : blank c = true
    · refine ⟨[], first :: rest, if_pos isBlank, List.nil_prefix, fun part member => ?_⟩
      rcases List.mem_cons.mp member with rfl | member
      · exact starts.isInfix.trans (List.suffix_cons c text).isInfix
      · exact later part member
    · exact ⟨c :: first, rest, if_neg isBlank, List.cons_prefix_cons.mpr ⟨rfl, starts⟩, later⟩

/-- A part that a split leaves is a part of the text. -/
theorem infix_of_mem_splitOnP (member : word ∈ text.splitOnP blank) : word <:+: text := by
  obtain ⟨first, rest, split, starts, parts⟩ := splitOnP_parts blank text
  rw [split, List.mem_cons] at member
  rcases member with rfl | member
  · exact starts.isInfix
  · exact parts word member

/-- A word is a part of the text. -/
theorem word_inside (member : word ∈ words blank text) : word <:+: text :=
  infix_of_mem_splitOnP (List.mem_of_mem_filter member)

/-- A character in front is one word more when it is not blank and touches no word. -/
theorem length_words_cons (blank : α → Bool) (c : α) (text : List α) : (words blank (c :: text)).length =
    (words blank text).length + if !blank c && text.head?.all blank then 1 else 0 := by
  unfold words
  rw [List.splitOnP_cons_eq_if_modifyHead]
  by_cases isBlank : blank c = true
  · simp [isBlank]
  · cases text with
    | nil => simp [isBlank]
    | cons d text =>
      -- The first part of the split is empty exactly when a blank is next.
      obtain ⟨first, rest, split, -, -⟩ := splitOnP_parts blank text
      rw [List.splitOnP_cons_eq_if_modifyHead, split]
      by_cases next : blank d = true
      · simp [isBlank, next]
      · simp [isBlank, next]

/-- A part of a text has no more words. -/
theorem length_words_le {part : List α} (inside : part <:+: text) :
    (words blank part).length ≤ (words blank text).length := by
  obtain ⟨front, back, rfl⟩ := inside
  induction front with
  | nil =>
    rw [List.nil_append]
    induction part with
    | nil => simp
    | cons c part inductionHypothesis =>
      rw [List.cons_append]
      cases part with
      | nil =>
        by_cases isBlank : blank c = true
        · simp [length_words_cons, isBlank]
        · have some := words_ne_nil (show ∃ d ∈ c :: back, blank d = false from ⟨c, List.mem_cons_self, by simpa using isBlank⟩)
          have one := words_word (List.cons_ne_nil c []) (by simpa using isBlank)
          rw [one]
          exact List.length_pos_iff.mpr some
      | cons d part =>
        rw [length_words_cons, length_words_cons blank c (d :: part ++ back)]
        simpa using inductionHypothesis
  | cons c front inductionHypothesis =>
    rw [List.cons_append, List.cons_append, length_words_cons]
    omega

theorem word_ne_nil (member : word ∈ words blank text) : word ≠ [] := by
  simpa using List.of_mem_filter member

end Words

section Positions

variable {α : Type} {p : α → Bool} {text front back : List α} {c : α}

/-- The position of the last character with a property. -/
def findLast (p : α → Bool) : List α → Option Nat
  | [] => none
  | c :: text =>
    match findLast p text with
    | some i => some (i + 1)
    | none => if p c then some 0 else none

/-- `std::string::substr`, which throws when the position lies behind the end. A
missing length is `npos`. -/
def substr (text : List α) (pos : Nat) (len : Option Nat) : Option (List α) :=
  if pos ≤ text.length then
    match len with
    | some len => some ((text.drop pos).take len)
    | none => some (text.drop pos)
  else none

theorem findLast_eq_none : findLast p text = none ↔ ∀ c ∈ text, p c = false := by
  induction text with
  | nil => simp [findLast]
  | cons c text inductionHypothesis =>
    unfold findLast
    cases found : findLast p text with
    | none =>
      have rest := inductionHypothesis.mp found
      by_cases here : p c = true
      · simp [here]
      · simpa [here] using rest
    | some i =>
      have rest := mt inductionHypothesis.mpr (by simp [found])
      simp only [List.mem_cons, forall_eq_or_imp]
      exact iff_of_false nofun fun all => rest all.2

theorem findLast_append_cons (here : p c = true) (last : ∀ d ∈ back, p d = false) :
    findLast p (front ++ c :: back) = some front.length := by
  induction front with
  | nil => simp [findLast, findLast_eq_none.mpr last, here]
  | cons d front inductionHypothesis => simp [findLast, inductionHypothesis]

/-- A text with such a character, cut at the last one. -/
theorem exists_last (some : ∃ c ∈ text, p c = true) :
    ∃ front c back, text = front ++ c :: back ∧ p c = true ∧ ∀ d ∈ back, p d = false := by
  induction text with
  | nil => simp at some
  | cons c text inductionHypothesis =>
    by_cases later : ∃ d ∈ text, p d = true
    · obtain ⟨front, d, back, rfl, here, last⟩ := inductionHypothesis later
      exact ⟨c :: front, d, back, rfl, here, last⟩
    · have none : ∀ d ∈ text, p d = false := by simpa using later
      obtain ⟨d, member, here⟩ := some
      rcases List.mem_cons.mp member with rfl | member
      · exact ⟨[], d, text, rfl, here, none⟩
      · exact absurd ⟨d, member, here⟩ later

/-- Dropping from the end stops at the last other character. -/
theorem rdropWhile_append_cons (stops : p c = false) (drops : ∀ d ∈ back, p d = true) :
    (front ++ c :: back).rdropWhile p = front ++ [c] := by
  rw [List.rdropWhile, List.reverse_append, List.reverse_cons, List.append_assoc,
    List.dropWhile_append_of_pos fun d member => drops d (List.mem_reverse.mp member),
    List.singleton_append, List.dropWhile_cons_of_neg (by simp [stops])]
  simp

theorem drop_append_cons (front : List α) (c : α) (back : List α) :
    (front ++ c :: back).drop (front.length + 1) = back := by simp

/-- The first character with a property, searched where it stands. -/
theorem findIdx?_append_cons (here : p c = true) (first : ∀ d ∈ front, p d = false) :
    (front ++ c :: back).findIdx? p = some front.length := by
  induction front with
  | nil => simp [List.findIdx?_cons, here]
  | cons d front inductionHypothesis =>
    simp only [List.mem_cons, forall_eq_or_imp] at first
    simp [List.findIdx?_cons, first.1, inductionHypothesis first.2]

end Positions

section Numerals

variable {digits rest : Text} {c : Char}

/-- The value of decimal digits. -/
def decimal (digits : Text) : Nat :=
  digits.foldl (fun value digit => 10 * value + (digit.toNat - '0'.toNat)) 0

/-- A value as an `int`; there is none for a value that `int` cannot hold. -/
def asInt (value : Int) : Option Int := if -2 ^ 31 ≤ value ∧ value < 2 ^ 31 then some value else none

/-- The sign of a number and the text behind it. -/
def sign : Text → Bool × Text
  | '-' :: rest => (true, rest)
  | '+' :: rest => (false, rest)
  | rest => (false, rest)

/-- `atoi`, which has no defined result for a value that `int` cannot hold. -/
def atoi (text : Text) : Option Int :=
  let (negative, rest) := sign (text.dropWhile isSpace)
  let value : Int := decimal (rest.takeWhile Char.isDigit)
  asInt (if negative then -value else value)

/-- A nonempty text of digits. -/
def IsNumeral (text : Text) : Prop := text ≠ [] ∧ ∀ c ∈ text, c.isDigit = true

instance (text : Text) : Decidable (IsNumeral text) := inferInstanceAs (Decidable (_ ∧ _))

theorem asInt_eq {value : Int} (low : -2 ^ 31 ≤ value) (high : value < 2 ^ 31) :
    asInt value = some value := if_pos ⟨low, high⟩

/-- A digit is not blank. -/
theorem isSpace_digit (digit : c.isDigit = true) : isSpace c = false := by
  by_contra blank
  simp only [isSpace, Bool.not_eq_false, decide_eq_true_eq, List.mem_cons, List.not_mem_nil, or_false] at blank
  rcases blank with rfl | rfl | rfl | rfl | rfl | rfl <;> simp at digit

theorem IsNumeral.solid (numeral : IsNumeral digits) : ∀ c ∈ digits, isSpace c = false :=
  fun c member => isSpace_digit (numeral.2 c member)

/-- A text that starts with a digit has no sign. -/
theorem sign_digit (digit : c.isDigit = true) : sign (c :: rest) = (false, c :: rest) := by
  unfold sign
  split
  next same =>
    obtain rfl := (List.cons.inj same).1
    simp at digit
  next same =>
    obtain rfl := (List.cons.inj same).1
    simp at digit
  next => rfl

/-- `atoi` reads the digits at the start of a text up to another character. -/
theorem atoi_numeral (numeral : IsNumeral digits) (fits : decimal digits < 2 ^ 31)
    (stops : ∀ c ∈ rest.head?, c.isDigit = false) : atoi (digits ++ rest) = some (decimal digits : Int) := by
  obtain ⟨nonempty, all⟩ := numeral
  have whole : (digits ++ rest).takeWhile Char.isDigit = digits := by
    rw [List.takeWhile_append_of_pos all]
    cases rest with
    | nil => simp
    | cons c rest => simp [stops c rfl]
  obtain ⟨d, more, rfl⟩ := List.exists_cons_of_ne_nil nonempty
  have first : d.isDigit = true := all d List.mem_cons_self
  have solid : (d :: more ++ rest).dropWhile isSpace = d :: more ++ rest := by
    rw [List.cons_append, List.dropWhile_cons_of_neg (by simp [isSpace_digit first])]
  unfold atoi
  rw [solid, List.cons_append, sign_digit first, ← List.cons_append]
  simp only [whole, Bool.false_eq_true, if_false]
  exact asInt_eq (by omega) (by omega)

theorem atoi_digits (numeral : IsNumeral digits) (fits : decimal digits < 2 ^ 31) :
    atoi digits = some (decimal digits : Int) := by
  have alone : ∀ c ∈ ([] : Text).head?, c.isDigit = false := by simp
  simpa using atoi_numeral numeral fits alone

/-- `atoi` reads a dash before the digits as a sign. -/
theorem atoi_dash (numeral : IsNumeral digits) (fits : decimal digits < 2 ^ 31) :
    atoi ('-' :: digits) = some (-(decimal digits : Int)) := by
  have whole : digits.takeWhile Char.isDigit = digits := List.takeWhile_eq_self_iff.mpr numeral.2
  have solid : ('-' :: digits).dropWhile isSpace = '-' :: digits :=
    List.dropWhile_cons_of_neg (by decide)
  unfold atoi
  rw [solid, sign]
  simp only [whole, if_true]
  exact asInt_eq (by omega) (by omega)

end Numerals

end OperatingSystems.Texts
