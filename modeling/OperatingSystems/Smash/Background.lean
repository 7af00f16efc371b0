import OperatingSystems.Smash.CommandLine

/-!
# The background sign of `smash`

The two helpers that look for `&` at the end of a line search the line from the
back for a character that is not blank. On a blank line there is none, and neither
helper finds that out: one looks at position `npos`, and the other compares `npos`
with a variable of 32 bits. The second one also measures where the line without the
sign ends in a copy that still has the sign, so that the blank in the place of the
sign always stays.
-/

namespace OperatingSystems.Smash

open Texts

/-- The last character that is not blank is the background sign. -/
def EndsWithSign (cmdLine : Text) : Prop := (cmdLine.rdropWhile isSpace).getLast? = some '&'

instance (cmdLine : Text) : Decidable (EndsWithSign cmdLine) :=
  inferInstanceAs (Decidable ((cmdLine.rdropWhile isSpace).getLast? = some '&'))

/-- A line without the sign at its end, and without blanks in front of the sign. -/
def withoutSign (cmdLine : Text) : Text := (cmdLine.rdropWhile isSpace).dropLast.rdropWhile isSpace

/-- The position `_removeBackgroundSign` looks at in a line that is not blank. It
has 32 bits. -/
def signIndex (cmdLine : Text) : Nat := ((cmdLine.rdropWhile isSpace).length - 1) % 2 ^ 32

/-- What the comments of the two helpers promise for a line. Both stay inside it. -/
structure SignHandled (cmdLine : Text) : Prop where
  told : ∃ isInBg, isBackgroundCommand cmdLine = some isInBg ∧ (isInBg = true ↔ EndsWithSign cmdLine)
  removed : ∃ stripped, removeBackgroundSign cmdLine = some stripped ∧
    stripped = if EndsWithSign cmdLine then withoutSign cmdLine else cmdLine

/-- The last character that is not blank, between what stands before and behind it. -/
structure LastSolid (cmdLine front : Text) (c : Char) (back : Text) : Prop where
  whole : cmdLine = front ++ c :: back
  solid : isSpace c = false
  blank : ∀ d ∈ back, isSpace d = true

variable {cmdLine front back : Text} {c : Char}

/-- A line that is not blank has a last character that counts. -/
theorem exists_lastSolid (some : ∃ c ∈ cmdLine, isSpace c = false) :
    ∃ front c back, LastSolid cmdLine front c back := by
  have found : ∃ c ∈ cmdLine, (!isSpace c) = true := by simpa using some
  obtain ⟨front, c, back, whole, solid, blank⟩ := exists_last found
  exact ⟨front, c, back, whole, by simpa using solid, fun d member => by simpa using blank d member⟩

theorem isBackgroundCommand_blank (blank : ∀ c ∈ cmdLine, isSpace c = true) :
    isBackgroundCommand cmdLine = none := by
  unfold isBackgroundCommand
  rw [findLast_eq_none.mpr fun c member => by simp [blank c member]]
  rfl

theorem withoutSign_ends (cmdLine kept : Text) : withoutSign cmdLine ≠ kept ++ [' '] := by
  intro same
  have nonempty : withoutSign cmdLine ≠ [] := by simp [same]
  have ends : ¬ isSpace ((withoutSign cmdLine).getLast nonempty) = true :=
    List.rdropWhile_last_not _ _ nonempty
  rw [List.getLast_congr nonempty (by simp) same, List.getLast_concat] at ends
  exact ends (by decide)

/-- A text whose character at a position was replaced is another text. -/
theorem take_append_ne {text : Text} {i : Nat} (there : text[i]? = some c) (other : c ≠ ' ') :
    text.take i ++ [' '] ≠ text := by
  intro same
  obtain ⟨stored, -⟩ := List.getElem?_eq_some_iff.mp there
  have position : (text.take i).length = i := by rw [List.length_take, Nat.min_eq_left stored.le]
  have replaced : (text.take i ++ [' '])[i]? = some ' ' := by
    rw [List.getElem?_append_right position.le, position, Nat.sub_self]
    rfl
  rw [same, there, Option.some.injEq] at replaced
  exact other replaced

namespace LastSolid

variable (last : LastSolid cmdLine front c back)

include last

theorem rdropWhile_eq : cmdLine.rdropWhile isSpace = front ++ [c] := by
  rw [last.whole, rdropWhile_append_cons last.solid last.blank]

theorem endsWithSign_iff : EndsWithSign cmdLine ↔ c = '&' := by
  unfold EndsWithSign
  rw [last.rdropWhile_eq, List.getLast?_concat, Option.some.injEq]

theorem withoutSign_eq : withoutSign cmdLine = front.rdropWhile isSpace := by
  unfold withoutSign
  rw [last.rdropWhile_eq, List.dropLast_concat]

theorem findLast_eq : findLast (!isSpace ·) cmdLine = some front.length := by
  rw [last.whole]
  apply findLast_append_cons
  · simp [last.solid]
  · intro d member
    simp [last.blank d member]

theorem isBackgroundCommand_eq : isBackgroundCommand cmdLine = some (c == '&') := by
  unfold isBackgroundCommand
  rw [last.findLast_eq, last.whole]
  simp

theorem signIndex_eq : signIndex cmdLine = front.length % 2 ^ 32 := by
  unfold signIndex
  rw [last.rdropWhile_eq, List.length_append, List.length_singleton, Nat.add_sub_cancel]

/-- The position is inside the line. -/
theorem signIndex_lt : signIndex cmdLine < cmdLine.length := by
  rw [last.signIndex_eq, last.whole, List.length_append, List.length_cons]
  have below := Nat.mod_le front.length (2 ^ 32)
  omega

/-- A line that ends with a sign is longer than the line without it. -/
theorem withoutSign_shorter : (withoutSign cmdLine).length < cmdLine.length := by
  have kept := (List.rdropWhile_prefix isSpace (l := front)).length_le
  rw [last.withoutSign_eq, last.whole, List.length_append, List.length_cons]
  omega

/-- Without a sign at its position `_removeBackgroundSign` leaves the line as it is. -/
theorem removeBackgroundSign_unsigned (other : cmdLine[signIndex cmdLine]? ≠ some '&') :
    removeBackgroundSign cmdLine = some cmdLine := by
  have inside := last.signIndex_lt
  rw [last.signIndex_eq] at other inside
  unfold removeBackgroundSign
  simp only [last.findLast_eq, Option.getD_some]
  rw [if_neg (Nat.not_lt.mpr inside.le), if_pos other]

/-- With a sign there it leaves what stands before the sign, and one blank. The sign
itself is the last character that the search in the copy finds. -/
theorem removeBackgroundSign_signed (sign : cmdLine[signIndex cmdLine]? = some '&') :
    removeBackgroundSign cmdLine = some (cmdLine.take (signIndex cmdLine) ++ [' ']) := by
  have inside := last.signIndex_lt
  have index : front.length % 2 ^ 32 = signIndex cmdLine := last.signIndex_eq.symm
  have found : findLast (!isSpace ·) (cmdLine.take (signIndex cmdLine + 1)) = some (signIndex cmdLine) := by
    have searched : findLast (!isSpace ·) (cmdLine.take (signIndex cmdLine) ++ ['&']) =
        some (cmdLine.take (signIndex cmdLine)).length := findLast_append_cons (by decide) (by simp)
    rw [List.take_add_one, sign, Option.toList_some, searched, List.length_take, Nat.min_eq_left inside.le]
  have written : (cmdLine.set (signIndex cmdLine) ' ').take (signIndex cmdLine + 1) =
      cmdLine.take (signIndex cmdLine) ++ [' '] := by
    rw [List.take_add_one, List.take_set_of_le le_rfl, List.getElem?_set_self inside, Option.toList_some]
  unfold removeBackgroundSign
  simp only [last.findLast_eq, Option.getD_some, index]
  rw [if_neg (Nat.not_lt.mpr inside.le), if_neg (not_not.mpr sign), found, Option.elim_some, written]

/-- For a line that is not blank it depends on `_removeBackgroundSign`. -/
theorem handled_iff :
    SignHandled cmdLine ↔ ¬ EndsWithSign cmdLine ∧ cmdLine[signIndex cmdLine]? ≠ some '&' := by
  constructor
  · rintro ⟨-, stripped, removed, promised⟩
    have unsigned : cmdLine[signIndex cmdLine]? ≠ some '&' := by
      intro sign
      rw [last.removeBackgroundSign_signed sign, Option.some.injEq] at removed
      subst removed
      split at promised
      · exact withoutSign_ends _ _ promised.symm
      · exact take_append_ne sign (by decide) promised
    constructor
    · intro ends
      rw [last.removeBackgroundSign_unsigned unsigned, Option.some.injEq] at removed
      rw [if_pos ends, ← removed] at promised
      have shorter := last.withoutSign_shorter
      rw [← promised] at shorter
      exact absurd shorter (lt_irrefl _)
    · exact unsigned
  · rintro ⟨unsigned, other⟩
    constructor
    · refine ⟨c == '&', last.isBackgroundCommand_eq, ?_⟩
      rw [last.endsWithSign_iff, beq_iff_eq]
    · refine ⟨cmdLine, last.removeBackgroundSign_unsigned other, ?_⟩
      rw [if_neg unsigned]

end LastSolid

/-- The helpers keep their promise exactly for a line that is not blank and has no
sign, at the last position or at the one that 32 bits make of it: a sign is never
removed cleanly. -/
theorem signHandled_iff (cmdLine : Text) : SignHandled cmdLine ↔
    (∃ c ∈ cmdLine, isSpace c = false) ∧ ¬ EndsWithSign cmdLine ∧ cmdLine[signIndex cmdLine]? ≠ some '&' := by
  by_cases some : ∃ c ∈ cmdLine, isSpace c = false
  · obtain ⟨front, c, back, last⟩ := exists_lastSolid some
    rw [last.handled_iff]
    exact (and_iff_right some).symm
  · have blank : ∀ c ∈ cmdLine, isSpace c = true := by simpa using some
    apply iff_of_false
    · rintro ⟨⟨isInBg, told, -⟩, -⟩
      rw [isBackgroundCommand_blank blank] at told
      cases told
    · exact fun handled => some handled.1

/-- A blank stays where the sign was, and a blank line has no last position. -/
theorem signHandled_iff_samples :
    (EndsWithSign "sleep 5 &".toList ∧ removeBackgroundSign "sleep 5 &".toList = some "sleep 5  ".toList ∧
      withoutSign "sleep 5 &".toList = "sleep 5".toList ∧ ¬ SignHandled "sleep 5 &".toList) ∧
    isBackgroundCommand "  ".toList = none ∧ removeBackgroundSign "  ".toList = none ∧ ¬ SignHandled "  ".toList := by
  have ends : EndsWithSign "sleep 5 &".toList := by decide +kernel
  have left : removeBackgroundSign "sleep 5 &".toList = some "sleep 5  ".toList := by decide +kernel
  have clean : withoutSign "sleep 5 &".toList = "sleep 5".toList := by decide +kernel
  have lost : isBackgroundCommand "  ".toList = none := by decide +kernel
  refine ⟨⟨ends, left, clean, ?_⟩, lost, by decide +kernel, ?_⟩
  · rintro ⟨-, stripped, removed, promised⟩
    rw [left, Option.some.injEq] at removed
    rw [if_pos ends, clean, ← removed] at promised
    exact absurd promised (by decide +kernel)
  · rintro ⟨⟨isInBg, told, -⟩, -⟩
    rw [lost] at told
    cases told

/-- The blank in the place of the sign does not count where the line is split. -/
theorem removeBackgroundSign_words (ends : EndsWithSign cmdLine) (short : cmdLine.length ≤ 2 ^ 32) :
    ∃ stripped, removeBackgroundSign cmdLine = some stripped ∧
      words isSpace stripped = words isSpace (withoutSign cmdLine) := by
  have some : ∃ c ∈ cmdLine, isSpace c = false := by
    by_contra none
    have blank : ∀ c ∈ cmdLine, isSpace c = true := by simpa using none
    rw [EndsWithSign, List.rdropWhile_eq_nil_iff.mpr blank] at ends
    cases ends
  obtain ⟨front, c, back, last⟩ := exists_lastSolid some
  obtain rfl := last.endsWithSign_iff.mp ends
  obtain rfl := last.whole
  have index : signIndex (front ++ '&' :: back) = front.length := by
    rw [List.length_append, List.length_cons] at short
    rw [last.signIndex_eq, Nat.mod_eq_of_lt (by omega)]
  refine ⟨front ++ [' '], ?_, ?_⟩
  · rw [last.removeBackgroundSign_signed (by simp [index]), index, List.take_left]
  · rw [last.withoutSign_eq, words_rdropWhile,
      words_append_blank fun d member => by simp [List.mem_singleton.mp member, isSpace]]

end OperatingSystems.Smash
