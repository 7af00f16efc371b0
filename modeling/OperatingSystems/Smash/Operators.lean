import OperatingSystems.Smash.CommandLine

/-!
# Redirections and pipes

A line with an operator is cut at the first one, and each part loses what stands
behind its last `&`. That is its background sign only when nothing but blanks
follows it.
-/

namespace OperatingSystems.Smash

open Texts

/-- The text in front of the first operator. -/
def before (operator : Char) (cmdLine : Text) : Text := cmdLine.takeWhile (· ≠ operator)

/-- The text behind the first operator, if that is one character. -/
def after (operator : Char) (cmdLine : Text) : Text := (cmdLine.dropWhile (· ≠ operator)).tail

/-- The operator has a second character. -/
def Doubled (operator second : Char) (cmdLine : Text) : Prop := (after operator cmdLine).head? = some second

instance (operator second : Char) (cmdLine : Text) : Decidable (Doubled operator second cmdLine) :=
  inferInstanceAs (Decidable (_ = _))

/-- The text behind the operator. -/
def behind (operator second : Char) (cmdLine : Text) : Text :=
  if Doubled operator second cmdLine then (after operator cmdLine).tail else after operator cmdLine

/-- The text without the blanks around it. -/
def trimmed (s : Text) : Text := (s.dropWhile isSpace).rdropWhile isSpace

/-- What a part may lose: one background sign that is its last character but for
blanks, and blanks around it. -/
def Loses (part result : Text) : Prop :=
  result = part ∨ ∃ ahead back, part = result ++ (ahead ++ '&' :: back) ∧
    (∀ c ∈ ahead, isSpace c = true) ∧ ∀ c ∈ back, isSpace c = true

/-- The line was cut at its first operator and nothing else was lost. -/
def SplitsWell (cmdLine : Text) : Option Created → Prop
  | some (.redirection _ cmd filePath append) =>
    '>' ∈ cmdLine ∧ Loses (before '>' cmdLine) cmd ∧ filePath = trimmed (behind '>' '>' cmdLine) ∧
      (append = true ↔ Doubled '>' '>' cmdLine)
  | some (.pipe _ cmd1 cmd2 redirErr) =>
    '>' ∉ cmdLine ∧ '|' ∈ cmdLine ∧ Loses (before '|' cmdLine) cmd1 ∧ Loses (behind '|' '&' cmdLine) cmd2 ∧
      (redirErr = true ↔ Doubled '|' '&' cmdLine)
  | _ => False

/-- The last `&` of a part is the last character of it that is not blank. -/
def SignLast (part : Text) : Prop := '&' ∉ part ∨ (part.rdropWhile isSpace).getLast? = some '&'

instance (part : Text) : Decidable (SignLast part) := inferInstanceAs (Decidable (_ ∨ _))

/-- The words of the line without its background sign fit into the array. -/
def FewWords (cmdLine : Text) : Prop :=
  ∃ stripped ∈ removeBackgroundSign cmdLine, (words isSpace stripped).length < commandMaxArgs

instance (cmdLine : Text) : Decidable (FewWords cmdLine) :=
  match found : removeBackgroundSign cmdLine with
  | none => isFalse fun few => by simp [FewWords, found] at few
  | some stripped =>
    decidable_of_iff ((words isSpace stripped).length < commandMaxArgs) (by simp [FewWords, found])

/-- The position behind the operator is an `int`. -/
def Reachable (operator second : Char) (cmdLine : Text) : Prop :=
  (before operator cmdLine).length + (if Doubled operator second cmdLine then 2 else 1) < 2 ^ 31

instance (operator second : Char) (cmdLine : Text) : Decidable (Reachable operator second cmdLine) :=
  inferInstanceAs (Decidable (_ < _))

/-- The lines that lose nothing. -/
def Separable (cmdLine : Text) : Prop :=
  FewWords cmdLine ∧
    if '>' ∈ cmdLine then Reachable '>' '>' cmdLine ∧ SignLast (before '>' cmdLine)
    else Reachable '|' '&' cmdLine ∧ SignLast (before '|' cmdLine) ∧ SignLast (behind '|' '&' cmdLine)

instance (cmdLine : Text) : Decidable (Separable cmdLine) := by
  unfold Separable
  exact inferInstance

variable {part cmdLine : Text} {operator second : Char}

theorem trim_eq (s : Text) : trim s = trimmed s := by rw [trim, rtrim_eq, ltrim_eq, trimmed]

/-- Behind its last `&` a part is blank when that is its last other character. -/
theorem signLast_iff {front back : Text} (later : ∀ d ∈ back, decide (d = '&') = false) :
    ((front ++ '&' :: back).rdropWhile isSpace).getLast? = some '&' ↔ ∀ c ∈ back, isSpace c = true := by
  by_cases solid : ∃ c ∈ back, (!isSpace c) = true
  · obtain ⟨ahead, d, blanks, rfl, isSolid, blank⟩ := exists_last solid
    have last : (front ++ '&' :: (ahead ++ d :: blanks)).rdropWhile isSpace =
        (front ++ '&' :: ahead) ++ [d] := by
      rw [← List.cons_append, ← List.append_assoc]
      exact rdropWhile_append_cons (by simpa using isSolid) fun c member => by simpa using blank c member
    rw [last, List.getLast?_concat]
    have other : d ≠ '&' := by simpa using later d (by simp)
    refine iff_of_false (fun same => other (Option.some.inj same)) fun all => ?_
    simp [all d (by simp)] at isSolid
  · have blank : ∀ c ∈ back, isSpace c = true := by simpa using solid
    rw [rdropWhile_append_cons (by decide) blank, List.getLast?_concat]
    exact iff_of_true rfl blank

/-- The erased text is all that a part may lose exactly when its sign is last. -/
theorem eraseSign_loses_iff (part : Text) : Loses part (eraseSign part) ↔ SignLast part := by
  by_cases sign : '&' ∈ part
  · obtain ⟨front, c, back, rfl, here, later⟩ := exists_last (p := (· = '&')) ⟨'&', sign, by simp⟩
    obtain rfl : c = '&' := by simpa using here
    have erased : eraseSign (front ++ '&' :: back) = front := by
      rw [eraseSign, findLast_append_cons (p := (· = '&')) here later]
      simp
    rw [erased, SignLast, or_iff_right (not_not_intro sign), signLast_iff later]
    constructor
    · rintro (whole | ⟨ahead, blanks, same, isBlank, areBlank⟩)
      · exact absurd whole (by simp)
      · have rest := List.append_cancel_left same
        cases ahead with
        | nil => exact (List.cons.inj rest).2 ▸ areBlank
        | cons d ahead =>
          obtain rfl := (List.cons.inj rest).1
          exact absurd (isBlank '&' List.mem_cons_self) (by decide)
    · exact fun blank => Or.inr ⟨[], back, rfl, nofun, blank⟩
  · have erased : eraseSign part = part := by
      rw [eraseSign, findLast_eq_none.mpr fun c member => by
        simpa using ne_of_mem_of_not_mem member sign]
    exact iff_of_true (Or.inl erased) (Or.inl sign)

/-- A line with an operator, cut at the first one. -/
theorem cut_line (found : operator ∈ cmdLine) :
    cmdLine = before operator cmdLine ++ operator :: after operator cmdLine := by
  have whole := List.takeWhile_append_dropWhile (p := (· ≠ operator)) (l := cmdLine)
  cases rest : cmdLine.dropWhile (· ≠ operator) with
  | nil =>
    have all := List.dropWhile_eq_nil_iff.mp rest operator found
    simp at all
  | cons c tail =>
    have stops := List.head?_dropWhile_not (p := (· ≠ operator)) (l := cmdLine)
    rw [rest] at stops whole
    obtain rfl : c = operator := by simpa using stops
    rw [before, after, rest]
    exact whole.symm

/-- The position of the operator. -/
theorem findIdx?_operator (found : operator ∈ cmdLine) :
    cmdLine.findIdx? (· = operator) = some (before operator cmdLine).length := by
  have first : ∀ d ∈ before operator cmdLine, decide (d = operator) = false := fun d member => by
    simpa using List.mem_takeWhile_imp member
  conv_lhs => rw [cut_line found]
  exact findIdx?_append_cons (p := (· = operator)) (by simp) first

/-- What the constructors read at and behind the operator. -/
theorem at_operator (second : Char) (found : operator ∈ cmdLine) :
    cmdLine.take (before operator cmdLine).length = before operator cmdLine ∧
      (cmdLine[(before operator cmdLine).length + 1]? == some second) =
        decide (Doubled operator second cmdLine) ∧
      cmdLine.drop ((before operator cmdLine).length + if Doubled operator second cmdLine then 2 else 1) =
        behind operator second cmdLine := by
  have whole := cut_line found
  have front : cmdLine.take (before operator cmdLine).length = before operator cmdLine :=
    List.prefix_iff_eq_take.mp (List.takeWhile_prefix _) |>.symm
  have tail : cmdLine.drop ((before operator cmdLine).length + 1) = after operator cmdLine :=
    (congrArg (List.drop _) whole).trans (drop_append_cons _ _ _)
  refine ⟨front, ?_, ?_⟩
  · rw [← List.head?_drop, tail, Bool.eq_iff_iff, beq_iff_eq, decide_eq_true_eq, Doubled]
  · unfold behind
    split
    · rw [← tail, List.tail_drop]
    · exact tail

/-- The constructor of `Command` is done with a line of few words. -/
theorem commandObject_iff (cmdLine : Text) :
    (∃ base, commandObject cmdLine true = some base) ↔ FewWords cmdLine := by
  unfold commandObject FewWords parseCommandLine
  simp only [if_true, words_trim]
  cases removeBackgroundSign cmdLine with
  | none => simp
  | some stripped =>
    by_cases few : (words isSpace stripped).length < commandMaxArgs
    · simp [few]
    · simp [few]

theorem toInt_eq {position : Nat} (small : position < 2 ^ 31) : toInt position = some position := if_pos small

/-- The positions that both constructors compute are those around the operator. -/
theorem positions_eq {β : Type} (second : Char) (found : operator ∈ cmdLine)
    (rest : Nat → Nat → Nat → Option β) :
    (((cmdLine.findIdx? (· = operator)).bind toInt).bind fun index => (toInt (index + 1)).bind fun next =>
      (toInt (index + if (cmdLine[next]? == some second) = true then 2 else 1)).bind fun start =>
        rest index next start) =
      if Reachable operator second cmdLine then
        rest (before operator cmdLine).length ((before operator cmdLine).length + 1)
          ((before operator cmdLine).length + if Doubled operator second cmdLine then 2 else 1)
      else none := by
  obtain ⟨-, reads, -⟩ := at_operator second found
  rw [findIdx?_operator found, Option.bind_some]
  split
  next reach =>
    unfold Reachable at reach
    have one : (before operator cmdLine).length + 1 < 2 ^ 31 := by
      split at reach <;> omega
    rw [toInt_eq (Nat.lt_of_succ_lt one), Option.bind_some, toInt_eq one, Option.bind_some, reads]
    simp only [decide_eq_true_eq]
    rw [toInt_eq reach, Option.bind_some]
  next far =>
    refine Option.bind_eq_none_iff.mpr fun index isIndex => ?_
    refine Option.bind_eq_none_iff.mpr fun next isNext => ?_
    obtain rfl := Option.some.inj (Option.ite_none_right_eq_some.mp isIndex).2
    obtain rfl := Option.some.inj (Option.ite_none_right_eq_some.mp isNext).2
    rw [reads]
    simp only [decide_eq_true_eq]
    have outside :
        toInt ((before operator cmdLine).length + if Doubled operator second cmdLine then 2 else 1) =
        none := if_neg far
    rw [outside, Option.bind_none]

/-- The constructor of `RedirectionCommand` on the parts of the line. -/
theorem redirectionCommand_eq (found : '>' ∈ cmdLine) : redirectionCommand cmdLine =
    if Reachable '>' '>' cmdLine then (commandObject cmdLine true).map fun base =>
      .redirection base (eraseSign (before '>' cmdLine)) (trim (behind '>' '>' cmdLine))
        (Doubled '>' '>' cmdLine)
    else none := by
  obtain ⟨front, reads, rest⟩ := at_operator '>' found
  unfold redirectionCommand
  cases commandObject cmdLine true with
  | none => simp
  | some base =>
    refine (positions_eq '>' found _).trans ?_
    rw [front, rest, reads]
    rfl

/-- The constructor of `PipeCommand` on the parts of the line. -/
theorem pipeCommand_eq (found : '|' ∈ cmdLine) : pipeCommand cmdLine =
    if Reachable '|' '&' cmdLine then (commandObject cmdLine true).map fun base =>
      .pipe base (eraseSign (before '|' cmdLine)) (eraseSign (behind '|' '&' cmdLine))
        (Doubled '|' '&' cmdLine)
    else none := by
  obtain ⟨front, reads, rest⟩ := at_operator '&' found
  unfold pipeCommand
  cases commandObject cmdLine true with
  | none => simp
  | some base =>
    refine (positions_eq '&' found _).trans ?_
    rw [front, rest, reads]
    rfl

/-- A command that is made of few words, and only of them. -/
theorem splitsWell_object {make : CommandObject → Created} {proper : Prop}
    (each : ∀ base, SplitsWell cmdLine (some (make base)) ↔ proper) :
    SplitsWell cmdLine ((commandObject cmdLine true).map make) ↔ FewWords cmdLine ∧ proper := by
  rw [← commandObject_iff]
  cases commandObject cmdLine true with
  | none => exact iff_of_false id fun few => by simp at few
  | some base =>
    rw [and_iff_right ⟨base, rfl⟩]
    exact each base

/-- A redirection is split without loss when what stands behind the last `&` of
its command is blank. -/
theorem redirection_splits_iff (arrow : '>' ∈ cmdLine) : SplitsWell cmdLine (createCommand cmdLine) ↔
    FewWords cmdLine ∧ Reachable '>' '>' cmdLine ∧ SignLast (before '>' cmdLine) := by
  have trimmedArrow : '>' ∈ trim cmdLine := (mem_trim (by decide)).mpr arrow
  rw [createCommand, if_pos trimmedArrow, redirectionCommand_eq arrow]
  by_cases reach : Reachable '>' '>' cmdLine
  · rw [if_pos reach, and_iff_right reach]
    refine splitsWell_object fun base => ?_
    simp [SplitsWell, arrow, eraseSign_loses_iff, trim_eq]
  · rw [if_neg reach]
    exact iff_of_false id fun sound => reach sound.2.1

/-- So is a pipe, for both its commands. -/
theorem pipe_splits_iff (noArrow : '>' ∉ cmdLine) (pipe : '|' ∈ cmdLine) :
    SplitsWell cmdLine (createCommand cmdLine) ↔ FewWords cmdLine ∧ Reachable '|' '&' cmdLine ∧
      SignLast (before '|' cmdLine) ∧ SignLast (behind '|' '&' cmdLine) := by
  have trimmedArrow : '>' ∉ trim cmdLine := mt (mem_trim (by decide)).mp noArrow
  have trimmedPipe : '|' ∈ trim cmdLine := (mem_trim (by decide)).mpr pipe
  rw [createCommand, if_neg trimmedArrow, if_pos trimmedPipe, pipeCommand_eq pipe]
  by_cases reach : Reachable '|' '&' cmdLine
  · rw [if_pos reach, and_iff_right reach]
    refine splitsWell_object fun base => ?_
    simp [SplitsWell, noArrow, pipe, eraseSign_loses_iff]
  · rw [if_neg reach]
    exact iff_of_false id fun sound => reach sound.2.1

/-- A line with an operator is split without loss exactly when it has few words,
its operator is not too far behind, and the last `&` of each part is its sign. -/
theorem createCommand_splits_iff (operator : '>' ∈ cmdLine ∨ '|' ∈ cmdLine) :
    SplitsWell cmdLine (createCommand cmdLine) ↔ Separable cmdLine := by
  unfold Separable
  by_cases arrow : '>' ∈ cmdLine
  · rw [if_pos arrow]
    exact redirection_splits_iff arrow
  · rw [if_neg arrow]
    exact pipe_splits_iff arrow (operator.resolve_left arrow)

/-- The signs of both commands of a pipe are removed. -/
theorem createCommand_splits_sample :
    SplitsWell "sleep 5 & |& sort & ".toList (createCommand "sleep 5 & |& sort & ".toList) :=
  (createCommand_splits_iff (by decide +kernel)).mpr (by decide +kernel)

/-- The second command of a list is lost. -/
theorem createCommand_loses : ¬∀ cmdLine : Text, '>' ∈ cmdLine ∨ '|' ∈ cmdLine →
    SplitsWell cmdLine (createCommand cmdLine) := by
  intro always
  have arrow : '>' ∈ "ls && ps > f".toList := by decide +kernel
  have sound := (redirection_splits_iff arrow).mp (always _ (Or.inl arrow))
  exact absurd sound.2.2 (by decide +kernel)

end OperatingSystems.Smash
