import OperatingSystems.Smash.CommandLine
import OperatingSystems.Smash.Shell

/-!
# The command inside a timeout

`TimeoutCommand::execute` takes the duration from the second word and looks for
the end of that word by its last character, from the start of the line. It finds
an earlier place when the character stands there already.
-/

namespace OperatingSystems.Smash

open Texts

/-- What `TimeoutCommand::execute` comes to: an error message, or the shell with
the duration registered and the text passed to `executeCommand`. -/
inductive TimeoutOutcome where
  | refused (message : Text)
  | runs (s : Shell) (cmd : Text)

/-- `TimeoutCommand::execute`, up to the command it runs. -/
def timeoutExecute (base : CommandObject) (s : Shell) : Option TimeoutOutcome :=
  match base.args with
  | _ :: word :: _ :: _ => do
    let duration ← atoi word
    if duration < 0 then some (.refused "smash error: timeout: invalid arguments".toList)
    else do
      let last ← word.getLast?
      let cmdStartIndex ← base.cmdLine.findIdx? (· = last)
      let cmd := base.cmdLine.drop (cmdStartIndex + 1)
      some (.runs (setTimeout duration (String.ofList base.cmdLineConst) s) cmd)
  | _ => some (.refused "smash error: timeout: invalid arguments".toList)

/-- Some blanks. -/
def Blanks (text : Text) : Prop := ∀ c ∈ text, isSpace c = true

instance (text : Text) : Decidable (Blanks text) := inferInstanceAs (Decidable (∀ c ∈ text, _))

/-- A line with a timeout, between the blanks of which stand its duration and a
command. -/
structure TimeoutLine where
  indent : Text
  gap : Text
  duration : Text
  space : Text
  command : Text
  blankIndent : Blanks indent
  blankGap : Blanks gap
  separates : gap ≠ []
  isNumeral : IsNumeral duration
  positive : 0 < decimal duration
  fits : decimal duration < 2 ^ 31
  blankSpace : Blanks space
  separatesCommand : space ≠ []
  hasCommand : ∃ c ∈ command, isSpace c = false

/-- The text behind the duration. -/
def TimeoutLine.tail (t : TimeoutLine) : Text := t.space ++ t.command

/-- The text of the line. -/
def TimeoutLine.line (t : TimeoutLine) : Text :=
  t.indent ++ ("timeout".toList ++ (t.gap ++ (t.duration ++ t.tail)))

/-- The line registers its duration, and the command behind it is run, with or
without the blanks in front. -/
def RunsCommand (t : TimeoutLine) (s : Shell) : Prop :=
  ∃ base cmd, commandObject t.line false = some base ∧
    timeoutExecute base s =
      some (.runs (setTimeout (decimal t.duration) (String.ofList t.line) s) cmd) ∧
    cmd.dropWhile isSpace = t.command.dropWhile isSpace

/-- The last digit of the duration does not stand in it twice. -/
def LastDigitOnce (t : TimeoutLine) : Prop := ∀ d ∈ t.duration.getLast?, d ∉ t.duration.dropLast

variable {t : TimeoutLine} {s : Shell}

/-- The words of the line. -/
theorem TimeoutLine.words_line (t : TimeoutLine) :
    words isSpace t.line = "timeout".toList :: t.duration :: words isSpace t.command := by
  have name : ∀ c ∈ "timeout".toList, isSpace c = false := by decide +kernel
  rw [TimeoutLine.line, words_blank_append t.blankIndent,
    words_word_append (by decide +kernel) name t.separates t.blankGap, TimeoutLine.tail,
    words_word_append t.isNumeral.1 t.isNumeral.solid t.separatesCommand t.blankSpace]

/-- The constructor of `Command` is done with a line of few words. -/
theorem TimeoutLine.object_iff (t : TimeoutLine) (base : CommandObject) :
    commandObject t.line false = some base ↔
      (words isSpace t.line).length < commandMaxArgs ∧ base = ⟨words isSpace t.line, t.line, t.line⟩ := by
  simp only [commandObject, parseCommandLine, words_trim]
  by_cases few : (words isSpace t.line).length < commandMaxArgs
  · simp [few, eq_comm]
  · simp [few]

/-- No digit stands before the duration. -/
theorem TimeoutLine.first_digit (t : TimeoutLine) {d : Char} (digit : d.isDigit = true) :
    d ∉ t.indent ++ ("timeout".toList ++ t.gap) := by
  intro member
  have solid : isSpace d = false := isSpace_digit digit
  rcases List.mem_append.mp member with inIndent | member
  · simp [t.blankIndent d inIndent] at solid
  · rcases List.mem_append.mp member with inName | inGap
    · have letters : ∀ c ∈ "timeout".toList, c.isDigit = false := by decide +kernel
      simp [letters d inName] at digit
    · simp [t.blankGap d inGap] at solid

/-- What is run is the text behind the first place of the last digit. -/
theorem timeoutExecute_runs (t : TimeoutLine) (s : Shell) {front back : Text} {d : Char}
    (last : t.duration.getLast? = some d) (split : t.duration = front ++ d :: back) (first : d ∉ front) :
    timeoutExecute ⟨words isSpace t.line, t.line, t.line⟩ s =
      some (.runs (setTimeout (decimal t.duration) (String.ofList t.line) s) (back ++ t.tail)) := by
  have digit : d.isDigit = true := t.isNumeral.2 d (by simp [split])
  have value : atoi t.duration = some (decimal t.duration : Int) := atoi_digits t.isNumeral t.fits
  have whole : t.line = (t.indent ++ ("timeout".toList ++ t.gap) ++ front) ++ d :: (back ++ t.tail) := by
    rw [TimeoutLine.line, split]
    simp only [List.append_assoc, List.cons_append]
  have absent : ∀ c ∈ t.indent ++ ("timeout".toList ++ t.gap) ++ front, decide (c = d) = false := by
    intro c member
    refine decide_eq_false fun same => ?_
    subst same
    exact (List.mem_append.mp member).elim (t.first_digit digit) first
  have place : t.line.findIdx? (· = d) =
      some (t.indent ++ ("timeout".toList ++ t.gap) ++ front).length := by
    conv_lhs => rw [whole]
    exact findIdx?_append_cons (p := (· = d)) (by simp) absent
  obtain ⟨word, more, command⟩ := List.exists_cons_of_ne_nil (words_ne_nil t.hasCommand)
  have notNegative : ¬(decimal t.duration : Int) < 0 := by omega
  unfold timeoutExecute
  rw [t.words_line, command]
  simp only [value, last, place, Option.bind_eq_bind, Option.bind_some, if_neg notNegative]
  rw [(congrArg (List.drop _) whole).trans (drop_append_cons _ _ _)]

/-- The command runs as it stands when nothing of the duration is left in front of it. -/
theorem runs_command_iff (t : TimeoutLine) {back : Text} (digits : ∀ c ∈ back, c.isDigit = true) :
    (back ++ t.tail).dropWhile isSpace = t.command.dropWhile isSpace ↔ back = [] := by
  cases back with
  | nil =>
    rw [List.nil_append, TimeoutLine.tail, List.dropWhile_append_of_pos t.blankSpace]
    exact iff_of_true rfl rfl
  | cons c back =>
    refine iff_of_false (fun same => ?_) (List.cons_ne_nil _ _)
    have solid : ¬isSpace c = true := by simp [isSpace_digit (digits c List.mem_cons_self)]
    rw [List.cons_append, List.dropWhile_cons_of_neg solid] at same
    have sizes := congrArg List.length same
    have shorter := List.length_dropWhile_le isSpace t.command
    simp only [TimeoutLine.tail, List.length_cons, List.length_append] at sizes
    omega

/-- The text behind the word of the duration is run exactly when the line has few
words and the last digit of the duration does not stand in it twice. -/
theorem timeout_runs_iff (t : TimeoutLine) (s : Shell) :
    RunsCommand t s ↔ (words isSpace t.line).length < commandMaxArgs ∧ LastDigitOnce t := by
  obtain ⟨d, last⟩ : ∃ d, t.duration.getLast? = some d :=
    ⟨_, List.getLast?_eq_some_getLast t.isNumeral.1⟩
  obtain ⟨front, back, split, first⟩ := List.eq_append_cons_of_mem (List.mem_of_getLast? last)
  have runs := timeoutExecute_runs t s last split first
  have digits : ∀ c ∈ back, c.isDigit = true := fun c member => t.isNumeral.2 c (by simp [split, member])
  have once : LastDigitOnce t ↔ back = [] := by
    rw [LastDigitOnce, last, split]
    cases back with
    | nil => simpa using first
    | cons c back =>
      rw [List.dropLast_append_of_ne_nil (List.cons_ne_nil _ _)]
      simp
  rw [once, ← runs_command_iff t digits]
  constructor
  · rintro ⟨base, cmd, object, executes, same⟩
    obtain ⟨few, rfl⟩ := (t.object_iff base).mp object
    rw [runs] at executes
    obtain ⟨-, rfl⟩ := TimeoutOutcome.runs.inj (Option.some.inj executes)
    exact ⟨few, same⟩
  · rintro ⟨few, same⟩
    exact ⟨_, _, (t.object_iff _).mpr ⟨few, rfl⟩, runs, same⟩

/-- A command of five seconds with a timeout. -/
def timeoutSleep (duration : Text) (isNumeral : IsNumeral duration) (positive : 0 < decimal duration)
    (fits : decimal duration < 2 ^ 31) : TimeoutLine where
  indent := []
  gap := " ".toList
  duration := duration
  space := "  ".toList
  command := "sleep 5".toList
  blankIndent := nofun
  blankGap := by decide +kernel
  separates := by decide +kernel
  isNumeral := isNumeral
  positive := positive
  fits := fits
  blankSpace := by decide +kernel
  separatesCommand := by decide +kernel
  hasCommand := ⟨'s', by decide +kernel, by decide⟩

/-- `timeout 10  sleep 5`. -/
def timeoutTen : TimeoutLine :=
  timeoutSleep "10".toList (by decide +kernel) (by decide +kernel) (by decide +kernel)

/-- `timeout 11  sleep 5`. -/
def timeoutEleven : TimeoutLine :=
  timeoutSleep "11".toList (by decide +kernel) (by decide +kernel) (by decide +kernel)

theorem timeout_runs_sample : RunsCommand timeoutTen (start 0) := by
  refine (timeout_runs_iff timeoutTen (start 0)).mpr ⟨by decide +kernel, ?_⟩
  unfold LastDigitOnce
  decide +kernel

/-- The command run is `1  sleep 5`. -/
theorem timeout_misses : ¬∀ (t : TimeoutLine) (s : Shell), RunsCommand t s := by
  intro always
  obtain ⟨base, cmd, object, executes, same⟩ := always timeoutEleven (start 0)
  obtain ⟨-, rfl⟩ := (timeoutEleven.object_iff base).mp object
  have split : timeoutEleven.duration = [] ++ '1' :: ['1'] := by decide +kernel
  have last : timeoutEleven.duration.getLast? = some '1' := by decide +kernel
  rw [timeoutExecute_runs timeoutEleven (start 0) last split nofun] at executes
  obtain ⟨-, rfl⟩ := TimeoutOutcome.runs.inj (Option.some.inj executes)
  exact absurd ((runs_command_iff timeoutEleven (by decide)).mp same) (by decide)

end OperatingSystems.Smash
