import OperatingSystems.Texts

/-!
# Command lines of `smash`

`CreateCommand` finds out from the text of a line which command it is. The
constructor of `Command` keeps the line, removes its background sign for most
commands, and splits it into words. The words go into an array whose last place
is for a null pointer; with more words than fit the constructor writes behind
the array, and nothing has a result from there on.

A position is converted to `int` in places. The language does not say what
becomes of a position that `int` cannot hold, so there is no result either.
-/

namespace OperatingSystems.Smash

open Texts

/-- `COMMAND_MAX_ARGS`. -/
def commandMaxArgs : Nat := 20

/-- `_ltrim`. `WHITESPACE` holds the characters of `isspace`. -/
def ltrim (s : Text) : Text :=
  match s.findIdx? (!isSpace ·) with
  | none => []
  | some start => s.drop start

/-- `_rtrim`. -/
def rtrim (s : Text) : Text :=
  match findLast (!isSpace ·) s with
  | none => []
  | some last => s.take (last + 1)

/-- `_trim`. -/
def trim (s : Text) : Text := rtrim (ltrim s)

/-- `_parseCommandLine`. -/
def parseCommandLine (cmdLine : Text) : Option (List Text) :=
  let args := words isSpace (trim cmdLine)
  if args.length < commandMaxArgs then some args else none

/-- `_isBackgroundCommand`, which looks at position `npos` of a blank line. -/
def isBackgroundCommand (cmdLine : Text) : Option Bool := do
  let last ← findLast (!isSpace ·) cmdLine
  some (cmdLine[last]? == some '&')

/-- `_removeBackgroundSign`. Its position has 32 bits and is never `npos`; on a
blank line it leads behind the line. -/
def removeBackgroundSign (cmdLine : Text) : Option Text :=
  let idx := ((findLast (!isSpace ·) cmdLine).getD (2 ^ 64 - 1)) % 2 ^ 32
  if cmdLine.length < idx then none
  else if cmdLine[idx]? ≠ some '&' then some cmdLine
  else
    -- The text searched here still has the sign.
    let last := findLast (!isSpace ·) (cmdLine.take (idx + 1))
    some ((cmdLine.set idx ' ').take (last.elim 0 (· + 1)))

/-- The fields of a `Command` that come from its line. -/
structure CommandObject where
  args : List Text
  cmdLineConst : Text
  cmdLine : Text
deriving DecidableEq, Repr

/-- The constructor of `Command`. -/
def commandObject (cmdLineConst : Text) (ignoreAmpersand : Bool) : Option CommandObject := do
  let cmdLine ← if ignoreAmpersand then removeBackgroundSign cmdLineConst else some cmdLineConst
  let args ← parseCommandLine cmdLine
  some ⟨args, cmdLineConst, cmdLine⟩

/-- A position as an `int`. -/
def toInt (position : Nat) : Option Nat := if position < 2 ^ 31 then some position else none

/-- Erase from the last `&` on. -/
def eraseSign (part : Text) : Text :=
  match findLast (· = '&') part with
  | some it => part.take it
  | none => part

/-- The commands whose class is `BuiltInCommand`. -/
inductive BuiltIn where
  | pwd | chprompt | showpid | quit | cd | jobs | kill | fg | bg | tail | touch
deriving DecidableEq, Repr

/-- What `CreateCommand` makes of a line. -/
inductive Created where
  | redirection (base : CommandObject) (cmd filePath : Text) (append : Bool)
  | pipe (base : CommandObject) (cmd1 cmd2 : Text) (redirErr : Bool)
  | builtIn (name : BuiltIn) (base : CommandObject)
  | timeout (base : CommandObject)
  | external (base : CommandObject) (isInBg : Bool)
deriving DecidableEq, Repr

/-- The constructor of `RedirectionCommand`. -/
def redirectionCommand (cmdLine : Text) : Option Created := do
  let base ← commandObject cmdLine true
  let arrowIndex ← (cmdLine.findIdx? (· = '>')).bind toInt
  let next ← toInt (arrowIndex + 1)
  let append := cmdLine[next]? == some '>'
  let filePathStart ← toInt (arrowIndex + if append then 2 else 1)
  let cmd := cmdLine.take arrowIndex
  let filePath := trim (cmdLine.drop filePathStart)
  some (.redirection base (eraseSign cmd) filePath append)

/-- The constructor of `PipeCommand`. -/
def pipeCommand (cmdLine : Text) : Option Created := do
  let base ← commandObject cmdLine true
  let pipeIndex ← (cmdLine.findIdx? (· = '|')).bind toInt
  let next ← toInt (pipeIndex + 1)
  let redirErr := cmdLine[next]? == some '&'
  let cmd2Start ← toInt (pipeIndex + if redirErr then 2 else 1)
  let cmd1 := cmdLine.take pipeIndex
  let cmd2 := cmdLine.drop cmd2Start
  some (.pipe base (eraseSign cmd1) (eraseSign cmd2) redirErr)

/-- The first words of the built-in commands. -/
def builtIns : List (Text × BuiltIn) :=
  [("pwd".toList, .pwd), ("chprompt".toList, .chprompt), ("showpid".toList, .showpid),
    ("quit".toList, .quit), ("cd".toList, .cd), ("jobs".toList, .jobs), ("kill".toList, .kill),
    ("fg".toList, .fg), ("bg".toList, .bg), ("tail".toList, .tail), ("touch".toList, .touch)]

/-- `SmallShell::CreateCommand`. -/
def createCommand (cmdLine : Text) : Option Created :=
  let cmdS := trim cmdLine
  let firstWord := cmdS.take ((cmdS.findIdx? (· ∈ [' ', '\n'])).getD cmdS.length)
  if '>' ∈ cmdS then redirectionCommand cmdLine
  else if '|' ∈ cmdS then pipeCommand cmdLine
  else
    match builtIns.lookup firstWord with
    | some name => (commandObject cmdLine true).map (.builtIn name)
    | none =>
      if firstWord = "timeout".toList then (commandObject cmdLine false).map .timeout
      else do
        let base ← commandObject cmdLine false
        let isInBg ← isBackgroundCommand cmdLine
        some (.external base isInBg)

variable {s front back tail : Text} {c : Char}

/-- `_ltrim` removes the blanks at the start. -/
theorem ltrim_eq (s : Text) : ltrim s = s.dropWhile isSpace := by
  unfold ltrim
  induction s with
  | nil => rfl
  | cons c s inductionHypothesis =>
    by_cases blank : isSpace c = true
    · rw [List.dropWhile_cons_of_pos blank, ← inductionHypothesis, List.findIdx?_cons]
      cases s.findIdx? (!isSpace ·) <;> simp [blank]
    · simp [List.findIdx?_cons, blank]

/-- `_rtrim` removes the blanks at the end. -/
theorem rtrim_eq (s : Text) : rtrim s = s.rdropWhile isSpace := by
  unfold rtrim
  by_cases some : ∃ c ∈ s, (!isSpace c) = true
  · obtain ⟨front, c, back, rfl, solid, blank⟩ := exists_last some
    rw [findLast_append_cons (p := (!isSpace ·)) solid blank,
      rdropWhile_append_cons (by simpa using solid) fun d member => by simpa using blank d member]
    simp [List.take_append]
  · have blank : ∀ c ∈ s, isSpace c = true := by simpa using some
    rw [findLast_eq_none.mpr fun c member => by simp [blank c member]]
    exact (List.rdropWhile_eq_nil_iff.mpr blank).symm

/-- `_trim` keeps the words. -/
theorem words_trim (s : Text) : words isSpace (trim s) = words isSpace s := by
  unfold trim
  have start : ∀ c ∈ s.takeWhile isSpace, isSpace c = true := fun c => List.mem_takeWhile_imp
  calc words isSpace (rtrim (ltrim s))
      = words isSpace (s.dropWhile isSpace) := by rw [rtrim_eq, words_rdropWhile, ltrim_eq]
    _ = words isSpace (s.takeWhile isSpace ++ s.dropWhile isSpace) := by rw [words_blank_append start]
    _ = words isSpace s := by rw [List.takeWhile_append_dropWhile]

/-- `_trim` keeps every character that is not blank. -/
theorem mem_trim (solid : isSpace c = false) : c ∈ trim s ↔ c ∈ s := by
  have start : c ∉ s.takeWhile isSpace := fun member => by
    simp [List.mem_takeWhile_imp member] at solid
  have finish : c ∉ (ltrim s).rtakeWhile isSpace := fun member => by
    simp [List.mem_rtakeWhile_imp member] at solid
  calc c ∈ trim s
      ↔ c ∈ (ltrim s).rdropWhile isSpace ++ (ltrim s).rtakeWhile isSpace := by
        rw [List.mem_append, or_iff_left finish, trim, rtrim_eq]
    _ ↔ c ∈ s.takeWhile isSpace ++ s.dropWhile isSpace := by
        rw [List.rdropWhile_append_rtakeWhile, List.mem_append, or_iff_right start, ltrim_eq]
    _ ↔ c ∈ s := by rw [List.takeWhile_append_dropWhile]

/-- A line that ends in a text without signs keeps all its characters. -/
theorem removeBackgroundSign_tail (front : Text) (solid : ∃ c ∈ tail, isSpace c = false) (plain : '&' ∉ tail)
    (short : (front ++ tail).length < 2 ^ 31) : removeBackgroundSign (front ++ tail) = some (front ++ tail) := by
  obtain ⟨ahead, c, blanks, rfl, isSolid, blank⟩ :=
    exists_last (p := (!isSpace ·)) (solid.imp fun c found => ⟨found.1, by simp [found.2]⟩)
  have last : findLast (!isSpace ·) (front ++ (ahead ++ c :: blanks)) = some (front ++ ahead).length := by
    rw [← List.append_assoc]
    exact findLast_append_cons (p := (!isSpace ·)) isSolid blank
  have other : c ≠ '&' := by
    rintro rfl
    simp at plain
  have small : (front ++ ahead).length % 2 ^ 32 = (front ++ ahead).length := by
    refine Nat.mod_eq_of_lt ?_
    simp only [List.length_append, List.length_cons] at short ⊢
    omega
  unfold removeBackgroundSign
  simp only [last, Option.getD_some, small]
  rw [if_neg (by simp), ← List.append_assoc, if_pos (by simpa using other)]

/-- The constructor of `Command` keeps such a line and finds its words, if they are few. -/
theorem commandObject_tail (front : Text) (solid : ∃ c ∈ tail, isSpace c = false) (plain : '&' ∉ tail)
    (few : (words isSpace (front ++ tail)).length < commandMaxArgs)
    (short : (front ++ tail).length < 2 ^ 31) : commandObject (front ++ tail) true =
      some ⟨words isSpace (front ++ tail), front ++ tail, front ++ tail⟩ := by
  simp [commandObject, removeBackgroundSign_tail front solid plain short, parseCommandLine, words_trim, few]

end OperatingSystems.Smash
