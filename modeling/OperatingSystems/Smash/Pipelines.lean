import OperatingSystems.Smash.Redirection
import OperatingSystems.Smash.Operators

/-!
# Pipelines

`PipeCommand::execute` opens a pipe and forks twice. Each child puts one end of the
pipe in the place of a standard descriptor, closes both ends, and executes one half
of the line, which for the second child may be a pipe again. The shell closes both
ends and waits.

The results of `dup2`, `close` and `fork` are not looked at. A pipe is named by how
many forks there are between the shell and the process that opens it: the first
command of a pipe never is a pipe, so that each name is given once.
-/

namespace OperatingSystems.Smash

open Texts Descriptors

variable {File : Type}

/-- What a descriptor may be open for: a file, or one end of a pipe. -/
inductive Opened (File : Type) where
  | file (f : File)
  | reads (pipe : Nat)
  | writes (pipe : Nat)
deriving DecidableEq, Repr

/-- `STDIN`. -/
def stdinFd : Nat := 0

/-- `STDERR`. -/
def stderrFd : Nat := 2

/-- What is decided from outside: how the calls of `prepare` go, which forks of a pipe
succeed, and which descriptors a command without operators leaves, if its process
goes on. -/
structure Outside (File : Type) where
  calls : PrepareCalls File
  forks : Nat → Bool × Bool
  leaves : Text → Table (Opened File) → Option (Table (Opened File))

/-- The calls of `prepare`, where the file is one of those a descriptor may be open for. -/
def Outside.prepareCalls (outside : Outside File) : PrepareCalls (Opened File) where
  dupFails := outside.calls.dupFails
  closing := outside.calls.closing
  openFails := outside.calls.openFails
  opened filePath append := .file (outside.calls.opened filePath append)

/-- The commands without operators that a line executes, each with the descriptors it
finds; the descriptors of the shells that wait for a pipe in the meantime; and those
of the shell itself afterwards, if it goes on. -/
structure Executed (File : Type) where
  commands : List (Text × Table (Opened File))
  waiting : List (Table (Opened File))
  table : Option (Table (Opened File))

/-- A process closes both ends of a pipe. -/
def closeEnds (rd wr : Nat) (table : Table (Opened File)) : Table (Opened File) :=
  (close .succeeds wr (close .succeeds rd table).2).2

/-- A child of a pipe: it puts an end in the place of a descriptor and closes both. -/
def child (old fd rd wr : Nat) (table : Table (Opened File)) : Table (Opened File) :=
  closeEnds rd wr (dup2 (some old) fd table).2

/-- The descriptor whose place the writing end takes. -/
def outputFd (redirErr : Bool) : Nat := if redirErr then stderrFd else stdoutFd

/-- What the child of a fork executes, if there is a child. -/
def ofFork (succeeds : Bool) (executed : Option (Executed File)) : Option (Executed File) :=
  if succeeds then executed else some ⟨[], [], none⟩

/-- `SmallShell::executeCommand`, with `RedirectionCommand::execute` and
`PipeCommand::execute`, in a process that is so many forks away from the shell. -/
def executeLine (outside : Outside File) :
    Nat → Nat → Text → Table (Opened File) → Option (Executed File)
  | 0, _, _, _ => none
  | fuel + 1, depth, cmdLine, table =>
    match createCommand cmdLine with
    | none => none
    | some (.redirection _ cmd filePath append) =>
      let prepared := prepare outside.prepareCalls cmd filePath append table
      (executeLine outside fuel depth prepared.cmd prepared.table).map fun done =>
        { done with table := done.table.map fun table => (cleanup prepared.newFileDescriptor table).2 }
    | some (.pipe _ cmd1 cmd2 redirErr) => do
      let (rd, wr, opened) ← openPair (.reads depth) (.writes depth) table
      let left ← ofFork (outside.forks depth).1 <|
        executeLine outside fuel (depth + 1) cmd1 (child wr (outputFd redirErr) rd wr opened)
      let right ← ofFork (outside.forks depth).2 <|
        executeLine outside fuel (depth + 1) cmd2 (child rd stdinFd rd wr opened)
      let closed := closeEnds rd wr opened
      some ⟨left.commands ++ right.commands, closed :: (left.waiting ++ right.waiting), some closed⟩
    | some _ => some ⟨[(cmdLine, table)], [], outside.leaves cmdLine table⟩

/-- A command of a pipeline: a text with a word and without operators and signs. -/
structure Stage where
  text : Text
  plain : ∀ c ∈ text, c ≠ '|' ∧ c ≠ '>' ∧ c ≠ '&'
  solid : ∃ c ∈ text, isSpace c = false

/-- A command and those behind it, each with whether `|&` stands in front of it. -/
def pipelineText (stage : Stage) : List (Bool × Stage) → Text
  | [] => stage.text
  | (redirErr, next) :: rest =>
    stage.text ++ '|' :: ((if redirErr then ['&'] else []) ++ pipelineText next rest)

/-- Commands with pipes between them, whose output may be redirected: appended or
not, to a path. -/
structure Pipeline where
  first : Stage
  rest : List (Bool × Stage)
  redirection : Option (Bool × Text)
  several : rest ≠ []
  plain : ∀ target ∈ redirection, '&' ∉ target.2 ∧ '>' ∉ target.2

/-- The text of the line. -/
def Pipeline.line (p : Pipeline) : Text :=
  pipelineText p.first p.rest ++
    p.redirection.elim [] fun target => '>' :: ((if target.1 then ['>'] else []) ++ target.2)

/-- The texts of the commands. -/
def Pipeline.texts (p : Pipeline) : List Text := p.first.text :: p.rest.map fun further => further.2.text

/-- Behind the first pipe, and in front of a redirection, there is no `|&`. -/
def Pipeline.Proper (p : Pipeline) : Prop :=
  ∀ further ∈ if p.redirection.isSome then p.rest else p.rest.tail, further.1 = false

instance (p : Pipeline) : Decidable p.Proper := inferInstanceAs (Decidable (∀ _ ∈ _, _))

/-- The descriptors that a pipeline starts from: those of the shell, or those with `STDOUT`
saved under the lowest free one and the file in its place. -/
def Pipeline.outer (p : Pipeline) (outside : Outside File) (table : Table (Opened File)) :
    Table (Opened File) :=
  match p.redirection, lowest table with
  | some (append, filePath), some saved => (table.set saved (file table stdoutFd)).set stdoutFd
      (some (.file (outside.calls.opened (trim filePath) append)))
  | _, _ => table

/-- What the command in a place of the pipeline finds under a descriptor: an end of the pipe
behind it, an end of the pipe in front of it, or what the pipeline starts from. -/
def finds (depth : Nat) (outer : Table (Opened File)) (rest : List (Bool × Stage)) (i fd : Nat) :
    Option (Opened File) :=
  if (rest[i]?).map (fun further => outputFd further.1) = some fd then some (.writes (depth + i))
  else if 0 < i ∧ fd = stdinFd then some (.reads (depth + i - 1))
  else file outer fd

/-- The standard descriptors are open. -/
def Standard (table : Table File) : Prop := ∀ fd ≤ stderrFd, file table fd ≠ none

section Ends

variable {table : Table (Opened File)} {rd wr fd : Nat} {opened : Opened File}

/-- Closing both ends of a pipe gives up the descriptors that it was opened under. -/
theorem closeEnds_open (free : table[rd]? = some none) (spare : table[wr]? = some none) (apart : rd ≠ wr)
    (reads writes : Opened File) :
    closeEnds rd wr ((table.set rd (some reads)).set wr (some writes)) = table := by
  have still : (table.set wr (some writes))[rd]? = some none := by simpa [apart.symm] using free
  rw [closeEnds, List.set_comm _ _ apart, close_taken still, close_taken spare]

/-- A child finds the end of the pipe under the descriptor, and what the shell has under
the others. -/
theorem child_connects (free : table[rd]? = some none) (spare : table[wr]? = some none) (apart : rd ≠ wr)
    (here : file table fd ≠ none) (reads writes : Opened File) :
    child wr fd rd wr ((table.set rd (some reads)).set wr (some writes)) = table.set fd (some writes) ∧
      child rd fd rd wr ((table.set rd (some reads)).set wr (some writes)) = table.set fd (some reads) := by
  obtain ⟨f, open_⟩ := Option.ne_none_iff_exists'.mp here
  have inside := lt_of_file open_
  have notRd : fd ≠ rd := by
    rintro rfl
    simp [file_eq open_] at free
  have notWr : fd ≠ wr := by
    rintro rfl
    simp [file_eq open_] at spare
  have room := (List.getElem?_eq_some_iff.mp free).1
  have space := (List.getElem?_eq_some_iff.mp spare).1
  have moved (new : Opened File) : ((table.set rd (some reads)).set wr (some writes)).set fd (some new) =
      ((table.set fd (some new)).set rd (some reads)).set wr (some writes) := by
    rw [List.set_comm _ _ notWr.symm, List.set_comm _ _ notRd.symm]
  have closes (new : Opened File) :
      closeEnds rd wr (((table.set rd (some reads)).set wr (some writes)).set fd (some new)) =
        table.set fd (some new) := by
    rw [moved]
    exact closeEnds_open (by simpa [notRd] using free) (by simpa [notWr] using spare) apart _ _
  have write : file ((table.set rd (some reads)).set wr (some writes)) wr = some writes :=
    file_set_self (by simpa using space) _
  have read : file ((table.set rd (some reads)).set wr (some writes)) rd = some reads := by
    rw [file_set_ne apart.symm, file_set_self room]
  constructor
  · simp [child, dup2, write, inside, closes]
  · simp [child, dup2, read, inside, closes]

end Ends

section Execution

variable {outside : Outside File} {fuel depth : Nat} {cmdLine cmd1 cmd2 : Text} {base : CommandObject}
  {redirErr : Bool} {table : Table (Opened File)}

theorem Standard.set (standard : Standard table) (fd : Nat) (opened : Opened File) :
    Standard (table.set fd (some opened)) := by
  intro other small
  by_cases same : fd = other
  · subst same
    obtain ⟨f, here⟩ := Option.ne_none_iff_exists'.mp (standard fd small)
    rw [file_set_self (lt_of_file here)]
    exact Option.some_ne_none _
  · rw [file_set_ne same]
    exact standard other small

theorem outputFd_le (redirErr : Bool) : outputFd redirErr ≤ stderrFd := by cases redirErr <;> decide

/-- A pipe executes its commands with its ends in their places, and leaves the
descriptors of the process as they were. -/
theorem executeLine_pipe (made : createCommand cmdLine = some (.pipe base cmd1 cmd2 redirErr))
    (standard : Standard table) (roomy : 2 ≤ room table) :
    executeLine outside (fuel + 1) depth cmdLine table = (do
      let left ← ofFork (outside.forks depth).1 <|
        executeLine outside fuel (depth + 1) cmd1 (table.set (outputFd redirErr) (some (.writes depth)))
      let right ← ofFork (outside.forks depth).2 <|
        executeLine outside fuel (depth + 1) cmd2 (table.set stdinFd (some (.reads depth)))
      some ⟨left.commands ++ right.commands, table :: (left.waiting ++ right.waiting), some table⟩) := by
  obtain ⟨rd, wr, opens, free, spare, apart⟩ := openPair_opens (.reads depth) (.writes depth) roomy
  have output := (child_connects free spare apart (standard _ (outputFd_le redirErr)) (.reads depth)
    (.writes depth)).1
  have input := (child_connects free spare apart (standard _ (show stdinFd ≤ stderrFd by decide))
    (.reads depth) (.writes depth)).2
  rw [executeLine, made]
  simp only [opens, Option.bind_eq_bind, Option.bind_some, output, input,
    closeEnds_open free spare apart]

end Execution

section Cutting

variable {front back tail text : Text} {operator : Char} {stage next : Stage} {rest : List (Bool × Stage)}
  {redirErr : Bool}

theorem cut_at (first : operator ∉ front) (back : Text) :
    before operator (front ++ operator :: back) = front ∧ after operator (front ++ operator :: back) = back := by
  have other : ∀ c ∈ front, decide (c ≠ operator) = true := fun c member =>
    decide_eq_true (ne_of_mem_of_not_mem member first)
  constructor
  · rw [before, List.takeWhile_append_of_pos other]
    simp
  · rw [after, List.dropWhile_append_of_pos other]
    simp

theorem eraseSign_none (plain : '&' ∉ text) : eraseSign text = text := by
  have absent : ∀ c ∈ text, decide (c = '&') = false := fun c member =>
    decide_eq_false (ne_of_mem_of_not_mem member plain)
  rw [eraseSign, findLast_eq_none.mpr absent]

theorem eraseSign_cut (front : Text) (plain : '&' ∉ back) : eraseSign (front ++ '&' :: back) = front := by
  have absent : ∀ c ∈ back, decide (c = '&') = false := fun c member =>
    decide_eq_false (ne_of_mem_of_not_mem member plain)
  rw [eraseSign, findLast_append_cons (by simp) absent]
  simp

/-- The sign is looked for in the end of a text where there is one. -/
theorem eraseSign_append (front : Text) (sign : '&' ∈ back) :
    eraseSign (front ++ back) = front ++ eraseSign back := by
  obtain ⟨ahead, c, behind, rfl, here, later⟩ := exists_last (p := (· = '&')) ⟨'&', sign, by simp⟩
  obtain rfl : c = '&' := by simpa using here
  have absent : '&' ∉ behind := fun member => by simpa using later '&' member
  rw [← List.append_assoc, eraseSign_cut _ absent, eraseSign_cut _ absent]

/-- There is no redirection in a pipeline. -/
theorem pipelineText_noArrow (stage : Stage) (rest : List (Bool × Stage)) : '>' ∉ pipelineText stage rest := by
  induction rest generalizing stage with
  | nil => exact fun member => (stage.plain _ member).2.1 rfl
  | cons further rest inductionHypothesis =>
    obtain ⟨redirErr, next⟩ := further
    have here : '>' ∉ stage.text := fun member => (stage.plain _ member).2.1 rfl
    cases redirErr <;> simp [pipelineText, here, inductionHypothesis next]

/-- There is no sign in it exactly when there is no `|&`. -/
theorem pipelineText_unsigned (stage : Stage) (rest : List (Bool × Stage)) :
    '&' ∉ pipelineText stage rest ↔ ∀ further ∈ rest, further.1 = false := by
  induction rest generalizing stage with
  | nil => exact iff_of_true (fun member => (stage.plain _ member).2.2 rfl) nofun
  | cons further rest inductionHypothesis =>
    obtain ⟨redirErr, next⟩ := further
    have here : '&' ∉ stage.text := fun member => (stage.plain _ member).2.2 rfl
    have later := inductionHypothesis next
    cases redirErr with
    | true => simp [pipelineText]
    | false => simpa [pipelineText, here] using later

/-- It ends in its last command. -/
theorem pipelineText_ends (stage : Stage) (rest : List (Bool × Stage)) :
    ∃ (front : Text) (last : Stage), pipelineText stage rest = front ++ last.text := by
  induction rest generalizing stage with
  | nil => exact ⟨[], stage, rfl⟩
  | cons further rest inductionHypothesis =>
    obtain ⟨front, last, ends⟩ := inductionHypothesis further.2
    exact ⟨stage.text ++ '|' :: ((if further.1 then ['&'] else []) ++ front), last, by
      simp [pipelineText, ends]⟩

/-- The first command and the rest of a pipeline are parts of it. -/
theorem pipelineText_parts (stage next : Stage) (redirErr : Bool) (rest : List (Bool × Stage)) :
    stage.text <:+: pipelineText stage ((redirErr, next) :: rest) ∧
      pipelineText next rest <:+: pipelineText stage ((redirErr, next) :: rest) := by
  refine ⟨(List.prefix_append _ _).isInfix, List.IsSuffix.isInfix ?_⟩
  exact ⟨stage.text ++ '|' :: if redirErr then ['&'] else [], by simp [pipelineText]⟩

theorem pipelineText_ne_nil (stage : Stage) (rest : List (Bool × Stage)) : pipelineText stage rest ≠ [] := by
  obtain ⟨_, member, _⟩ := stage.solid
  cases rest <;> simp [pipelineText, List.ne_nil_of_mem member]

/-- No pipeline starts with a sign. -/
theorem pipelineText_starts (stage : Stage) (rest : List (Bool × Stage)) (tail : Text) :
    (pipelineText stage rest ++ tail).head? ≠ some '&' := by
  obtain ⟨_, member, _⟩ := stage.solid
  obtain ⟨c, more, starts⟩ := List.exists_cons_of_ne_nil (List.ne_nil_of_mem member)
  have other := (stage.plain c (by simp [starts])).2.2
  cases rest <;> simp [pipelineText, starts, other]

/-- What the constructors find at the first pipe of a pipeline, whatever follows. -/
theorem pipelineText_cut (stage next : Stage) (redirErr : Bool) (rest : List (Bool × Stage)) (tail : Text) :
    before '|' (pipelineText stage ((redirErr, next) :: rest) ++ tail) = stage.text ∧
      behind '|' '&' (pipelineText stage ((redirErr, next) :: rest) ++ tail) = pipelineText next rest ++ tail ∧
      (Doubled '|' '&' (pipelineText stage ((redirErr, next) :: rest) ++ tail) ↔ redirErr = true) := by
  have first : '|' ∉ stage.text := fun member => (stage.plain _ member).1 rfl
  have whole : pipelineText stage ((redirErr, next) :: rest) ++ tail =
      stage.text ++ '|' :: ((if redirErr then ['&'] else []) ++ (pipelineText next rest ++ tail)) := by
    simp [pipelineText]
  obtain ⟨ahead, behind_⟩ := cut_at first ((if redirErr then ['&'] else []) ++ (pipelineText next rest ++ tail))
  have starts := pipelineText_starts next rest tail
  simp only [whole, behind, Doubled, ahead, behind_]
  cases redirErr with
  | true => simp
  | false =>
    rw [if_neg Bool.false_ne_true, List.nil_append, if_neg starts]
    simpa using starts

/-- A pipeline without signs in a line that is short enough is cut at its first pipe. -/
theorem createCommand_pipeline (stage next : Stage) (redirErr : Bool) (rest : List (Bool × Stage))
    (few : (words isSpace (pipelineText stage ((redirErr, next) :: rest))).length < commandMaxArgs)
    (short : (pipelineText stage ((redirErr, next) :: rest)).length < 2 ^ 31) :
    ∃ base, createCommand (pipelineText stage ((redirErr, next) :: rest)) =
      some (.pipe base stage.text (eraseSign (pipelineText next rest)) redirErr) := by
  obtain ⟨ahead, second, doubled⟩ := pipelineText_cut stage next redirErr rest []
  rw [List.append_nil] at ahead second doubled
  obtain ⟨front, last, ends⟩ := pipelineText_ends stage ((redirErr, next) :: rest)
  have plain : '&' ∉ last.text := fun member => (last.plain _ member).2.2 rfl
  have sign : '&' ∉ stage.text := fun member => (stage.plain _ member).2.2 rfl
  obtain ⟨base, object⟩ : ∃ base, commandObject (front ++ last.text) true = some base :=
    ⟨_, commandObject_tail front last.solid plain (ends ▸ few) (ends ▸ short)⟩
  have noArrow : '>' ∉ trim (pipelineText stage ((redirErr, next) :: rest)) :=
    mt (mem_trim (by decide)).mp (pipelineText_noArrow stage _)
  have pipe : '|' ∈ pipelineText stage ((redirErr, next) :: rest) := by simp [pipelineText]
  have reach : Reachable '|' '&' (pipelineText stage ((redirErr, next) :: rest)) := by
    have size : (pipelineText stage ((redirErr, next) :: rest)).length =
        stage.text.length + 1 + (if redirErr then 1 else 0) + (pipelineText next rest).length := by
      cases redirErr <;> simp +arith [pipelineText]
    have longer : 0 < (pipelineText next rest).length := List.length_pos_iff.mpr (pipelineText_ne_nil next rest)
    unfold Reachable
    simp only [ahead, doubled]
    by_cases err : redirErr = true
    · rw [if_pos err] at size ⊢
      omega
    · rw [if_neg err] at size ⊢
      omega
  rw [createCommand, if_neg noArrow, if_pos ((mem_trim (by decide)).mpr pipe), pipeCommand_eq pipe, if_pos reach,
    ends, object, ← ends, ahead, second, eraseSign_none sign]
  exact ⟨base, by simp [doubled]⟩

/-- A command is executed with the descriptors of its process. -/
theorem executeLine_stage (outside : Outside File) (fuel depth : Nat) (stage : Stage)
    (table : Table (Opened File)) (few : (words isSpace stage.text).length < commandMaxArgs)
    (short : stage.text.length < 2 ^ 31) : executeLine outside (fuel + 1) depth stage.text table =
      some ⟨[(stage.text, table)], [], outside.leaves stage.text table⟩ := by
  have noArrow : '>' ∉ trim stage.text := mt (mem_trim (by decide)).mp fun member =>
    (stage.plain _ member).2.1 rfl
  have noPipe : '|' ∉ trim stage.text := mt (mem_trim (by decide)).mp fun member =>
    (stage.plain _ member).1 rfl
  have plain : '&' ∉ stage.text := fun member => (stage.plain _ member).2.2 rfl
  have object := commandObject_tail [] stage.solid plain few short
  have kept : commandObject stage.text false =
      some ⟨words isSpace stage.text, stage.text, stage.text⟩ := by
    simp [commandObject, parseCommandLine, words_trim, few]
  obtain ⟨last, found⟩ : ∃ last, findLast (!isSpace ·) stage.text = some last := by
    refine Option.ne_none_iff_exists'.mp fun none => ?_
    obtain ⟨c, member, solid⟩ := stage.solid
    have blank : (!isSpace c) = false := findLast_eq_none.mp none c member
    simp [solid] at blank
  rw [List.nil_append] at object
  unfold executeLine createCommand
  rw [if_neg noArrow, if_neg noPipe]
  cases builtIns.lookup _ with
  | some name => simp only [object, Option.map_some]
  | none =>
    by_cases timed : (trim stage.text).take (((trim stage.text).findIdx? (· ∈ [' ', '\n'])).getD
        (trim stage.text).length) = "timeout".toList
    · simp only [if_pos timed, kept, Option.map_some]
    · simp only [if_neg timed, kept, isBackgroundCommand, found, Option.bind_eq_bind, Option.bind_some]

end Cutting

section Running

variable {outside : Outside File} {depth : Nat} {stage next : Stage} {rest : List (Bool × Stage)}
  {table : Table (Opened File)} {done : Executed File}

/-- The commands of a pipeline with the descriptors they are to find. -/
def wire (depth : Nat) (table : Table (Opened File)) (stage : Stage) :
    List (Bool × Stage) → List (Text × Table (Opened File))
  | [] => [(stage.text, table)]
  | (redirErr, next) :: rest =>
    (stage.text, table.set (outputFd redirErr) (some (.writes depth))) ::
      wire (depth + 1) (table.set stdinFd (some (.reads depth))) next rest

/-- What a pipeline comes to: of its commands, those that the forks allowed were executed as
they were to be, no shell has a writing end while it waits, and none loses a descriptor. -/
structure Carried (outside : Outside File) (depth : Nat) (table : Table (Opened File)) (stage : Stage)
    (rest : List (Bool × Stage)) (done : Executed File) : Prop where
  some_ : done.commands.Sublist (wire depth table stage rest)
  all : (∀ depth, outside.forks depth = (true, true)) → done.commands = wire depth table stage rest
  waiting : ∀ shell ∈ done.waiting, ∀ fd k, file shell fd = some (.writes k) → file table fd = some (.writes k)
  kept : rest ≠ [] → done.table = some table

/-- A fork that succeeds loses nothing of what the child executes; one that fails executes
nothing. -/
theorem ofFork_cases (succeeds : Bool) (done : Executed File) :
    ∃ part, ofFork succeeds (some done) = some part ∧
      (part = done ∨ succeeds = false ∧ part = ⟨[], [], none⟩) := by
  cases succeeds with
  | true => exact ⟨done, rfl, Or.inl rfl⟩
  | false => exact ⟨_, rfl, Or.inr ⟨rfl, rfl⟩⟩

/-- A pipe carries out a pipeline when its second command carries out the rest. -/
theorem Carried.cons {left right : Executed File} {redirErr : Bool} {leaves : Option (Table (Opened File))}
    (standard : Standard table)
    (further : Carried outside (depth + 1) (table.set stdinFd (some (.reads depth))) next rest done)
    (first : left = ⟨[(stage.text, table.set (outputFd redirErr) (some (.writes depth)))], [], leaves⟩ ∨
      (outside.forks depth).1 = false ∧ left = ⟨[], [], none⟩)
    (second : right = done ∨ (outside.forks depth).2 = false ∧ right = ⟨[], [], none⟩) :
    Carried outside depth table stage ((redirErr, next) :: rest)
      ⟨left.commands ++ right.commands, table :: (left.waiting ++ right.waiting), some table⟩ where
  some_ := by
    have wired : wire depth table stage ((redirErr, next) :: rest) =
        [(stage.text, table.set (outputFd redirErr) (some (.writes depth)))] ++
          wire (depth + 1) (table.set stdinFd (some (.reads depth))) next rest := rfl
    rw [wired]
    refine List.Sublist.append ?_ ?_
    · rcases first with rfl | ⟨_, rfl⟩
      · exact List.Sublist.refl _
      · exact List.nil_sublist _
    · rcases second with rfl | ⟨_, rfl⟩
      · exact further.some_
      · exact List.nil_sublist _
  all forks := by
    obtain rfl := first.resolve_right (by simp [forks depth])
    obtain rfl := second.resolve_right (by simp [forks depth])
    simp [wire, further.all forks]
  waiting shell member fd k holds := by
    have noneLeft : left.waiting = [] := by rcases first with rfl | ⟨_, rfl⟩ <;> rfl
    rw [noneLeft, List.nil_append] at member
    rcases List.mem_cons.mp member with rfl | member
    · exact holds
    · obtain rfl := second.resolve_right (by rintro ⟨_, rfl⟩; simp at member)
      have held := further.waiting shell member fd k holds
      by_cases input : stdinFd = fd
      · -- The shell that waits further on has the reading end there.
        obtain ⟨f, here⟩ := Option.ne_none_iff_exists'.mp (standard stdinFd (by decide))
        rw [← input, file_set_self (lt_of_file here)] at held
        simp at held
      · rwa [file_set_ne input] at held
  kept _ := rfl

/-- A pipeline in which `|&` stands nowhere but at the first pipe is carried out. -/
theorem executeLine_carries (outside : Outside File) (stage : Stage) (rest : List (Bool × Stage))
    (pipes : ∀ further ∈ rest.tail, further.1 = false)
    (few : (words isSpace (pipelineText stage rest)).length < commandMaxArgs)
    (short : (pipelineText stage rest).length < 2 ^ 31) {fuel : Nat} (enough : rest.length < fuel)
    (depth : Nat) {table : Table (Opened File)} (standard : Standard table) (roomy : 2 ≤ room table) :
    ∃ done, executeLine outside fuel depth (pipelineText stage rest) table = some done ∧
      Carried outside depth table stage rest done := by
  induction rest generalizing stage fuel depth table with
  | nil =>
    obtain ⟨fuel, rfl⟩ := Nat.exists_eq_succ_of_ne_zero (Nat.ne_zero_of_lt enough)
    refine ⟨_, executeLine_stage outside fuel depth stage table few short, ?_⟩
    exact ⟨List.Sublist.refl _, fun _ => rfl, nofun, fun some => absurd rfl some⟩
  | cons further rest inductionHypothesis =>
    obtain ⟨redirErr, next⟩ := further
    rw [List.tail_cons] at pipes
    obtain ⟨fuel, rfl⟩ := Nat.exists_eq_succ_of_ne_zero (Nat.ne_zero_of_lt enough)
    have left : rest.length < fuel := Nat.lt_of_succ_lt_succ enough
    obtain ⟨fuel, rfl⟩ := Nat.exists_eq_succ_of_ne_zero (Nat.ne_zero_of_lt left)
    obtain ⟨inFirst, inRest⟩ := pipelineText_parts stage next redirErr rest
    obtain ⟨base, made⟩ := createCommand_pipeline stage next redirErr rest few short
    rw [eraseSign_none ((pipelineText_unsigned next rest).mpr pipes)] at made
    have input : stdinFd ≤ stderrFd := by decide
    obtain ⟨f, here⟩ := Option.ne_none_iff_exists'.mp (standard stdinFd input)
    obtain ⟨done, runs, carried⟩ := inductionHypothesis next
      (fun further member => pipes further (List.mem_of_mem_tail member))
      (Nat.lt_of_le_of_lt (length_words_le inRest) few) (Nat.lt_of_le_of_lt inRest.length_le short) left
      (depth + 1) (standard.set stdinFd (.reads depth)) (by rwa [room_replace here])
    rw [executeLine_pipe made standard roomy, runs, executeLine_stage outside fuel (depth + 1) stage _
      (Nat.lt_of_le_of_lt (length_words_le inFirst) few) (Nat.lt_of_le_of_lt inFirst.length_le short)]
    obtain ⟨left, isLeft, first⟩ := ofFork_cases (outside.forks depth).1 _
    obtain ⟨right, isRight, second⟩ := ofFork_cases (outside.forks depth).2 done
    rw [isLeft, isRight]
    exact ⟨_, rfl, carried.cons standard first second⟩

/-- The commands find what they are to find. -/
theorem wire_finds (depth : Nat) (standard : Standard table) (stage : Stage) (rest : List (Bool × Stage))
    {i : Nat} {command : Text × Table (Opened File)} (here : (wire depth table stage rest)[i]? = some command)
    (fd : Nat) : file command.2 fd = finds depth table rest i fd := by
  induction rest generalizing stage depth table i with
  | nil =>
    cases i with
    | zero =>
      obtain rfl := Option.some.inj here
      simp [finds]
    | succ i => simp [wire] at here
  | cons further rest inductionHypothesis =>
    obtain ⟨redirErr, next⟩ := further
    cases i with
    | zero =>
      obtain rfl := Option.some.inj here
      obtain ⟨f, output⟩ := Option.ne_none_iff_exists'.mp (standard _ (outputFd_le redirErr))
      by_cases same : outputFd redirErr = fd
      · simp [finds, same ▸ lt_of_file output, same]
      · simp [finds, same]
    | succ i =>
      rw [inductionHypothesis (depth + 1) (standard.set stdinFd _) next here]
      obtain ⟨f, input⟩ := Option.ne_none_iff_exists'.mp (standard stdinFd (by decide))
      have place : depth + 1 + i = depth + (i + 1) := by omega
      unfold finds
      rw [List.getElem?_cons_succ, place]
      split
      · rfl
      · by_cases same : fd = stdinFd
        · subst same
          cases i with
          | zero => simp [lt_of_file input]
          | succ i => simp
        · have apart : stdinFd ≠ fd := fun back => same back.symm
          simp [same, apart]

theorem wire_texts (depth : Nat) (table : Table (Opened File)) (stage : Stage) (rest : List (Bool × Stage)) :
    (wire depth table stage rest).map Prod.fst = stage.text :: rest.map fun further => further.2.text := by
  induction rest generalizing stage depth table with
  | nil => rfl
  | cons further rest inductionHypothesis => simp [wire, inductionHypothesis]

end Running

section Redirecting

variable {outside : Outside File} {table : Table (Opened File)} {stdout : Opened File}

/-- The calls of `prepare` succeed. -/
def PrepareCalls.Succeed (calls : PrepareCalls File) : Prop :=
  calls.dupFails = false ∧ calls.closing = .succeeds ∧ calls.openFails = false

/-- Then the file is in the place of `STDOUT`, which is saved. -/
theorem prepare_succeeds (succeed : outside.calls.Succeed) (cmd filePath : Text) (append : Bool)
    (here : file table stdoutFd = some stdout) {saved : Nat} (free : lowest table = some saved) :
    prepare outside.prepareCalls cmd filePath append table = ⟨some saved, cmd, none,
      (table.set saved (some stdout)).set stdoutFd (some (.file (outside.calls.opened filePath append)))⟩ := by
  obtain ⟨dups, closes, opens⟩ := succeed
  have empty := (lowest_spec free).1
  have apart : saved ≠ stdoutFd := by
    rintro rfl
    simp [file_eq here] at empty
  have kept : file (table.set saved (some stdout)) stdoutFd = some stdout := by
    rw [file_set_ne apart, here]
  have first : dup outside.prepareCalls.dupFails stdoutFd table = (some saved, table.set saved (some stdout)) := by
    simp [dup, here, free, Outside.prepareCalls, dups]
  have second : close outside.prepareCalls.closing stdoutFd (table.set saved (some stdout)) =
      (true, (table.set saved (some stdout)).set stdoutFd none) := by
    simp [close, kept, Outside.prepareCalls, closes]
  have third (opened : Opened File) :
      openFile outside.prepareCalls.openFails opened ((table.set saved (some stdout)).set stdoutFd none) =
        (some stdoutFd, (table.set saved (some stdout)).set stdoutFd (some opened)) := by
    simp [openFile, lowest_freed (lt_of_file kept) (below_stdout free), Outside.prepareCalls, opens]
  simp only [prepare, first, second, third]
  rfl

/-- A redirected pipeline is cut where its output is redirected. -/
theorem createCommand_redirected (p : Pipeline) {append : Bool} {filePath : Text}
    (target : p.redirection = some (append, filePath)) (few : (words isSpace p.line).length < commandMaxArgs)
    (short : p.line.length < 2 ^ 31) : ∃ base, createCommand p.line =
      some (.redirection base (eraseSign (pipelineText p.first p.rest)) (trim filePath) append) := by
  obtain ⟨noSign, noArrow⟩ := p.plain _ target
  have whole : p.line =
      pipelineText p.first p.rest ++ '>' :: ((if append then ['>'] else []) ++ filePath) := by
    rw [Pipeline.line, target]
    rfl
  have unsigned : '&' ∉ '>' :: ((if append then ['>'] else []) ++ filePath) := by
    cases append <;> simp [noSign]
  obtain ⟨base, object⟩ : ∃ base, commandObject p.line true = some base := by
    rw [whole] at few short ⊢
    exact ⟨_, commandObject_tail _ ⟨'>', List.mem_cons_self, by decide⟩ unsigned few short⟩
  obtain ⟨ahead, after_⟩ := cut_at (pipelineText_noArrow p.first p.rest)
    ((if append then ['>'] else []) ++ filePath)
  rw [← whole] at ahead after_
  have arrow : '>' ∈ p.line := by simp [whole]
  have starts : filePath.head? ≠ some '>' := fun first => noArrow (List.mem_of_head? first)
  have doubled : Doubled '>' '>' p.line ↔ append = true := by
    unfold Doubled
    rw [after_]
    cases append <;> simp [starts]
  have target : behind '>' '>' p.line = filePath := by
    unfold behind
    simp only [doubled, after_]
    cases append <;> simp
  have reach : Reachable '>' '>' p.line := by
    have size := congrArg List.length whole
    unfold Reachable
    simp only [ahead, doubled]
    cases append <;> simp at size ⊢ <;> omega
  rw [createCommand, if_pos ((mem_trim (by decide)).mpr arrow), redirectionCommand_eq arrow, if_pos reach, object,
    ahead, target]
  exact ⟨base, by simp [doubled]⟩

/-- A redirected line executes its command between the saving and the restoring of `STDOUT`. -/
theorem executeLine_redirected {fuel depth : Nat} {cmdLine cmd filePath : Text} {base : CommandObject}
    {append : Bool} (made : createCommand cmdLine = some (.redirection base cmd filePath append))
    (succeed : outside.calls.Succeed) (here : file table stdoutFd = some stdout) {saved : Nat}
    (free : lowest table = some saved) : executeLine outside (fuel + 1) depth cmdLine table =
      (executeLine outside fuel depth cmd ((table.set saved (some stdout)).set stdoutFd
        (some (.file (outside.calls.opened filePath append))))).map fun done =>
          { done with table := done.table.map fun table => (cleanup (some saved) table).2 } := by
  rw [executeLine, made]
  simp only [prepare_succeeds succeed cmd filePath append here free]

end Redirecting

/-- The descriptors of the shell, all of which are open for files. -/
def files (table : Table File) : Table (Opened File) := table.map (Option.map .file)

/-- The descriptors that have to be free: two for the ends of a pipe, and one for `STDOUT`. -/
def Pipeline.needs (p : Pipeline) : Nat := if p.redirection.isSome then 3 else 2

/-- A pipeline was carried out: the commands planned are those of the line in order, each finds
its descriptors connected to its neighbours, and only the command in front of a pipe has its
writing end. Those that the forks allow were executed so, no shell has a writing end while it
waits, and the descriptors of the shell are what they were. -/
structure Connected (outside : Outside File) (p : Pipeline) (shell : Table (Opened File))
    (plan : List (Text × Table (Opened File))) (done : Executed File) : Prop where
  texts : plan.map Prod.fst = p.texts
  connects : ∀ i : Nat, ∀ command ∈ plan[i]?, ∀ fd,
    file command.2 fd = finds 0 (p.outer outside shell) p.rest i fd
  writers : ∀ i : Nat, ∀ command ∈ plan[i]?, ∀ fd k, file command.2 fd = some (.writes k) → k = i
  executed : done.commands.Sublist plan
  all : (∀ depth, outside.forks depth = (true, true)) → done.commands = plan
  waiting : ∀ waits ∈ done.waiting, ∀ fd k, file waits fd ≠ some (.writes k)
  kept : done.table = some shell

section Lines

variable {outside : Outside File} {p : Pipeline} {table : Table File}

theorem file_files (table : Table File) (fd : Nat) : file (files table) fd = (file table fd).map .file := by
  unfold file files
  rw [List.getElem?_map]
  cases table[fd]? with
  | none => rfl
  | some here => cases here <;> rfl

theorem room_files (table : Table File) : room (files table) = room table := by
  rw [room, files, List.countP_map, room]
  congr 1
  funext here
  cases here <;> rfl

theorem Standard.files (standard : Standard table) : Standard (files table) := by
  intro fd small
  rw [file_files]
  simpa using standard fd small

/-- A pipeline starts from descriptors that are connected to no pipe. -/
theorem outer_plain (outside : Outside File) (p : Pipeline) (standard : Standard table) (fd k : Nat) :
    file (p.outer outside (files table)) fd ≠ some (.writes k) := by
  have plain (fd : Nat) : file (files table) fd ≠ some (.writes k) := by
    rw [file_files]
    cases file table fd <;> simp
  unfold Pipeline.outer
  split
  next append filePath saved target free =>
    have inside : saved < (files table).length := (List.getElem?_eq_some_iff.mp (lowest_spec free).1).1
    obtain ⟨f, here⟩ := Option.ne_none_iff_exists'.mp (standard.files stdoutFd (by decide))
    by_cases output : stdoutFd = fd
    · subst output
      rw [file_set_self (by simpa using lt_of_file here)]
      simp
    · rw [file_set_ne output]
      by_cases same : saved = fd
      · subst same
        rw [file_set_self inside]
        exact plain stdoutFd
      · rw [file_set_ne same]
        exact plain fd
  next => exact plain fd

theorem outer_redirected (outside : Outside File) {append : Bool} {filePath : Text}
    (target : p.redirection = some (append, filePath))
    {stdout : Opened File} (here : file (files table) stdoutFd = some stdout) {saved : Nat}
    (free : lowest (files table) = some saved) :
    p.outer outside (files table) =
      ((files table).set saved (some stdout)).set stdoutFd
        (some (.file (outside.calls.opened (trim filePath) append))) := by
  simp [Pipeline.outer, target, free, here]

/-- Where the descriptors suffice, those of a redirection leave room for the pipes. -/
theorem outer_room (outside : Outside File) (standard : Standard table) (roomy : p.needs ≤ room table) :
    Standard (p.outer outside (files table)) ∧ 2 ≤ room (p.outer outside (files table)) := by
  cases target : p.redirection with
  | none =>
    rw [Pipeline.needs, target, Option.isSome_none, if_neg Bool.false_ne_true] at roomy
    have outer : p.outer outside (files table) = files table := by simp [Pipeline.outer, target]
    rw [outer, room_files]
    exact ⟨standard.files, roomy⟩
  | some redirection =>
    rw [Pipeline.needs, target, Option.isSome_some, if_pos rfl] at roomy
    obtain ⟨stdout, here⟩ := Option.ne_none_iff_exists'.mp (standard.files stdoutFd (by decide))
    obtain ⟨saved, free⟩ : ∃ saved, lowest (files table) = some saved :=
      exists_lowest (by rw [room_files]; exact Nat.lt_of_lt_of_le (by decide) roomy)
    have empty := (lowest_spec free).1
    have apart : saved ≠ stdoutFd := by
      rintro rfl
      simp [file_eq here] at empty
    have still : file ((files table).set saved (some stdout)) stdoutFd = some stdout := by
      rw [file_set_ne apart, here]
    have less := room_set empty stdout
    rw [room_files] at less
    rw [outer_redirected outside target here free, room_replace still]
    exact ⟨(standard.files.set _ _).set _ _, by omega⟩

/-- What the carried out commands of a pipeline come to for its line. -/
theorem Carried.connected {done : Executed File}
    (carried : Carried outside 0 (p.outer outside (files table)) p.first p.rest done)
    (standard : Standard table) (open_ : Standard (p.outer outside (files table)))
    {kept : Option (Table (Opened File))} (back : kept = some (files table)) :
    Connected outside p (files table) (wire 0 (p.outer outside (files table)) p.first p.rest)
      { done with table := kept } where
  texts := wire_texts 0 _ p.first p.rest
  connects _ _ member fd := wire_finds 0 open_ p.first p.rest member fd
  writers i command member fd k holds := by
    rw [wire_finds 0 open_ p.first p.rest member fd, finds] at holds
    split at holds
    · simpa using holds.symm
    · split at holds
      · simp at holds
      · exact absurd holds (outer_plain outside p standard fd k)
  executed := carried.some_
  all := carried.all
  waiting waits member fd k holds :=
    outer_plain outside p standard fd k (carried.waiting waits member fd k holds)
  kept := back

end Lines

/-- A proper pipeline of few words is carried out, whichever forks fail. -/
theorem pipeline_carries (outside : Outside File) (p : Pipeline) (proper : p.Proper) (table : Table File)
    (standard : Standard table) (roomy : p.needs ≤ room table)
    (succeed : p.redirection.isSome → outside.calls.Succeed)
    (few : (words isSpace p.line).length < commandMaxArgs) (short : p.line.length < 2 ^ 31) {fuel : Nat}
    (enough : p.rest.length + 1 < fuel) :
    ∃ plan done, executeLine outside fuel 0 p.line (files table) = some done ∧
      Connected outside p (files table) plan done := by
  obtain ⟨fuel, rfl⟩ := Nat.exists_eq_succ_of_ne_zero (Nat.ne_zero_of_lt enough)
  obtain ⟨open_, space⟩ := outer_room outside standard roomy
  have pipes : ∀ further ∈ p.rest.tail, further.1 = false := by
    unfold Pipeline.Proper at proper
    split at proper
    · exact fun further member => proper further (List.mem_of_mem_tail member)
    · exact proper
  have inside : pipelineText p.first p.rest <:+: p.line := (List.prefix_append _ _).isInfix
  have executes {fuel : Nat} (enough : p.rest.length < fuel) :=
    executeLine_carries outside p.first p.rest pipes (Nat.lt_of_le_of_lt (length_words_le inside) few)
      (Nat.lt_of_le_of_lt inside.length_le short) enough 0 open_ space
  cases target : p.redirection with
  | none =>
    have whole : p.line = pipelineText p.first p.rest := by simp [Pipeline.line, target]
    have outer : p.outer outside (files table) = files table := by simp [Pipeline.outer, target]
    obtain ⟨done, runs, carried⟩ := executes (Nat.lt_of_succ_lt enough)
    have back := (carried.kept p.several).trans (congrArg some outer)
    refine ⟨_, _, ?_, carried.connected standard open_ back⟩
    rw [whole]
    rwa [outer] at runs
  | some redirection =>
    obtain ⟨append, filePath⟩ := redirection
    rw [Pipeline.Proper, target, Option.isSome_some, if_pos rfl] at proper
    rw [target] at succeed
    obtain ⟨base, made⟩ := createCommand_redirected p target few short
    rw [eraseSign_none ((pipelineText_unsigned p.first p.rest).mpr proper)] at made
    obtain ⟨stdout, here⟩ := Option.ne_none_iff_exists'.mp (standard.files stdoutFd (by decide))
    obtain ⟨saved, free⟩ : ∃ saved, lowest (files table) = some saved := exists_lowest (by
      rw [room_files]
      unfold Pipeline.needs at roomy
      split at roomy <;> omega)
    have outer := outer_redirected outside target here free
    obtain ⟨done, runs, carried⟩ := executes (Nat.lt_of_succ_lt_succ enough)
    have restored : done.table.map (fun table => (cleanup (some saved) table).2) = some (files table) := by
      rw [carried.kept p.several, outer, Option.map_some, cleanup_restores here (lowest_spec free).1]
    refine ⟨_, _, ?_, carried.connected standard open_ restored⟩
    rw [executeLine_redirected made (succeed rfl) here free, ← outer, runs]
    rfl

/-- The text behind the last `|&` of a pipeline is lost, together with its `&`. -/
theorem eraseSign_pipeline (stage : Stage) (rest : List (Bool × Stage)) {tail : Text} (plain : '&' ∉ tail) :
    (∀ further ∈ rest, further.1 = false) ∨ ∃ fewer : List (Bool × Stage),
      eraseSign (pipelineText stage rest ++ tail) = pipelineText stage fewer ++ ['|'] := by
  induction rest generalizing stage with
  | nil => exact Or.inl nofun
  | cons further rest inductionHypothesis =>
    obtain ⟨redirErr, next⟩ := further
    have whole : pipelineText stage ((redirErr, next) :: rest) ++ tail =
        (stage.text ++ '|' :: if redirErr then ['&'] else []) ++ (pipelineText next rest ++ tail) := by
      simp [pipelineText]
    by_cases sign : '&' ∈ pipelineText next rest ++ tail
    · rcases inductionHypothesis next with none | ⟨fewer, erased⟩
      · exact absurd sign (by simp [(pipelineText_unsigned next rest).mpr none, plain])
      · refine Or.inr ⟨(redirErr, next) :: fewer, ?_⟩
        rw [whole, eraseSign_append _ sign, erased]
        simp [pipelineText]
    · have pipes : ∀ further ∈ rest, further.1 = false :=
        (pipelineText_unsigned next rest).mp fun member => sign (List.mem_append_left _ member)
      cases redirErr with
      | true =>
        have cut : (stage.text ++ '|' :: if true then ['&'] else []) ++ (pipelineText next rest ++ tail) =
            (stage.text ++ ['|']) ++ '&' :: (pipelineText next rest ++ tail) := by simp
        exact Or.inr ⟨[], by rw [whole, cut, eraseSign_cut _ sign, pipelineText]⟩
      | false =>
        refine Or.inl fun further member => ?_
        rcases List.mem_cons.mp member with rfl | member
        · rfl
        · exact pipes further member

/-- Where the second command of a pipe has no result, the pipe has none. -/
theorem executeLine_second {outside : Outside File} {fuel depth : Nat} {cmdLine : Text}
    {table : Table (Opened File)} (noArrow : '>' ∉ cmdLine) (pipe : '|' ∈ cmdLine)
    (forks : (outside.forks depth).2 = true)
    (fails : ∀ table, executeLine outside fuel (depth + 1) (eraseSign (behind '|' '&' cmdLine)) table = none) :
    executeLine outside (fuel + 1) depth cmdLine table = none := by
  have made : createCommand cmdLine = none ∨ ∃ base, createCommand cmdLine = some (.pipe base
      (eraseSign (before '|' cmdLine)) (eraseSign (behind '|' '&' cmdLine)) (Doubled '|' '&' cmdLine)) := by
    rw [createCommand, if_neg (mt (mem_trim (by decide)).mp noArrow),
      if_pos ((mem_trim (by decide)).mpr pipe), pipeCommand_eq pipe]
    split
    · cases commandObject cmdLine true with
      | none => exact Or.inl rfl
      | some base => exact Or.inr ⟨base, rfl⟩
    · exact Or.inl rfl
  rcases made with none | ⟨base, made⟩
  · rw [executeLine, none]
  · rw [executeLine, made]
    simp [fails, ofFork, forks]

/-- A pipeline with nothing behind its last pipe has no result: the blank line there is read
outside its bounds. -/
theorem executeLine_dangling (outside : Outside File) (forks : ∀ depth, (outside.forks depth).2 = true)
    (fuel depth : Nat) (stage : Stage) (rest : List (Bool × Stage)) (table : Table (Opened File)) :
    executeLine outside fuel depth (pipelineText stage rest ++ ['|']) table = none := by
  induction fuel generalizing depth stage rest table with
  | zero => rfl
  | succ fuel inductionHypothesis =>
    have noArrow : '>' ∉ pipelineText stage rest ++ ['|'] := by simp [pipelineText_noArrow]
    refine executeLine_second noArrow (by simp) (forks depth) fun table => ?_
    cases rest with
    | nil =>
      have first : '|' ∉ stage.text := fun member => (stage.plain _ member).1 rfl
      have nothing : behind '|' '&' (pipelineText stage [] ++ ['|']) = [] := by
        simp [behind, Doubled, pipelineText, (cut_at first []).2]
      rw [nothing]
      cases fuel <;> rfl
    | cons further rest =>
      obtain ⟨redirErr, next⟩ := further
      rw [(pipelineText_cut stage next redirErr rest ['|']).2.1]
      rcases eraseSign_pipeline next rest (show '&' ∉ ['|'] by decide) with pipes | ⟨fewer, erased⟩
      · have plain : '&' ∉ pipelineText next rest ++ ['|'] := by
          simp [(pipelineText_unsigned next rest).mpr pipes]
        rw [eraseSign_none plain]
        exact inductionHypothesis (depth + 1) next rest table
      · rw [erased]
        exact inductionHypothesis (depth + 1) next fewer table

/-- Any other pipeline has no result, unless the fork of a second command fails. -/
theorem pipeline_fails (outside : Outside File) (forks : ∀ depth, (outside.forks depth).2 = true)
    (p : Pipeline) (improper : ¬p.Proper) (table : Table File) (standard : Standard table)
    (roomy : 0 < room table) (succeed : p.redirection.isSome → outside.calls.Succeed)
    (few : (words isSpace p.line).length < commandMaxArgs) (short : p.line.length < 2 ^ 31) (fuel : Nat) :
    executeLine outside fuel 0 p.line (files table) = none := by
  cases fuel with
  | zero => rfl
  | succ fuel =>
    cases target : p.redirection with
    | none =>
      rw [Pipeline.Proper, target, Option.isSome_none, if_neg Bool.false_ne_true] at improper
      have whole : p.line = pipelineText p.first p.rest := by simp [Pipeline.line, target]
      obtain ⟨⟨redirErr, next⟩, rest, parts⟩ := List.exists_cons_of_ne_nil p.several
      rw [parts, List.tail_cons] at improper
      rw [whole, parts]
      refine executeLine_second (pipelineText_noArrow _ _) (by simp [pipelineText]) (forks 0) fun table => ?_
      have second := (pipelineText_cut p.first next redirErr rest []).2.1
      have erased := (eraseSign_pipeline next rest (show '&' ∉ [] by simp)).resolve_left improper
      rw [List.append_nil, List.append_nil] at second
      obtain ⟨fewer, erased⟩ := erased
      rw [List.append_nil] at erased
      rw [second, erased]
      exact executeLine_dangling outside forks fuel 1 next fewer table
    | some redirection =>
      obtain ⟨append, filePath⟩ := redirection
      rw [Pipeline.Proper, target, Option.isSome_some, if_pos rfl] at improper
      rw [target] at succeed
      obtain ⟨base, made⟩ := createCommand_redirected p target few short
      obtain ⟨fewer, erased⟩ := (eraseSign_pipeline p.first p.rest (show '&' ∉ [] by simp)).resolve_left improper
      obtain ⟨stdout, here⟩ := Option.ne_none_iff_exists'.mp (standard.files stdoutFd (by decide))
      obtain ⟨saved, free⟩ := exists_lowest (by rwa [room_files] : 0 < room (files table))
      rw [List.append_nil] at erased
      rw [executeLine_redirected made (succeed rfl) here free, erased, executeLine_dangling outside forks]
      rfl

/-- A pipeline is carried out when `|&` stands nowhere but at its first pipe and nowhere in front
of a redirection, whichever forks fail; any other has no result, unless a fork fails. -/
theorem pipeline_connects (outside : Outside File) (p : Pipeline) (table : Table File)
    (standard : Standard table) (roomy : p.needs ≤ room table)
    (succeed : p.redirection.isSome → outside.calls.Succeed)
    (few : (words isSpace p.line).length < commandMaxArgs) (short : p.line.length < 2 ^ 31) {fuel : Nat}
    (enough : p.rest.length + 1 < fuel) :
    (p.Proper → ∃ plan done, executeLine outside fuel 0 p.line (files table) = some done ∧
      Connected outside p (files table) plan done) ∧
    (¬p.Proper → (∀ depth, (outside.forks depth).2 = true) →
      executeLine outside fuel 0 p.line (files table) = none) := by
  have some_ : 0 < room table := by
    unfold Pipeline.needs at roomy
    split at roomy <;> omega
  exact ⟨fun proper => pipeline_carries outside p proper table standard roomy succeed few short enough,
    fun improper forks => pipeline_fails outside forks p improper table standard some_ succeed few short fuel⟩

/-- `ls |& wc` with or without `>> f` behind it. -/
def listing (redirErr redirected : Bool) : Pipeline where
  first := ⟨"ls ".toList, by decide +kernel, 'l', by decide +kernel, by decide⟩
  rest := [(redirErr, ⟨" wc ".toList, by decide +kernel, 'w', by decide +kernel, by decide⟩)]
  redirection := if redirected then some (true, " f".toList) else none
  several := List.cons_ne_nil _ _
  plain := by cases redirected <;> decide +kernel

/-- A pipeline whose output is appended to a file, and one whose command behind `|&` is lost
because its output is. -/
theorem pipeline_connects_sample :
    let outside : Outside Nat :=
      ⟨⟨false, .succeeds, false, fun _ _ => 7⟩, fun _ => (true, true), fun _ table => some table⟩
    let shell := files [some 4, some 5, some 6, none, none, none]
    (∃ plan done, executeLine outside 3 0 "ls | wc >> f".toList shell = some done ∧
      Connected outside (listing false true) shell plan done) ∧
    executeLine outside 3 0 "ls |& wc >> f".toList shell = none := by
  intro outside shell
  have standard : Standard [some 4, some 5, some 6, none, none, none] := by
    intro fd small
    have cases : fd = 0 ∨ fd = 1 ∨ fd = 2 := by
      unfold stderrFd at small
      omega
    rcases cases with rfl | rfl | rfl <;> decide
  refine ⟨?_, ?_⟩
  · exact (pipeline_connects outside (listing false true) _ standard (by decide +kernel)
      (fun _ => ⟨rfl, rfl, rfl⟩) (by decide +kernel) (by decide +kernel) (by decide +kernel)).1 (by decide +kernel)
  · exact (pipeline_connects outside (listing true true) _ standard (by decide +kernel)
      (fun _ => ⟨rfl, rfl, rfl⟩) (by decide +kernel) (by decide +kernel) (by decide +kernel)).2
        (by decide +kernel) fun _ => rfl

end OperatingSystems.Smash
