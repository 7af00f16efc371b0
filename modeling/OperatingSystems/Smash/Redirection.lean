import OperatingSystems.Descriptors
import OperatingSystems.Smash.CommandLine

/-!
# Output redirection

`RedirectionCommand::execute` saves `STDOUT` under a further descriptor, closes
it, opens the file in its place and runs its command; `cleanup` puts `STDOUT`
back. `prepare` tells of a failure only by a message and by emptying the command.

Which calls of `prepare` fail is decided from outside. Those of `cleanup` fail
only for a descriptor that is not open.
-/

namespace OperatingSystems.Smash

open Texts Descriptors

variable {File : Type}

/-- `STDOUT`. -/
def stdoutFd : Nat := 1

/-- What the calls of `prepare` come to: which of them fail, and the file that
`open` opens for a path and for whether it appends. -/
structure PrepareCalls (File : Type) where
  dupFails : Bool
  closing : Closing
  openFails : Bool
  opened : Text → Bool → File

/-- A `RedirectionCommand` and the descriptors of the shell once `prepare` is through,
with the message it wrote if a call failed. -/
structure Redirected (File : Type) where
  newFileDescriptor : Option Nat
  cmd : Text
  failure : Option Text
  table : Table File

/-- `RedirectionCommand::prepare`. -/
def prepare (calls : PrepareCalls File) (cmd filePath : Text) (append : Bool) (table : Table File) :
    Redirected File :=
  match dup calls.dupFails stdoutFd table with
  | (none, table) => ⟨none, [], some "smash error: dup failed".toList, table⟩
  | (some newFileDescriptor, table) =>
    match close calls.closing stdoutFd table with
    | (false, table) => ⟨some newFileDescriptor, [], some "smash error: close failed".toList, table⟩
    | (true, table) =>
      match openFile calls.openFails (calls.opened filePath append) table with
      | (none, table) => ⟨some newFileDescriptor, [], some "smash error: open failed".toList, table⟩
      | (some _, table) => ⟨some newFileDescriptor, cmd, none, table⟩

/-- `RedirectionCommand::cleanup`: the message it writes, if any, and the descriptors. -/
def cleanup (newFileDescriptor : Option Nat) (table : Table File) : Option Text × Table File :=
  match dup2 newFileDescriptor stdoutFd table with
  | (false, table) => (some "smash error: dup2 failed".toList, table)
  | (true, table) =>
    match newFileDescriptor.elim (false, table) (close .succeeds · table) with
    | (false, table) => (some "smash error: close failed".toList, table)
    | (true, table) => (none, table)

/-- How `RedirectionCommand::execute` ends: the message of `prepare`, the line that
was executed, the message of `cleanup` and the descriptors of the shell. -/
structure RedirectionOutcome (File : Type) where
  failure : Option Text
  executed : Text
  cleanupFailure : Option Text
  table : Table File

/-- `RedirectionCommand::execute`. There is no result where the line it executes ends
the shell. -/
def redirectionExecute (executeCommand : Text → Table File → Option (Table File))
    (calls : PrepareCalls File) (cmd filePath : Text) (append : Bool) (table : Table File) :
    Option (RedirectionOutcome File) :=
  let prepared := prepare calls cmd filePath append table
  (executeCommand prepared.cmd prepared.table).map fun table =>
    let (cleanupFailure, table) := cleanup prepared.newFileDescriptor table
    ⟨prepared.failure, prepared.cmd, cleanupFailure, table⟩

variable {table : Table File} {stdout : File}

/-- Once `STDOUT` is saved, the descriptors below it have files: if `stdin` was closed,
it is `stdin` that `STDOUT` is saved under. -/
theorem below_stdout {new : Nat} (free : lowest table = some new) :
    ∀ lower < stdoutFd, file (table.set new (some stdout)) lower ≠ none := by
  intro lower before
  exact below_taken free lower (Nat.le_trans (Nat.le_of_lt_succ before) (Nat.zero_le new))

/-- What `prepare` can come to: `STDOUT` was not saved and nothing changed, or it
was, and after a failure its place holds anything, else the file. -/
theorem prepare_cases (calls : PrepareCalls File) (cmd filePath : Text) (append : Bool)
    (here : file table stdoutFd = some stdout) :
    (∃ message, prepare calls cmd filePath append table = ⟨none, [], some message, table⟩) ∨
    ∃ new, table[new]? = some none ∧
      ((∃ message left, prepare calls cmd filePath append table =
          ⟨some new, [], some message, (table.set new (some stdout)).set stdoutFd left⟩) ∨
        prepare calls cmd filePath append table = ⟨some new, cmd, none,
          (table.set new (some stdout)).set stdoutFd (some (calls.opened filePath append))⟩) := by
  unfold prepare
  rcases dup_cases calls.dupFails here with refused | ⟨new, free, saved⟩
  · rw [refused]
    exact Or.inl ⟨_, rfl⟩
  · have empty := (lowest_spec free).1
    have apart : new ≠ stdoutFd := by
      rintro rfl
      simp [file_eq here] at empty
    have kept : file (table.set new (some stdout)) stdoutFd = some stdout := by
      rw [file_set_ne apart, here]
    rw [saved]
    refine Or.inr ⟨new, empty, ?_⟩
    rcases close_cases calls.closing kept with closed | ⟨left, failed⟩
    · rcases openFile_cases calls.openFails (calls.opened filePath append) (lt_of_file kept)
        (below_stdout free) with refused | opens
      · simp only [closed, refused]
        exact Or.inl ⟨_, none, rfl⟩
      · simp only [closed, opens, or_true]
    · simp only [failed]
      exact Or.inl ⟨_, left, rfl⟩

/-- `cleanup` does nothing where `STDOUT` was not saved. -/
theorem cleanup_none : (cleanup none table).2 = table := rfl

/-- `cleanup` puts `STDOUT` back and gives the descriptor up that it was saved under. -/
theorem cleanup_restores {new : Nat} (here : file table stdoutFd = some stdout)
    (free : table[new]? = some none) (left : Option File) :
    cleanup (some new) ((table.set new (some stdout)).set stdoutFd left) = (none, table) := by
  obtain ⟨back, gone⟩ := restore here free left
  simp only [cleanup, back, Option.elim_some, gone]

/-- Whichever calls of `prepare` fail, a redirection returns when the command it
executes does and leaves the descriptors of the shell as they were, and after a
failure the command is the empty line. -/
theorem redirectionExecute_restores {executeCommand : Text → Table File → Option (Table File)}
    (leaves : ∀ cmd before after, executeCommand cmd before = some after → after = before)
    (calls : PrepareCalls File) (cmd filePath : Text) (append : Bool)
    (here : file table stdoutFd = some stdout) :
    ((redirectionExecute executeCommand calls cmd filePath append table).isSome ↔
      (executeCommand (prepare calls cmd filePath append table).cmd
        (prepare calls cmd filePath append table).table).isSome) ∧
    ∀ outcome, redirectionExecute executeCommand calls cmd filePath append table = some outcome →
      outcome.table = table ∧ (outcome.failure.isSome → outcome.executed = []) := by
  constructor
  · simp [redirectionExecute]
  · intro outcome result
    obtain ⟨after, inner, rfl⟩ := Option.map_eq_some_iff.mp result
    obtain rfl := leaves _ _ _ inner
    rcases prepare_cases calls cmd filePath append here with ⟨message, refused⟩ |
      ⟨new, free, ⟨message, left, failed⟩ | opened⟩
    · rw [refused]
      exact ⟨cleanup_none, fun _ => rfl⟩
    · rw [failed]
      exact ⟨congrArg Prod.snd (cleanup_restores here free left), fun _ => rfl⟩
    · rw [opened]
      exact ⟨congrArg Prod.snd (cleanup_restores here free _), fun some => absurd some nofun⟩

/-- With `stdin` closed, a file that cannot be opened. -/
theorem redirectionExecute_restores_sample :
    ∃ outcome, redirectionExecute (fun _ table => some table) ⟨false, .succeeds, true, fun _ _ => 7⟩
        "ls".toList "f".toList false [none, some 5, some 6, none] = some outcome ∧
      outcome.table = [none, some 5, some 6, none] ∧ outcome.executed = [] := by
  have here : file [none, some 5, some 6, none] stdoutFd = some 5 := rfl
  obtain ⟨_, restored⟩ := redirectionExecute_restores (fun _ _ _ same => (Option.some.inj same).symm)
    ⟨false, .succeeds, true, fun _ _ => 7⟩ "ls".toList "f".toList false here
  exact ⟨_, rfl, (restored _ rfl).1, (restored _ rfl).2 rfl⟩

end OperatingSystems.Smash
