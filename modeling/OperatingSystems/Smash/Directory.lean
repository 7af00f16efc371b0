import OperatingSystems.Runs
import OperatingSystems.Texts

/-!
# Changes of directory

`last_path` of `SmallShell` is to name the directory that the last change of
directory left. `ChangeDirCommand::execute` also sets it where it reports that
there is none yet: the report does not end the function.

What `getcwd` and `chdir` do is decided by a file system that stays as it is;
either may also fail for reasons of its own.
-/

namespace OperatingSystems.Smash

open Texts Runs

/-- The directories, the path `getcwd` returns for each, and where a path leads from
a directory. That path leads to the directory from everywhere. -/
structure FileSystem (Dir : Type) where
  path : Dir → Text
  lookup : Dir → Text → Option Dir
  lookup_path : ∀ dir other, lookup other (path dir) = some dir

/-- A command `cd`: the words behind the first, and which calls fail. -/
structure Cd where
  arguments : List Text
  getcwdFails : Bool
  chdirFails : Bool
deriving DecidableEq, Repr

/-- How a `cd` ends: the message it writes, if any, whether `chdir` changed the
directory, the current directory and `last_path`. -/
structure CdOutcome (Dir : Type) where
  message : Option Text
  changed : Bool
  dir : Dir
  lastPath : Option Text

/-- A shell, with the directories that its changes of directory left, in order. -/
structure CdSession (Dir : Type) where
  dir : Dir
  lastPath : Option Text
  left : List Dir

variable {Dir : Type}

/-- `chdir`: nothing when it fails. -/
def Cd.chdir (cd : Cd) (fs : FileSystem Dir) (dir : Dir) (path : Text) : Option Dir :=
  if cd.chdirFails then none else fs.lookup dir path

/-- `ChangeDirCommand::execute`, where `num_of_args` is one more than the arguments. -/
def Cd.execute (cd : Cd) (fs : FileSystem Dir) (dir : Dir) (plastPwd : Option Text) : CdOutcome Dir :=
  match cd.arguments with
  | _ :: _ :: _ => ⟨some "smash error: cd: too many arguments".toList, false, dir, plastPwd⟩
  | [] => ⟨none, false, dir, plastPwd⟩
  | [path] =>
    if cd.getcwdFails then ⟨some "smash error: getcwd failed".toList, false, dir, plastPwd⟩
    else
      let currentPath := fs.path dir
      if path = "-".toList then
        match plastPwd with
        -- The branch of the error goes on to the update of `*plastPwd`.
        | none => ⟨some "smash error: cd: OLDPWD not set".toList, false, dir, some currentPath⟩
        | some previous =>
          match cd.chdir fs dir previous with
          | none => ⟨some "smash error: chdir failed".toList, false, dir, plastPwd⟩
          | some next => ⟨none, true, next, some currentPath⟩
      else
        match cd.chdir fs dir path with
        | none => ⟨some "smash error: chdir failed".toList, false, dir, plastPwd⟩
        | some next => ⟨none, true, next, some currentPath⟩

/-- What a `cd` comes to in a session. -/
def CdSession.outcome (fs : FileSystem Dir) (cd : Cd) (s : CdSession Dir) : CdOutcome Dir :=
  cd.execute fs s.dir s.lastPath

/-- The session after a `cd`. -/
def CdSession.after (fs : FileSystem Dir) (cd : Cd) (s : CdSession Dir) : CdSession Dir :=
  let outcome := s.outcome fs cd
  ⟨outcome.dir, outcome.lastPath, if outcome.changed then s.left ++ [s.dir] else s.left⟩

/-- One command; none ends the session. -/
def Cd.perform (fs : FileSystem Dir) (cd : Cd) (s : CdSession Dir) : Except Unit (CdSession Dir) :=
  .ok (s.after fs cd)

/-- `last_path` names the directory that the last change of directory left, if there
was one. -/
def Remembers (fs : FileSystem Dir) (s : CdSession Dir) : Prop :=
  s.lastPath = s.left.getLast?.map fs.path

/-- What a `cd` is to do: remember the directory it leaves, exchange the current
directory and `last_path` for `-`, and change nothing after an error or without an
argument. -/
def KeepsHistory (fs : FileSystem Dir) (cd : Cd) (s : CdSession Dir) : Prop :=
  let outcome := s.outcome fs cd
  Remembers fs (s.after fs cd) ∧
  (cd.arguments = ["-".toList] → outcome.changed = true →
    s.lastPath = some (fs.path outcome.dir) ∧ outcome.lastPath = some (fs.path s.dir)) ∧
  (outcome.message.isSome ∨ cd.arguments = [] → outcome.dir = s.dir ∧ outcome.lastPath = s.lastPath)

/-- A `cd -` that comes to use `last_path` finds it set. -/
def OldpwdSet (cd : Cd) (s : CdSession Dir) : Prop :=
  cd.arguments = ["-".toList] → cd.getcwdFails = false → s.lastPath ≠ none

variable {fs : FileSystem Dir} {cd : Cd} {s : CdSession Dir}

/-- What `chdir` can come to. -/
theorem chdir_lookup {dir next : Dir} {path : Text} (leads : cd.chdir fs dir path = some next) :
    fs.lookup dir path = some next := by
  unfold Cd.chdir at leads
  split at leads
  next => exact absurd leads nofun
  next => exact leads

/-- What a `cd` can come to: nothing changes, or the directory does, or an error is
reported and only `last_path` is set. -/
theorem outcome_cases (fs : FileSystem Dir) (cd : Cd) (s : CdSession Dir) :
    (∃ message, s.outcome fs cd = ⟨message, false, s.dir, s.lastPath⟩ ∧ OldpwdSet cd s) ∨
    (∃ next, s.outcome fs cd = ⟨none, true, next, some (fs.path s.dir)⟩ ∧ cd.arguments ≠ [] ∧
      OldpwdSet cd s ∧ (cd.arguments = ["-".toList] →
        ∃ previous, s.lastPath = some previous ∧ fs.lookup s.dir previous = some next)) ∨
    ∃ message, s.outcome fs cd = ⟨some message, false, s.dir, some (fs.path s.dir)⟩ ∧
      ¬OldpwdSet cd s ∧ s.lastPath = none := by
  unfold CdSession.outcome Cd.execute OldpwdSet
  rcases arguments : cd.arguments with _ | ⟨path, _ | ⟨second, more⟩⟩
  · exact Or.inl ⟨none, rfl, fun none => absurd none nofun⟩
  · by_cases unknown : cd.getcwdFails = true
    · simp only [unknown, if_true]
      exact Or.inl ⟨_, rfl, fun _ some => absurd some nofun⟩
    · have known : cd.getcwdFails = false := by simpa using unknown
      simp only [known, Bool.false_eq_true, if_false]
      by_cases dash : path = "-".toList
      · simp only [dash, if_true]
        cases last : s.lastPath with
        | none => exact Or.inr (Or.inr ⟨_, rfl, by simp, rfl⟩)
        | some previous =>
          dsimp only
          cases leads : cd.chdir fs s.dir previous with
          | none => exact Or.inl ⟨_, rfl, by simp⟩
          | some next =>
            exact Or.inr (Or.inl ⟨next, rfl, by simp, by simp, fun _ => ⟨previous, rfl, chdir_lookup leads⟩⟩)
      · have other : [path] ≠ ["-".toList] := fun same => dash (List.cons.inj same).1
        simp only [dash, if_false]
        cases cd.chdir fs s.dir path with
        | none => exact Or.inl ⟨_, rfl, fun same => absurd same other⟩
        | some next =>
          exact Or.inr (Or.inl ⟨next, rfl, by simp, fun same => absurd same other, fun same => absurd same other⟩)
  · exact Or.inl ⟨_, rfl, fun same => absurd (List.cons.inj same).2 nofun⟩

/-- A `cd` keeps the history exactly when it finds `last_path` set where it comes to
use it. -/
theorem keepsHistory_iff (remembers : Remembers fs s) : OldpwdSet cd s ↔ KeepsHistory fs cd s := by
  unfold KeepsHistory CdSession.after
  rcases outcome_cases fs cd s with ⟨message, nothing, found⟩ | ⟨next, changes, some, found, exchanges⟩ |
    ⟨message, reports, missing, unset⟩
  · rw [nothing]
    exact iff_of_true found ⟨remembers, fun _ changed => absurd changed nofun, fun _ => ⟨rfl, rfl⟩⟩
  · rw [changes]
    refine iff_of_true found ⟨?_, fun dash _ => ⟨?_, rfl⟩, ?_⟩
    · simp [Remembers]
    · obtain ⟨previous, last, leads⟩ := exchanges dash
      -- The path comes from `getcwd` in the directory left last.
      obtain ⟨dir, -, rfl⟩ := Option.map_eq_some_iff.mp (remembers.symm.trans last)
      rw [fs.lookup_path] at leads
      rw [last, Option.some.inj leads]
    · rintro (failed | none)
      · exact absurd failed nofun
      · exact absurd none some
  · rw [reports]
    refine iff_of_false missing fun ⟨_, _, kept⟩ => ?_
    have same := (kept (Or.inl rfl)).2
    rw [unset] at same
    exact absurd same nofun

/-- Whatever the commands and the failures, every `cd` of a run keeps the history exactly
when every `cd -` of it that comes to use `last_path` finds it set. -/
theorem cd_keeps_history_iff (fs : FileSystem Dir) (dir : Dir) (cds : List Cd) :
    Obeys (Cd.perform fs) OldpwdSet cds ⟨dir, none, []⟩ ↔
      Obeys (Cd.perform fs) (KeepsHistory fs) cds ⟨dir, none, []⟩ := by
  have keeps : ∀ cd s t, Remembers fs s → OldpwdSet cd s → Cd.perform fs cd s = .ok t → Remembers fs t := by
    intro cd s t remembers found performed
    obtain rfl := Except.ok.inj performed
    exact ((keepsHistory_iff remembers).mp found).1
  exact obeys_agree keeps (fun cd s remembers => keepsHistory_iff remembers) rfl

/-- Two directories, each found by its path. -/
def twoDirectories : FileSystem Bool where
  path inner := if inner then "/a".toList else "/".toList
  lookup _ path := if path = "/a".toList then some true else if path = "/".toList then some false else none
  lookup_path := by decide +kernel

/-- A first `cd -` reports an error and sets `last_path`. -/
theorem cd_sets_after_error :
    ¬Obeys (Cd.perform twoDirectories) (KeepsHistory twoDirectories) [⟨["-".toList], false, false⟩]
      ⟨true, none, []⟩ := by
  rintro ⟨⟨_, _, kept⟩, _⟩
  have same := (kept (Or.inl (by decide +kernel))).2
  exact absurd same (by decide +kernel)

end OperatingSystems.Smash
