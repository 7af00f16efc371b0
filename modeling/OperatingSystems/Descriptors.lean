import Mathlib.Data.List.Basic

/-!
# Descriptor tables

A process has a place for each descriptor it may use, and each place holds an
open file or nothing. A new descriptor is the lowest one without a file. Whether
a call fails although the table allows it is decided from outside.
-/

namespace OperatingSystems.Descriptors

variable {File : Type}

/-- The places of the descriptors, in order. -/
abbrev Table (File : Type) := List (Option File)

/-- The file of a descriptor. -/
def file (table : Table File) (fd : Nat) : Option File := (table[fd]?).join

/-- The lowest descriptor without a file. There is none in a full table. -/
def lowest (table : Table File) : Option Nat := table.findIdx? Option.isNone

/-- What becomes of a close: it may also fail, and then leave the descriptor open
or not. -/
inductive Closing where
  | succeeds
  | failsOpen
  | failsClosed
deriving DecidableEq, Repr

/-- A further descriptor of an open file: nothing when the call fails. -/
def dup (fails : Bool) (fd : Nat) (table : Table File) : Option Nat × Table File :=
  match file table fd, lowest table with
  | some opened, some new => if fails then (none, table) else (some new, table.set new (some opened))
  | _, _ => (none, table)

/-- Give a descriptor back; whether the call succeeds. -/
def close (closing : Closing) (fd : Nat) (table : Table File) : Bool × Table File :=
  match file table fd, closing with
  | none, _ => (false, table)
  | some _, .succeeds => (true, table.set fd none)
  | some _, .failsOpen => (false, table)
  | some _, .failsClosed => (false, table.set fd none)

/-- Open a file: nothing when the call fails. -/
def openFile (fails : Bool) (opened : File) (table : Table File) : Option Nat × Table File :=
  match lowest table with
  | some new => if fails then (none, table) else (some new, table.set new (some opened))
  | none => (none, table)

/-- Open a pipe under the two lowest free descriptors: nothing when there are not two. -/
def openPair (reads writes : File) (table : Table File) : Option (Nat × Nat × Table File) := do
  let rd ← lowest table
  let wr ← lowest (table.set rd (some reads))
  some (rd, wr, (table.set rd (some reads)).set wr (some writes))

/-- Make a descriptor of the table another one of an open file; whether the call
succeeds. -/
def dup2 (old : Option Nat) (new : Nat) (table : Table File) : Bool × Table File :=
  match old.bind (file table) with
  | some opened => if new < table.length then (true, table.set new (some opened)) else (false, table)
  | none => (false, table)

/-- How many descriptors have no file. -/
def room (table : Table File) : Nat := table.countP Option.isNone

variable {table : Table File} {f opened : File} {fd new other : Nat}

theorem file_eq (here : file table fd = some f) : table[fd]? = some (some f) := by
  unfold file at here
  exact Option.join_eq_some_iff.mp here

theorem lt_of_file (here : file table fd = some f) : fd < table.length :=
  (List.getElem?_eq_some_iff.mp (file_eq here)).1

theorem set_file (here : file table fd = some f) : table.set fd (some f) = table := by
  obtain ⟨inside, same⟩ := List.getElem?_eq_some_iff.mp (file_eq here)
  rw [← same, List.set_getElem_self]

@[simp] theorem file_set_self (inside : fd < table.length) (here : Option File) :
    file (table.set fd here) fd = here := by
  simp [file, inside]

@[simp] theorem file_set_ne (apart : fd ≠ other) (here : Option File) :
    file (table.set fd here) other = file table other := by
  simp [file, apart]

/-- The lowest free descriptor is one of the table and free, and those below are not. -/
theorem lowest_spec (free : lowest table = some new) :
    table[new]? = some none ∧ ∀ lower < new, file table lower ≠ none := by
  obtain ⟨inside, here, below⟩ := List.findIdx?_eq_some_iff_getElem.mp free
  refine ⟨?_, fun lower before => ?_⟩
  · rw [List.getElem?_eq_getElem inside, Option.isNone_iff_eq_none.mp here]
  · have used := below lower before
    have bound : lower < table.length := Nat.lt_trans before inside
    simpa [file, List.getElem?_eq_getElem bound] using used

/-- Where every lower descriptor has a file, a descriptor given back is the lowest free one. -/
theorem lowest_freed (inside : fd < table.length) (below : ∀ lower < fd, file table lower ≠ none) :
    lowest (table.set fd none) = some fd := by
  refine List.findIdx?_eq_some_iff_getElem.mpr ⟨by simpa using inside, by simp, fun lower before => ?_⟩
  have used := below lower before
  have bound : lower < table.length := Nat.lt_trans before inside
  have apart : fd ≠ lower := Nat.ne_of_gt before
  simpa [file, List.getElem?_eq_getElem bound, apart] using used

/-- What a descriptor of a file can come to. -/
theorem dup_cases (fails : Bool) (here : file table fd = some f) :
    dup fails fd table = (none, table) ∨
      ∃ new, lowest table = some new ∧ dup fails fd table = (some new, table.set new (some f)) := by
  unfold dup
  rw [here]
  cases free : lowest table with
  | none => exact Or.inl rfl
  | some new =>
    cases fails with
    | true => exact Or.inl rfl
    | false => exact Or.inr ⟨new, rfl, rfl⟩

/-- What a close of an open descriptor can come to. -/
theorem close_cases (closing : Closing) (here : file table fd = some f) :
    close closing fd table = (true, table.set fd none) ∨
      ∃ left, close closing fd table = (false, table.set fd left) := by
  unfold close
  rw [here]
  cases closing with
  | succeeds => exact Or.inl rfl
  | failsOpen => exact Or.inr ⟨some f, by rw [set_file here]⟩
  | failsClosed => exact Or.inr ⟨none, rfl⟩

/-- What an open can come to, where a descriptor was given back and the lower ones
have files. -/
theorem openFile_cases (fails : Bool) (opened : File) (inside : fd < table.length)
    (below : ∀ lower < fd, file table lower ≠ none) :
    openFile fails opened (table.set fd none) = (none, table.set fd none) ∨
      openFile fails opened (table.set fd none) = (some fd, table.set fd (some opened)) := by
  unfold openFile
  rw [lowest_freed inside below]
  cases fails with
  | true => exact Or.inl rfl
  | false => exact Or.inr (by simp)

/-- Once the lowest free descriptor is used, it and the lower ones have files. -/
theorem below_taken (free : lowest table = some new) :
    ∀ lower ≤ new, file (table.set new (some f)) lower ≠ none := by
  obtain ⟨here, below⟩ := lowest_spec free
  intro lower before
  rcases Nat.eq_or_lt_of_le before with rfl | before
  · simp [file_set_self (List.getElem?_eq_some_iff.mp here).1]
  · rw [file_set_ne (Nat.ne_of_gt before)]
    exact below lower before

/-- A descriptor is put back from its duplicate, and the duplicate closed, whatever
the descriptor held in the meantime. -/
theorem restore (here : file table fd = some f) (free : table[new]? = some none) (left : Option File) :
    dup2 (some new) fd ((table.set new (some f)).set fd left) = (true, table.set new (some f)) ∧
      close .succeeds new (table.set new (some f)) = (true, table) := by
  have inside := lt_of_file here
  obtain ⟨room, empty⟩ := List.getElem?_eq_some_iff.mp free
  have apart : fd ≠ new := by
    rintro rfl
    simp [file_eq here] at free
  constructor
  · have kept : file ((table.set new (some f)).set fd left) new = some f := by
      rw [file_set_ne apart, file_set_self room]
    have back : (table.set new (some f)).set fd (some f) = table.set new (some f) := by
      rw [List.set_comm _ _ apart.symm, set_file here]
    simp [dup2, kept, inside, back]
  · have kept : file (table.set new (some f)) new = some f := file_set_self room _
    have back : table.set new none = table := by rw [← empty, List.set_getElem_self]
    simp [close, kept, back]

/-- A descriptor that was free is given back. -/
theorem close_taken (free : table[fd]? = some none) (f : File) :
    close .succeeds fd (table.set fd (some f)) = (true, table) := by
  obtain ⟨inside, empty⟩ := List.getElem?_eq_some_iff.mp free
  have back : table.set fd none = table := by rw [← empty, List.set_getElem_self]
  simp [close, inside, back]

/-- With room there is a lowest free descriptor. -/
theorem exists_lowest (roomy : 0 < room table) : ∃ new, lowest table = some new := by
  obtain ⟨place, member, free⟩ := List.countP_pos_iff.mp roomy
  exact Option.isSome_iff_exists.mp (List.findIdx?_isSome.trans (List.any_eq_true.mpr ⟨place, member, free⟩))

/-- A free descriptor that is used leaves less room. -/
theorem room_set (free : table[fd]? = some none) (f : File) : room (table.set fd (some f)) + 1 = room table := by
  obtain ⟨inside, empty⟩ := List.getElem?_eq_some_iff.mp free
  have positive : 0 < table.countP Option.isNone :=
    List.countP_pos_iff.mpr ⟨none, List.mem_of_getElem? free, rfl⟩
  rw [room, room, List.countP_set inside, empty]
  simp only [Option.isNone_none, Option.isNone_some, if_true, Bool.false_eq_true, if_false]
  omega

/-- A descriptor that gets another file leaves as much. -/
theorem room_replace (here : file table fd = some f) (opened : File) :
    room (table.set fd (some opened)) = room table := by
  obtain ⟨inside, same⟩ := List.getElem?_eq_some_iff.mp (file_eq here)
  rw [room, List.countP_set inside, same]
  simp [room]

/-- A pipe is opened where there is room for it, under two free descriptors. -/
theorem openPair_opens (reads writes : File) (roomy : 2 ≤ room table) : ∃ rd wr,
    openPair reads writes table = some (rd, wr, (table.set rd (some reads)).set wr (some writes)) ∧
      table[rd]? = some none ∧ table[wr]? = some none ∧ rd ≠ wr := by
  obtain ⟨rd, first⟩ := exists_lowest (Nat.lt_of_lt_of_le Nat.zero_lt_two roomy)
  have free := (lowest_spec first).1
  have less := room_set free reads
  obtain ⟨wr, second⟩ := exists_lowest (show 0 < room (table.set rd (some reads)) by omega)
  have spare := (lowest_spec second).1
  have inside := (List.getElem?_eq_some_iff.mp free).1
  have apart : rd ≠ wr := by
    rintro rfl
    simp [inside] at spare
  exact ⟨rd, wr, by simp [openPair, first, second], free, by simpa [apart] using spare, apart⟩

end OperatingSystems.Descriptors
