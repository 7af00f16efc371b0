import OperatingSystems.Bytes

/-!
# A process, its memory and the system calls of an allocator

A program is a function of the machine it runs on: it returns a result and the
next machine, or it stops with a fault. The machine holds the bytes of the
address space, the part of it the process may touch, and the program's global
variables, whose type is a parameter.

The process may touch the heap, between the program break at start-up and the
present break, and its anonymous mappings. Any other access is a fault.

The answers of the operating system to the calls that ask for memory are taken
from a list fixed in advance, one for each call, so that a statement about
every list of answers is a statement about every pattern of success and
failure. A call that finds no answer left is refused.
-/

namespace OperatingSystems.Process

open Bytes

/-- Why an execution stops without returning: an access outside the memory of
the process, a failed `assert`, or a loop that never ends. -/
inductive Fault where
  | segv
  | assertion
  | hang
deriving DecidableEq, Repr

/-- One answer to a request for memory. A grant carries the address of a new
mapping and the bytes found in new heap memory. -/
inductive Reply where
  | refuse
  | grant (address : Nat) (contents : Nat → UInt8)

/-- The address space of a process together with the program's globals.
`strayUnmaps` records the calls of `munmap` whose range was no live mapping. -/
structure Machine (Globals : Type) where
  bytes : Memory
  heapStart : Nat
  brk : Nat
  maps : List (Nat × Nat)
  replies : List Reply
  strayUnmaps : List (Nat × Nat)
  globals : Globals

/-- A computation that may read and change the machine, or stop with a fault. -/
abbrev Program (Globals : Type) := StateT (Machine Globals) (Except Fault)

variable {Globals : Type} {α β : Type}

/-- The program ends normally with this result and machine. -/
def Returns (program : Program Globals α) (s : Machine Globals) (result : α)
    (after : Machine Globals) : Prop :=
  program s = .ok (result, after)

/-- The program stops with this fault. -/
def Faults (program : Program Globals α) (s : Machine Globals) (fault : Fault) : Prop :=
  program s = .error fault

/-- Execution is deterministic. -/
theorem Returns.unique {program : Program Globals α} {s t u : Machine Globals} {x y : α}
    (left : Returns program s x t) (right : Returns program s y u) : x = y ∧ t = u := by
  have same : (x, t) = (y, u) := Except.ok.inj (left.symm.trans right)
  exact Prod.mk.inj same

/-- A program that faults does not return. -/
theorem Faults.not_returns {program : Program Globals α} {s t : Machine Globals} {x : α}
    {fault : Fault} (faults : Faults program s fault) : ¬Returns program s x t := fun returns => by
  have same : Except.error fault = Except.ok (x, t) := faults.symm.trans returns
  exact absurd same nofun

/-- A result may be replaced by an equal one. -/
theorem Returns.to {program : Program Globals α} {s t : Machine Globals} {x y : α}
    (run : Returns program s x t) (same : x = y) : Returns program s y t := same ▸ run

theorem Returns.pure {x : α} {s : Machine Globals} :
    Returns (Pure.pure x : Program Globals α) s x s := rfl

/-- After a program that returns, the rest decides. -/
theorem Returns.step {first : Program Globals α} {second : α → Program Globals β}
    {s t : Machine Globals} {x : α} (head : Returns first s x t) :
    (first >>= second) s = second x t := by
  simp only [Bind.bind, StateT.bind, Except.bind]
  rw [show first s = _ from head]

/-- Run the first program, then the second on its result. -/
theorem Returns.bind {first : Program Globals α} {second : α → Program Globals β}
    {s t u : Machine Globals} {x : α} {y : β} (head : Returns first s x t)
    (tail : Returns (second x) t y u) : Returns (first >>= second) s y u :=
  head.step.trans tail

/-- A sequence depends on its start through the first program only. -/
theorem bind_start {first other : Program Globals α} {second : α → Program Globals β}
    {s t : Machine Globals} (same : first s = other t) :
    (first >>= second) s = (other >>= second) t := by
  simp only [Bind.bind, StateT.bind, same]

/-- A sequence that returns has run both programs. -/
theorem Returns.of_bind {first : Program Globals α} {second : α → Program Globals β}
    {s u : Machine Globals} {y : β} (run : Returns (first >>= second) s y u) :
    ∃ x t, Returns first s x t ∧ Returns (second x) t y u := by
  cases result : first s with
  | ok pair =>
    obtain ⟨x, t⟩ := pair
    have head : Returns first s x t := result
    exact ⟨x, t, head, head.step.symm.trans run⟩
  | error fault =>
    simp only [Returns, Bind.bind, StateT.bind, Except.bind, result] at run
    exact absurd run nofun

/-- A fault of the second program is a fault of the sequence. -/
theorem Returns.bind_faults {first : Program Globals α} {second : α → Program Globals β}
    {s t : Machine Globals} {x : α} {fault : Fault} (head : Returns first s x t)
    (tail : Faults (second x) t fault) : Faults (first >>= second) s fault :=
  head.step.trans tail

/-- A fault of the first program ends the sequence. -/
theorem Faults.bind {first : Program Globals α} {second : α → Program Globals β}
    {s : Machine Globals} {fault : Fault} (head : Faults first s fault) :
    Faults (first >>= second) s fault := by
  simp only [Faults, Bind.bind, StateT.bind, Except.bind]
  rw [show first s = _ from head]

/-- Run a program on a condition, as an `if` without `else` does. -/
def doIf (condition : Prop) [Decidable condition] (program : Program Globals Unit) :
    Program Globals Unit :=
  if condition then program else Pure.pure ()

section Conditions

variable {condition : Prop} [Decidable condition] {s t : Machine Globals}

/-- A conditional whose condition holds runs its first branch. -/
theorem Returns.ifPos {first second : Program Globals α} {x : α} (holds : condition)
    (run : Returns first s x t) : Returns (if condition then first else second) s x t := by
  rw [if_pos holds]
  exact run

/-- A conditional whose condition fails runs its second branch. -/
theorem Returns.ifNeg {first second : Program Globals α} {x : α} (fails : ¬condition)
    (run : Returns second s x t) : Returns (if condition then first else second) s x t := by
  rw [if_neg fails]
  exact run

theorem doIf_pos {program : Program Globals Unit} (holds : condition)
    (run : Returns program s () t) : Returns (doIf condition program) s () t :=
  Returns.ifPos holds run

theorem doIf_neg {program : Program Globals Unit} (fails : ¬condition) :
    Returns (doIf condition program) s () s :=
  Returns.ifNeg fails Returns.pure

end Conditions

/-- Every result of the program has this property, wherever it starts. -/
def Yields (program : Program Globals α) (property : α → Prop) : Prop :=
  ∀ s x t, Returns program s x t → property x

section Results

variable {property : α → Prop}

theorem Yields.pure {x : α} (holds : property x) :
    Yields (Pure.pure x : Program Globals α) property := by
  intro s y t run
  obtain ⟨rfl, _⟩ := Returns.unique Returns.pure run
  exact holds

/-- What the first program yields is known to the second. -/
theorem Yields.andThen {first : Program Globals β} {second : β → Program Globals α} {known : β → Prop}
    (head : Yields first known) (rest : ∀ x, known x → Yields (second x) property) :
    Yields (first >>= second) property := by
  intro s y u run
  obtain ⟨x, t, first, second⟩ := run.of_bind
  exact rest x (head s x t first) t y u second

/-- The last program of a sequence decides. -/
theorem Yields.bind {first : Program Globals β} {second : β → Program Globals α}
    (rest : ∀ x, Yields (second x) property) : Yields (first >>= second) property :=
  .andThen (fun _ _ _ _ => trivial) fun x _ => rest x

theorem Yields.ite {condition : Prop} [Decidable condition] {first second : Program Globals α}
    (holds : condition → Yields first property) (fails : ¬condition → Yields second property) :
    Yields (if condition then first else second) property := by
  split
  · exact holds (by assumption)
  · exact fails (by assumption)

end Results

/-- Unsigned 64-bit values keep the low 64 bits of a sum. -/
def wrap (value : Nat) : Nat := value % 2 ^ 64

/-- Unsigned 64-bit subtraction. -/
def wrapSub (left right : Nat) : Nat := (left + 2 ^ 64 - right) % 2 ^ 64

/-- The signed reading of a 64-bit argument. -/
def signed (value : Nat) : Int := if value < 2 ^ 63 then value else value - 2 ^ 64

theorem wrap_eq {value : Nat} (small : value < 2 ^ 64) : wrap value = value :=
  Nat.mod_eq_of_lt small

theorem wrapSub_eq {left right : Nat} (le : right ≤ left) (small : left < 2 ^ 64) :
    wrapSub left right = left - right := by
  unfold wrapSub
  omega

theorem signed_eq {value : Nat} (small : value < 2 ^ 63) : signed value = value := if_pos small

/-- The `n` cells from `a` on belong to the heap or to one mapping. No cell is
touched when `n` is zero. -/
def Machine.Mapped (s : Machine Globals) (a n : Nat) : Prop :=
  n = 0 ∨ (s.heapStart ≤ a ∧ a + n ≤ s.brk) ∨
    ∃ region ∈ s.maps, region.1 ≤ a ∧ a + n ≤ region.1 + region.2

instance (s : Machine Globals) (a n : Nat) : Decidable (s.Mapped a n) :=
  inferInstanceAs (Decidable (_ ∨ _ ∨ _))

/-- The cells of the heap. -/
def Machine.heap (s : Machine Globals) : Set Nat := Set.Ico s.heapStart s.brk

/-- Part of an accessible range is accessible. -/
theorem Machine.Mapped.sub {s : Machine Globals} {a n b k : Nat} (mapped : s.Mapped a n)
    (low : a ≤ b) (high : b + k ≤ a + n) : s.Mapped b k := by
  rcases mapped with none | heap | ⟨region, member, start, finish⟩
  · exact Or.inl (by omega)
  · exact Or.inr (Or.inl (by omega))
  · exact Or.inr (Or.inr ⟨region, member, by omega, by omega⟩)

/-- A range between the start of the heap and the break is accessible. -/
theorem Machine.mapped_heap {s : Machine Globals} {a n : Nat} (low : s.heapStart ≤ a)
    (high : a + n ≤ s.brk) : s.Mapped a n := Or.inr (Or.inl ⟨low, high⟩)

/-- The machine after its bytes changed. -/
def Machine.withBytes (s : Machine Globals) (bytes : Memory) : Machine Globals :=
  { s with bytes := bytes }

/-- Read a little-endian number of the given width. -/
def loadCells (a width : Nat) : Program Globals Nat := fun s =>
  if s.Mapped a width then .ok (load s.bytes a width, s) else .error .segv

/-- Write a little-endian number of the given width. -/
def storeCells (a width value : Nat) : Program Globals Unit := fun s =>
  if s.Mapped a width then .ok ((), s.withBytes (store s.bytes a width value)) else .error .segv

/-- `memmove(target, source, n)`. -/
def memmove (target source n : Nat) : Program Globals Unit := fun s =>
  if s.Mapped source n ∧ s.Mapped target n then
    .ok ((), s.withBytes (copy s.bytes target source n))
  else .error .segv

/-- `memset(a, byte, n)`. -/
def memset (a : Nat) (byte : UInt8) (n : Nat) : Program Globals Unit := fun s =>
  if s.Mapped a n then .ok ((), s.withBytes (fill s.bytes a n byte)) else .error .segv

/-- `assert(condition)`. -/
def assert (condition : Prop) [Decidable condition] : Program Globals Unit :=
  if condition then Pure.pure () else throw .assertion

/-- Read the globals. -/
def globals : Program Globals Globals := fun s => .ok (s.globals, s)

/-- Change the globals. -/
def modifyGlobals (f : Globals → Globals) : Program Globals Unit := fun s =>
  .ok ((), { s with globals := f s.globals })

theorem loadCells_returns {s : Machine Globals} {a width : Nat} (mapped : s.Mapped a width) :
    Returns (loadCells a width) s (load s.bytes a width) s := if_pos mapped

theorem storeCells_returns {s : Machine Globals} {a width value : Nat}
    (mapped : s.Mapped a width) :
    Returns (storeCells a width value) s () (s.withBytes (store s.bytes a width value)) :=
  if_pos mapped

/-- A byte that was stored is found there. -/
theorem storeCells_byte {s t : Machine Globals} {a : Nat} {byte : UInt8}
    (run : Returns (storeCells a 1 byte.toNat) s () t) : t.bytes a = byte := by
  by_cases mapped : s.Mapped a 1
  · obtain ⟨_, rfl⟩ := run.unique (storeCells_returns mapped)
    exact store_byte _ _ _
  · simp [Returns, storeCells, mapped] at run

theorem memmove_returns {s : Machine Globals} {target source n : Nat}
    (readable : s.Mapped source n) (writable : s.Mapped target n) :
    Returns (memmove target source n) s () (s.withBytes (copy s.bytes target source n)) :=
  if_pos ⟨readable, writable⟩

theorem memset_returns {s : Machine Globals} {a n : Nat} {byte : UInt8} (mapped : s.Mapped a n) :
    Returns (memset a byte n) s () (s.withBytes (fill s.bytes a n byte)) := if_pos mapped

theorem assert_returns {s : Machine Globals} {condition : Prop} [Decidable condition]
    (holds : condition) : Returns (assert condition) s () s := by
  unfold assert
  rw [if_pos holds]
  exact Returns.pure

theorem assert_faults {s : Machine Globals} {condition : Prop} [Decidable condition]
    (fails : ¬condition) : Faults (assert condition) s .assertion := by
  unfold assert
  rw [if_neg fails]
  rfl

theorem globals_returns {s : Machine Globals} : Returns globals s s.globals s := rfl

/-- The value `(void*)-1` by which `sbrk` and `mmap` report failure. -/
def mapFailed : Nat := 2 ^ 64 - 1

/-- The break may move to this address: not below its start, and clear of every
mapping. -/
def Machine.CanMoveBreak (s : Machine Globals) (target : Int) : Prop :=
  s.heapStart ≤ target ∧ target < 2 ^ 64 - 1 ∧
    ∀ region ∈ s.maps, ((region.1 + region.2 : Nat) : Int) ≤ s.heapStart ∨ target ≤ (region.1 : Int)

instance (s : Machine Globals) (target : Int) : Decidable (s.CanMoveBreak target) :=
  inferInstanceAs (Decidable (_ ∧ _ ∧ _))

/-- `sbrk(increment)` in a process whose break only this program moves. It
returns the break before the call, or reports failure and changes nothing. An
increment of zero only asks for the break. -/
def sbrk (increment : Nat) : Program Globals Nat := fun s =>
  if increment = 0 then .ok (s.brk, s)
  else match s.replies with
    | .grant _ contents :: rest =>
      let target : Int := s.brk + signed increment
      if s.CanMoveBreak target then
        .ok (s.brk, { s with
          brk := target.toNat
          bytes := fun x => if s.brk ≤ x ∧ x < target.toNat then contents x else s.bytes x
          replies := rest })
      else .ok (mapFailed, { s with replies := rest })
    | _ => .ok (mapFailed, { s with replies := s.replies.tail })

/-- A mapping may be placed here: on a page of its own, away from the heap and
from every other mapping. -/
def Machine.CanMap (s : Machine Globals) (address length : Nat) : Prop :=
  0 < address ∧ address % 4096 = 0 ∧ address + length < 2 ^ 64 - 1 ∧
    (address + length ≤ s.heapStart ∨ s.brk ≤ address) ∧
    ∀ region ∈ s.maps, region.1 + region.2 ≤ address ∨ address + length ≤ region.1

instance (s : Machine Globals) (address length : Nat) : Decidable (s.CanMap address length) :=
  inferInstanceAs (Decidable (_ ∧ _ ∧ _ ∧ _ ∧ _))

/-- `mmap` of anonymous private memory, which the system fills with zeros. -/
def mmap (length : Nat) : Program Globals Nat := fun s =>
  match s.replies with
  | .grant address _ :: rest =>
    if s.CanMap address length then
      .ok (address, { s with
        maps := (address, length) :: s.maps
        bytes := fill s.bytes address length 0
        replies := rest })
    else .ok (mapFailed, { s with replies := rest })
  | _ => .ok (mapFailed, { s with replies := s.replies.tail })

/-- `munmap(address, length)`, whose result the program ignores. A live mapping
goes away. The system rejects any other range unless it starts on a page. The
pages that it would then take from the heap stay readable in the model, which so
has every state of the process up to its crash, and more. Where it matters what
the process can read afterwards, the runs are those without such a call. -/
def munmap (address length : Nat) : Program Globals Unit := fun s =>
  if (address, length) ∈ s.maps then
    .ok ((), { s with maps := s.maps.erase (address, length) })
  else .ok ((), { s with strayUnmaps := (address, length) :: s.strayUnmaps })

/-- Asking for the break changes nothing. -/
theorem sbrk_zero {s : Machine Globals} : Returns (sbrk 0) s s.brk s := rfl

/-- The next answer lets the break move up by this much. -/
def Machine.Grants (s : Machine Globals) (increment : Nat) : Prop :=
  match s.replies with
  | .grant _ _ :: _ => s.CanMoveBreak (s.brk + increment : Nat)
  | _ => False

instance (s : Machine Globals) (increment : Nat) : Decidable (s.Grants increment) := by
  unfold Machine.Grants
  rcases s.replies with _ | ⟨_ | _, _⟩ <;> exact inferInstance

/-- A request for more heap is refused, or extends it contiguously and clear of
every mapping. Either way it consumes one answer. -/
theorem sbrk_cases (s : Machine Globals) {n : Nat} (positive : 0 < n)
    (small : n < 2 ^ 63) :
    (¬s.Grants n ∧
      Returns (sbrk n) s mapFailed { s with replies := s.replies.tail }) ∨
      s.Grants n ∧ ∃ bytes, Returns (sbrk n) s s.brk
          { s with brk := s.brk + n, bytes := bytes, replies := s.replies.tail } ∧
        Set.EqOn bytes s.bytes (Set.Ico s.brk (s.brk + n))ᶜ ∧
        s.brk + n < 2 ^ 64 - 1 ∧
        ∀ region ∈ s.maps, region.1 + region.2 ≤ s.heapStart ∨ s.brk + n ≤ region.1 := by
  have nonzero : n ≠ 0 := by omega
  have target : (s.brk : Int) + signed n = (s.brk + n : Nat) := by
    rw [signed_eq small]
    omega
  unfold Returns sbrk Machine.Grants
  rw [if_neg nonzero]
  rcases answers : s.replies with _ | ⟨_ | ⟨address, contents⟩, rest⟩
  · exact Or.inl ⟨id, rfl⟩
  · exact Or.inl ⟨id, rfl⟩
  · by_cases can : s.CanMoveBreak (s.brk + n : Nat)
    · refine Or.inr ⟨can, fun x => if s.brk ≤ x ∧ x < s.brk + n then contents x else s.bytes x,
        ?_, fun x outside => if_neg outside, ?_, ?_⟩
      · simp only [target, if_pos can, Int.toNat_natCast, List.tail_cons]
      · have := can.2.1
        omega
      · intro region member
        have := can.2.2 region member
        omega
    · exact Or.inl ⟨can, by simp only [target, if_neg can, List.tail_cons]⟩

/-- An increment of zero is always granted. -/
theorem sbrk_extends (s : Machine Globals) {increment : Nat} (small : increment < 2 ^ 63)
    (top : s.brk < 2 ^ 64 - 1)
    (clear : ∀ region ∈ s.maps, region.1 + region.2 ≤ s.heapStart ∨ s.brk ≤ region.1) :
    (0 < increment ∧ ¬s.Grants increment ∧
      Returns (sbrk increment) s mapFailed { s with replies := s.replies.tail }) ∨
      (increment = 0 ∨ s.Grants increment) ∧ ∃ bytes replies, Returns (sbrk increment) s s.brk
          { s with brk := s.brk + increment, bytes := bytes, replies := replies } ∧
        Set.EqOn bytes s.bytes (Set.Ico s.brk (s.brk + increment))ᶜ ∧
        s.brk + increment < 2 ^ 64 - 1 ∧
        ∀ region ∈ s.maps, region.1 + region.2 ≤ s.heapStart ∨ s.brk + increment ≤ region.1 := by
  by_cases none : increment = 0
  · subst none
    exact Or.inr ⟨Or.inl rfl, s.bytes, s.replies, rfl, fun _ _ => rfl, top, clear⟩
  · rcases sbrk_cases s (Nat.pos_of_ne_zero none) small with ⟨no, refused⟩ | ⟨yes, bytes, granted⟩
    · exact Or.inl ⟨Nat.pos_of_ne_zero none, no, refused⟩
    · exact Or.inr ⟨Or.inr yes, bytes, _, granted⟩

/-- A request for more heap that the system answers with a grant. -/
theorem sbrk_granted {s : Machine Globals} {n address : Nat} {contents : Nat → UInt8}
    {rest : List Reply} (positive : 0 < n) (small : n < 2 ^ 63)
    (answers : s.replies = .grant address contents :: rest)
    (can : s.CanMoveBreak (s.brk + n : Nat)) :
    ∃ bytes, Returns (sbrk n) s s.brk
      { s with brk := s.brk + n, bytes := bytes, replies := rest } := by
  rcases sbrk_cases s positive small with ⟨no, _⟩ | ⟨_, bytes, granted, _⟩
  · exact absurd (by unfold Machine.Grants; rw [answers]; exact can) no
  · rw [answers] at granted
    exact ⟨bytes, granted⟩

/-- The next answer lets a mapping of this length be made. -/
def Machine.Maps (s : Machine Globals) (length : Nat) : Prop :=
  match s.replies with
  | .grant address _ :: _ => s.CanMap address length
  | _ => False

instance (s : Machine Globals) (length : Nat) : Decidable (s.Maps length) := by
  unfold Machine.Maps
  rcases s.replies with _ | ⟨_ | _, _⟩ <;> exact inferInstance

/-- A request for a mapping is refused, or gives zeroed pages of their own. -/
theorem mmap_cases (s : Machine Globals) (length : Nat) :
    (¬s.Maps length ∧ Returns (mmap length) s mapFailed { s with replies := s.replies.tail }) ∨
      s.Maps length ∧ ∃ address, Returns (mmap length) s address
          { s with
            maps := (address, length) :: s.maps
            bytes := fill s.bytes address length 0
            replies := s.replies.tail } ∧ s.CanMap address length := by
  unfold Returns mmap Machine.Maps
  rcases answers : s.replies with _ | ⟨_ | ⟨address, contents⟩, rest⟩
  · exact Or.inl ⟨id, rfl⟩
  · exact Or.inl ⟨id, rfl⟩
  · by_cases can : s.CanMap address length
    · exact Or.inr ⟨can, address, by simp only [if_pos can, List.tail_cons], can⟩
    · exact Or.inl ⟨can, by simp only [if_neg can, List.tail_cons]⟩

/-- Giving back a live mapping. -/
theorem munmap_returns {s : Machine Globals} {address length : Nat}
    (live : (address, length) ∈ s.maps) :
    Returns (munmap address length) s () { s with maps := s.maps.erase (address, length) } :=
  if_pos live

end OperatingSystems.Process
