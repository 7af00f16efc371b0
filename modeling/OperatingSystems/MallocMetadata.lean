import OperatingSystems.DoublyLinked
import OperatingSystems.Process

/-!
# `struct MallocMetadata`

Both allocators describe a block by the same record of 32 bytes: the payload
size at offset 0, the free flag at offset 8, the two list links at offsets 16
and 24. Bytes 9 to 15 are padding. A record is read and written in place, so
its fields are views of the bytes of the process.
-/

namespace OperatingSystems.MallocMetadata

open Bytes Process

/-- `sizeof(MallocMetadata)`, written `SOM` in the source. -/
abbrev SOM : Nat := 32

/-- `size`, the payload size of the block. -/
def size (bytes : Memory) (a : Nat) : Nat := load bytes a 8

/-- `is_free`. -/
def isFree (bytes : Memory) (a : Nat) : Bool := load bytes (a + 8) 1 != 0

/-- `next`. -/
def next (bytes : Memory) (a : Nat) : Nat := load bytes (a + 16) 8

/-- `prev`. -/
def prev (bytes : Memory) (a : Nat) : Nat := load bytes (a + 24) 8

def setSize (bytes : Memory) (a value : Nat) : Memory := store bytes a 8 value

def setFree (bytes : Memory) (a : Nat) (value : Bool) : Memory :=
  store bytes (a + 8) 1 value.toNat

def setNext (bytes : Memory) (a value : Nat) : Memory := store bytes (a + 16) 8 value

def setPrev (bytes : Memory) (a value : Nat) : Memory := store bytes (a + 24) 8 value

section Programs

variable {Globals : Type}

def readSize (a : Nat) : Program Globals Nat := loadCells a 8

def readFree (a : Nat) : Program Globals Bool := do
  let flag ← loadCells (a + 8) 1
  pure (flag != 0)

def readNext (a : Nat) : Program Globals Nat := loadCells (a + 16) 8

def readPrev (a : Nat) : Program Globals Nat := loadCells (a + 24) 8

def writeSize (a value : Nat) : Program Globals Unit := storeCells a 8 value

def writeFree (a : Nat) (value : Bool) : Program Globals Unit := storeCells (a + 8) 1 value.toNat

def writeNext (a value : Nat) : Program Globals Unit := storeCells (a + 16) 8 value

def writePrev (a value : Nat) : Program Globals Unit := storeCells (a + 24) 8 value

variable {s : Machine Globals} {a : Nat}

theorem readSize_returns (mapped : s.Mapped a 32) :
    Returns (readSize a) s (size s.bytes a) s :=
  loadCells_returns (mapped.sub (by omega) (by omega))

theorem readFree_returns (mapped : s.Mapped a 32) :
    Returns (readFree a) s (isFree s.bytes a) s :=
  Returns.bind (loadCells_returns (mapped.sub (by omega) (by omega))) Returns.pure

theorem readNext_returns (mapped : s.Mapped a 32) :
    Returns (readNext a) s (next s.bytes a) s :=
  loadCells_returns (mapped.sub (by omega) (by omega))

theorem readPrev_returns (mapped : s.Mapped a 32) :
    Returns (readPrev a) s (prev s.bytes a) s :=
  loadCells_returns (mapped.sub (by omega) (by omega))

theorem writeSize_returns {value : Nat} (mapped : s.Mapped a 32) :
    Returns (writeSize a value) s () (s.withBytes (setSize s.bytes a value)) :=
  storeCells_returns (mapped.sub (by omega) (by omega))

theorem writeFree_returns {value : Bool} (mapped : s.Mapped a 32) :
    Returns (writeFree a value) s () (s.withBytes (setFree s.bytes a value)) :=
  storeCells_returns (mapped.sub (by omega) (by omega))

theorem writeNext_returns {value : Nat} (mapped : s.Mapped a 32) :
    Returns (writeNext a value) s () (s.withBytes (setNext s.bytes a value)) :=
  storeCells_returns (mapped.sub (by omega) (by omega))

theorem writePrev_returns {value : Nat} (mapped : s.Mapped a 32) :
    Returns (writePrev a value) s () (s.withBytes (setPrev s.bytes a value)) :=
  storeCells_returns (mapped.sub (by omega) (by omega))

end Programs

variable {left right bytes : Memory} {changed : Set Nat} {a value : Nat}

theorem size_setSize (small : value < 2 ^ 64) : size (setSize bytes a value) a = value := by
  rw [size, setSize, load_store]
  exact Nat.mod_eq_of_lt small

theorem isFree_setFree {flag : Bool} : isFree (setFree bytes a flag) a = flag := by
  rw [isFree, setFree, load_store]
  cases flag <;> rfl

theorem next_setNext (small : value < 2 ^ 64) : next (setNext bytes a value) a = value := by
  rw [next, setNext, load_store]
  exact Nat.mod_eq_of_lt small

theorem prev_setPrev (small : value < 2 ^ 64) : prev (setPrev bytes a value) a = value := by
  rw [prev, setPrev, load_store]
  exact Nat.mod_eq_of_lt small

theorem setSize_outside : Set.EqOn (setSize bytes a value) bytes (cells a 8)ᶜ :=
  store_outside _ _ _ _

theorem setFree_outside {flag : Bool} : Set.EqOn (setFree bytes a flag) bytes (cells (a + 8) 1)ᶜ :=
  store_outside _ _ _ _

theorem setNext_outside : Set.EqOn (setNext bytes a value) bytes (cells (a + 16) 8)ᶜ :=
  store_outside _ _ _ _

theorem setPrev_outside : Set.EqOn (setPrev bytes a value) bytes (cells (a + 24) 8)ᶜ :=
  store_outside _ _ _ _

/-! A field keeps its value under any change of bytes that avoids its cells. -/

/-- A load is unaffected by changes outside its cells. -/
theorem load_frame {n : Nat} (frame : Set.EqOn left right changedᶜ)
    (clear : ∀ x, a ≤ x → x < a + n → x ∉ changed) : load left a n = load right a n :=
  load_congr fun x inside => frame (clear x inside.1 inside.2)

theorem size_frame (frame : Set.EqOn left right changedᶜ)
    (clear : ∀ x, a ≤ x → x < a + 8 → x ∉ changed) : size left a = size right a :=
  load_frame frame clear

theorem isFree_frame (frame : Set.EqOn left right changedᶜ)
    (clear : ∀ x, a + 8 ≤ x → x < a + 9 → x ∉ changed) : isFree left a = isFree right a := by
  rw [isFree, isFree, load_frame frame fun x low high => clear x low (by omega)]

theorem next_frame (frame : Set.EqOn left right changedᶜ)
    (clear : ∀ x, a + 16 ≤ x → x < a + 24 → x ∉ changed) : next left a = next right a :=
  load_frame frame fun x low high => clear x low (by omega)

theorem prev_frame (frame : Set.EqOn left right changedᶜ)
    (clear : ∀ x, a + 24 ≤ x → x < a + 32 → x ∉ changed) : prev left a = prev right a :=
  load_frame frame fun x low high => clear x low (by omega)

/-- The fields of a record copied whole are those of the original. -/
theorem copied_fields (bytes : Memory) (target source : Nat) :
    size (copy bytes target source 32) target = size bytes source ∧
      isFree (copy bytes target source 32) target = isFree bytes source := by
  constructor
  · simpa only [size, Nat.add_zero] using load_copy bytes target source 32 0 8 (by decide)
  · rw [isFree, isFree, load_copy bytes target source 32 8 1 (by decide)]

/-- The fields of the record in a new mapping for a payload of `n` bytes. -/
theorem mapping_fields (bytes : Memory) (a : Nat) {n : Nat} (small : n < 2 ^ 64) :
    size (setFree (setSize (fill bytes a (n + 32) 0) a n) a false) a = n ∧
      isFree (setFree (setSize (fill bytes a (n + 32) 0) a n) a false) a = false ∧
      Set.EqOn (setFree (setSize (fill bytes a (n + 32) 0) a n) a false) bytes (cells a (n + 32))ᶜ := by
  have flagged : ∀ m, Set.EqOn (setFree m a false) m (cells (a + 8) 1)ᶜ := fun _ => setFree_outside
  refine ⟨?_, isFree_setFree, ?_⟩
  · refine (size_frame (flagged _) fun x low high => ?_).trans (size_setSize small)
    simp only [mem_cells]
    omega
  · refine (setFree_outside.mono ?_).trans ((setSize_outside.mono ?_).trans (fill_outside _ _ _ _)) <;>
    · refine Set.compl_subset_compl.mpr fun x inside => ?_
      simp only [mem_cells] at inside ⊢
      omega

/-- The cells of the links of a set of nodes. -/
def linkCells (nodes : List Nat) : Set Nat := {x | ∃ n ∈ nodes, n + 16 ≤ x ∧ x < n + 32}

theorem linkCells_mono {few many : List Nat} (subset : few ⊆ many) :
    linkCells few ⊆ linkCells many := by
  rintro x ⟨n, member, inside⟩
  exact ⟨n, subset member, inside⟩

/-- Two records that do not overlap. -/
def Apart (a b : Nat) : Prop := a + 32 ≤ b ∨ b + 32 ≤ a

theorem Apart.symm {a b : Nat} (apart : Apart a b) : Apart b a := Or.symm apart

end OperatingSystems.MallocMetadata
