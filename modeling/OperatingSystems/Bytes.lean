import Mathlib

/-!
# Byte memories

A memory assigns a byte to every address. Words are little-endian, as on the
machines the allocators run on. A store changes its own cells only, and a load
depends on its own cells only; every frame argument of the development is an
instance of these two facts.

Copying has the meaning of `memmove`: the destination receives the bytes the
source held before the copy, also when the two ranges overlap.
-/

namespace OperatingSystems.Bytes

/-- A byte at every address. -/
abbrev Memory := Nat → UInt8

/-- The `n` addresses from `a` on. -/
def cells (a n : Nat) : Set Nat := Set.Ico a (a + n)

@[simp] theorem mem_cells {a n x : Nat} : x ∈ cells a n ↔ a ≤ x ∧ x < a + n := Iff.rfl

/-- The little-endian number in the `n` cells from `a` on. -/
def load (memory : Memory) (a : Nat) : Nat → Nat
  | 0 => 0
  | n + 1 => (memory a).toNat + 256 * load memory (a + 1) n

/-- Write the low `n` bytes of `value` to the cells from `a` on. -/
def store (memory : Memory) (a n value : Nat) : Memory :=
  fun x => if a ≤ x ∧ x < a + n then UInt8.ofNat (value / 256 ^ (x - a)) else memory x

/-- Move `n` bytes from `source` to `target`; the ranges may overlap. -/
def copy (memory : Memory) (target source n : Nat) : Memory :=
  fun x => if target ≤ x ∧ x < target + n then memory (source + (x - target)) else memory x

/-- Set the `n` cells from `a` on to `byte`. -/
def fill (memory : Memory) (a n : Nat) (byte : UInt8) : Memory :=
  fun x => if a ≤ x ∧ x < a + n then byte else memory x

/-- Cells whose bytes are the digits of `value` load its low `n` bytes. -/
theorem load_digits (memory : Memory) (a n value : Nat)
    (digits : ∀ i, i < n → (memory (a + i)).toNat = value / 256 ^ i % 256) :
    load memory a n = value % 256 ^ n := by
  induction n generalizing a value with
  | zero => simp [load, Nat.mod_one]
  | succ n inductionHypothesis =>
    have first : (memory a).toNat = value % 256 := by simpa using digits 0 (by omega)
    have rest : load memory (a + 1) n = value / 256 % 256 ^ n := by
      apply inductionHypothesis
      intro i inside
      have digit := digits (i + 1) (by omega)
      rw [show a + 1 + i = a + (i + 1) by omega, digit, Nat.pow_succ', Nat.div_div_eq_div_mul]
    rw [load, first, rest, Nat.pow_succ', Nat.mod_mul]

/-- A store is read back, reduced to the stored width. -/
theorem load_store (memory : Memory) (a n value : Nat) :
    load (store memory a n value) a n = value % 256 ^ n := by
  apply load_digits
  intro i inside
  simp [store, inside]

/-- A load depends on its own cells only. -/
theorem load_congr {left right : Memory} {a n : Nat}
    (same : Set.EqOn left right (cells a n)) : load left a n = load right a n := by
  induction n generalizing a with
  | zero => rfl
  | succ n inductionHypothesis =>
    have rest : load left (a + 1) n = load right (a + 1) n := by
      apply inductionHypothesis
      intro x inside
      exact same (by simp only [mem_cells] at inside ⊢; omega)
    rw [load, load, same (by simp : a ∈ cells a (n + 1)), rest]

/-- A load never exceeds its width. -/
theorem load_lt (memory : Memory) (a n : Nat) : load memory a n < 256 ^ n := by
  induction n generalizing a with
  | zero => simp [load]
  | succ n inductionHypothesis =>
    have low := (memory a).toNat_lt
    have high := inductionHypothesis (a + 1)
    rw [load, Nat.pow_succ']
    omega

/-- A store leaves every other cell as it was. -/
theorem store_outside (memory : Memory) (a n value : Nat) :
    Set.EqOn (store memory a n value) memory (cells a n)ᶜ := by
  intro x outside
  exact if_neg outside

/-- A byte that was stored is found there. -/
theorem store_byte (memory : Memory) (a : Nat) (byte : UInt8) : store memory a 1 byte.toNat a = byte := by
  simp [store]

/-- A copy leaves every cell outside its target as it was. -/
theorem copy_outside (memory : Memory) (target source n : Nat) :
    Set.EqOn (copy memory target source n) memory (cells target n)ᶜ := by
  intro x outside
  exact if_neg outside

/-- The target of a copy holds the bytes of the source before it. -/
theorem copy_inside (memory : Memory) (target source n i : Nat) (inside : i < n) :
    copy memory target source n (target + i) = memory (source + i) := by
  simp [copy, inside]

/-- A word wholly inside the target is the word at the same place of the source. -/
theorem load_copy (memory : Memory) (target source n offset width : Nat)
    (inside : offset + width ≤ n) :
    load (copy memory target source n) (target + offset) width =
      load memory (source + offset) width := by
  induction width generalizing offset with
  | zero => rfl
  | succ width inductionHypothesis =>
    have rest := inductionHypothesis (offset + 1) (by omega)
    rw [load, load, copy_inside memory target source n offset (by omega), Nat.add_assoc, rest,
      Nat.add_assoc]

/-- Filling leaves every cell outside its range as it was. -/
theorem fill_outside (memory : Memory) (a n : Nat) (byte : UInt8) :
    Set.EqOn (fill memory a n byte) memory (cells a n)ᶜ := by
  intro x outside
  exact if_neg outside

/-- A filled cell holds the byte. -/
theorem fill_inside (memory : Memory) (a n i : Nat) (byte : UInt8) (inside : i < n) :
    fill memory a n byte (a + i) = byte := by
  simp [fill, inside]

-- From here on the operations are known by these lemmas alone.
attribute [irreducible] load store copy fill

end OperatingSystems.Bytes
