import Mathlib.Data.List.Chain
import Mathlib.Data.List.Pairwise
import Mathlib.Data.List.Nodup

/-!
# Tilings of an interval

A tiling is a list of pieces, each with a start and an extent, that follow one
another without gap or overlap from a low bound to a high bound. A piece is
addressed by splitting the list around it; replacing pieces between two places
asks only that the new pieces tile the same interval.
-/

namespace OperatingSystems.Tiling

universe u
variable {β : Type u} (start extent : β → Nat)

/-- The pieces cover the interval from `low` to `high`, in order. -/
def Tiles : Nat → List β → Nat → Prop
  | low, [], high => low = high
  | low, piece :: rest, high => start piece = low ∧ Tiles (low + extent piece) rest high

instance (low high : Nat) (pieces : List β) : Decidable (Tiles start extent low pieces high) := by
  induction pieces generalizing low with
  | nil => exact inferInstanceAs (Decidable (low = high))
  | cons piece rest decided =>
    exact inferInstanceAs (Decidable (_ ∧ _))

variable {start extent} {low high : Nat} {xs ys : List β} {piece other : β}

@[simp] theorem tiles_nil : Tiles start extent low [] high ↔ low = high := Iff.rfl

@[simp] theorem tiles_cons : Tiles start extent low (piece :: xs) high ↔
    start piece = low ∧ Tiles start extent (low + extent piece) xs high := Iff.rfl

/-- A tiling splits at any place. -/
theorem tiles_append : Tiles start extent low (xs ++ ys) high ↔
    ∃ middle, Tiles start extent low xs middle ∧ Tiles start extent middle ys high := by
  induction xs generalizing low with
  | nil => simp
  | cons piece xs inductionHypothesis => simp [inductionHypothesis, and_assoc]

/-- A tiling never runs backwards. -/
theorem Tiles.le (tiles : Tiles start extent low xs high) : low ≤ high := by
  induction xs generalizing low with
  | nil => exact Nat.le_of_eq tiles
  | cons piece xs inductionHypothesis =>
    have rest := inductionHypothesis tiles.2
    omega

/-- Of pieces that have some extent at least there are no more than fit. -/
theorem Tiles.length_le {least : Nat} (tiles : Tiles start extent low xs high)
    (room : ∀ x ∈ xs, least ≤ extent x) : xs.length * least + low ≤ high := by
  induction xs generalizing low with
  | nil =>
    have same : low = high := tiles
    rw [List.length_nil]
    omega
  | cons piece xs inductionHypothesis =>
    have rest := inductionHypothesis tiles.2 fun x member => room x (List.mem_cons_of_mem piece member)
    have first := room piece List.mem_cons_self
    rw [List.length_cons, Nat.succ_mul]
    omega

/-- Every piece lies between the bounds. -/
theorem Tiles.within {x : β} (tiles : Tiles start extent low xs high) (member : x ∈ xs) :
    low ≤ start x ∧ start x + extent x ≤ high := by
  obtain ⟨front, back, rfl⟩ := List.append_of_mem member
  obtain ⟨middle, before, rfl, after⟩ := tiles_append.mp tiles
  exact ⟨before.le, after.le⟩

/-- The pieces around a place tile what lies below it and above it. -/
theorem Tiles.around (tiles : Tiles start extent low (xs ++ piece :: ys) high) :
    Tiles start extent low xs (start piece) ∧
      Tiles start extent (start piece + extent piece) ys high := by
  obtain ⟨middle, before, rfl, after⟩ := tiles_append.mp tiles
  exact ⟨before, after⟩

/-- Earlier pieces end before later ones start. -/
theorem Tiles.pairwise (tiles : Tiles start extent low xs high) :
    xs.Pairwise fun x y => start x + extent x ≤ start y := by
  induction xs generalizing low with
  | nil => exact List.Pairwise.nil
  | cons piece xs inductionHypothesis =>
    refine List.pairwise_cons.mpr ⟨fun other member => ?_, inductionHypothesis tiles.2⟩
    have := (tiles.2.within member).1
    have := tiles.1
    omega

/-- Pieces that tile from one bound reach one other bound. -/
theorem Tiles.reaches {other : Nat} (left : Tiles start extent low xs high)
    (right : Tiles start extent low xs other) : high = other := by
  induction xs generalizing low with
  | nil => exact left.symm.trans right
  | cons piece xs inductionHypothesis => exact inductionHypothesis left.2 right.2

/-- Some pieces tile one interval only. -/
theorem Tiles.bounds {low' high' : Nat} (left : Tiles start extent low xs high)
    (right : Tiles start extent low' xs high') (occupied : xs ≠ []) : low = low' ∧ high = high' := by
  cases xs with
  | nil => exact absurd rfl occupied
  | cons piece xs =>
    have same : low = low' := left.1.symm.trans right.1
    subst same
    exact ⟨rfl, left.reaches right⟩

/-- Two different pieces do not overlap. -/
theorem Tiles.disjoint (tiles : Tiles start extent low xs high) (left : piece ∈ xs)
    (right : other ∈ xs) (distinct : piece ≠ other) :
    start piece + extent piece ≤ start other ∨ start other + extent other ≤ start piece := by
  have symmetric : Std.Symm fun x y : β =>
      start x + extent x ≤ start y ∨ start y + extent y ≤ start x := ⟨fun _ _ => Or.symm⟩
  have either : xs.Pairwise fun x y =>
      start x + extent x ≤ start y ∨ start y + extent y ≤ start x :=
    tiles.pairwise.imp fun ordered => Or.inl ordered
  exact either.forall left right distinct

/-- A piece of another tiling that shares the neighbours of a piece lies beside that
piece or inside it. -/
theorem Tiles.enclosed {zs : List β} {c : β} {top : Nat}
    (tiles : Tiles start extent low (xs ++ piece :: ys) high) (outer : Tiles start extent low zs top)
    (before : ∀ p, xs.getLast? = some p → p ∈ zs ∧ p ≠ c)
    (after : ∀ n, ys.head? = some n → n ∈ zs ∧ n ≠ c) (closed : ys = [] → top ≤ high) (member : c ∈ zs) :
    start c + extent c ≤ start piece ∨ start piece + extent piece ≤ start c ∨
      start piece ≤ start c ∧ start c + extent c ≤ start piece + extent piece := by
  obtain ⟨below, above⟩ := tiles.around
  have place := outer.within member
  have low : start c + extent c ≤ start piece ∨ start piece ≤ start c := by
    rcases List.eq_nil_or_concat xs with rfl | ⟨front, p, rfl⟩
    · have first : low = start piece := below
      omega
    · obtain ⟨inOther, distinct⟩ := before p (by simp)
      rw [List.concat_eq_append] at below
      obtain ⟨_, _, rfl, finish⟩ := tiles_append.mp below
      have ends : start p + extent p = start piece := finish
      have := outer.disjoint inOther member distinct
      omega
  have high : start piece + extent piece ≤ start c ∨
      start c + extent c ≤ start piece + extent piece := by
    cases ys with
    | nil =>
      have last : start piece + extent piece = high := above
      have := closed rfl
      omega
    | cons n back =>
      obtain ⟨inOther, distinct⟩ := after n rfl
      have begins : start n = start piece + extent piece := above.1
      have := outer.disjoint inOther member distinct
      omega
  omega

section Positive

variable (positive : ∀ x : β, 0 < extent x)
include positive

/-- Pieces that take room start at different places. -/
theorem Tiles.nodup (tiles : Tiles start extent low xs high) : (xs.map start).Nodup := by
  refine List.pairwise_map.mpr (tiles.pairwise.imp fun {x y} ordered same => ?_)
  have := positive x
  omega

/-- A piece is known by where it starts. -/
theorem Tiles.unique (tiles : Tiles start extent low xs high) (left : piece ∈ xs)
    (right : other ∈ xs) (same : start piece = start other) : piece = other :=
  List.inj_on_of_nodup_map (tiles.nodup positive) left right same

/-- Only the empty list tiles an interval without room. -/
theorem Tiles.none (tiles : Tiles start extent low xs low) : xs = [] := by
  cases xs with
  | nil => rfl
  | cons piece rest =>
    have := positive piece
    have := tiles.2.le
    omega

/-- A tiling without two gaps in a row is known by its other pieces, when a gap is
known by its place. -/
theorem Tiles.determined (gap : β → Bool)
    (known : ∀ x ∈ xs, ∀ y ∈ ys, gap x = true → gap y = true → start x = start y →
      extent x = extent y → x = y)
    (left : Tiles start extent low xs high) (right : Tiles start extent low ys high)
    (apart : xs.IsChain fun x y => gap x = false ∨ gap y = false)
    (apart' : ys.IsChain fun x y => gap x = false ∨ gap y = false)
    (same : xs.filter (fun x => !gap x) = ys.filter fun x => !gap x) : xs = ys := by
  induction xs generalizing low ys with
  | nil =>
    obtain rfl : low = high := left
    exact (right.none positive).symm
  | cons x xs inductionHypothesis =>
    cases ys with
    | nil =>
      obtain rfl : low = high := right
      exact left.none positive
    | cons y ys =>
      obtain ⟨startX, restX⟩ := left
      obtain ⟨startY, restY⟩ := right
      obtain ⟨ahead, chain⟩ := List.isChain_cons.mp apart
      obtain ⟨ahead', chain'⟩ := List.isChain_cons.mp apart'
      -- A piece that is no gap starts where the other tiling has it.
      have whole : x = y := by
        cases gapX : gap x <;> cases gapY : gap y <;>
          simp only [List.filter_cons, gapX, gapY, Bool.not_true, Bool.not_false, if_true,
            Bool.false_eq_true, if_false] at same
        · exact (List.cons.inj same).1
        · have member : x ∈ ys := List.mem_of_mem_filter (same ▸ List.mem_cons_self)
          have := (restY.within member).1
          have := positive y
          omega
        · have member : y ∈ xs := List.mem_of_mem_filter (same ▸ List.mem_cons_self)
          have := (restX.within member).1
          have := positive x
          omega
        · apply known x (by simp) y (by simp) gapX gapY (startX.trans startY.symm)
          cases xs with
          | nil =>
            cases ys with
            | nil =>
              have endX : low + extent x = high := restX
              have endY : low + extent y = high := restY
              omega
            | cons n ys =>
              have used := (ahead' n rfl).resolve_left (by simp [gapY])
              simp [used] at same
          | cons m xs =>
            have usedM := (ahead m rfl).resolve_left (by simp [gapX])
            cases ys with
            | nil => simp [usedM] at same
            | cons n ys =>
              have usedN := (ahead' n rfl).resolve_left (by simp [gapY])
              simp only [List.filter_cons, usedM, usedN, Bool.not_false, if_true] at same
              have first := (List.cons.inj same).1
              have := restX.1
              have := restY.1
              rw [first] at *
              omega
      subst whole
      refine congrArg (x :: ·) (inductionHypothesis
        (fun m inXs n inYs => known m (by simp [inXs]) n (by simp [inYs])) restX restY chain chain' ?_)
      cases gapX : gap x <;> simpa [gapX] using same

end Positive

/-- Among pieces without two gaps in a row there is at most one gap more than there are
other pieces, and no more if the first piece is none. -/
theorem gaps_le (gap : β → Bool) (apart : xs.IsChain fun x y => gap x = false ∨ gap y = false) :
    xs.countP gap ≤ xs.countP (fun x => !gap x) + 1 ∧
      ((∀ x ∈ xs.head?, gap x = false) → xs.countP gap ≤ xs.countP fun x => !gap x) := by
  induction xs with
  | nil => simp
  | cons x xs inductionHypothesis =>
    obtain ⟨ahead, chain⟩ := List.isChain_cons.mp apart
    obtain ⟨most, exactly⟩ := inductionHypothesis chain
    cases gapX : gap x with
    | false =>
      simp only [List.countP_cons, gapX, Bool.false_eq_true, if_false, Bool.not_false, if_true]
      omega
    | true =>
      have fewer := exactly fun y isHead => (ahead y isHead).resolve_left (by simp [gapX])
      refine ⟨?_, fun none => absurd (none x rfl) (by simp [gapX])⟩
      simp only [List.countP_cons, gapX, Bool.not_true, Bool.false_eq_true, if_false, if_true]
      omega

end OperatingSystems.Tiling
