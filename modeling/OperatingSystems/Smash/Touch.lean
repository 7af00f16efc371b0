import OperatingSystems.Texts

/-!
# The timestamp of `touch`

`TouchCommand::execute` cuts its timestamp at the colons. It passes the position
of the next colon to `substr` where that expects a length, so that a piece may
run on into the fields behind it; `atoi` stops at the colon.

A position that `find_first_of` does not find is `npos`, and one more than it is 0.
-/

namespace OperatingSystems.Smash

open Texts

/-- Why `TouchCommand::execute` has no result: `substr` throws, or a number is none
that `int` can hold. -/
inductive TouchFault where
  | outOfRange
  | undefined
deriving DecidableEq, Repr

/-- The fields of `struct tm` that are set. -/
structure Tm where
  tmSec : Int
  tmMin : Int
  tmHour : Int
  tmMday : Int
  tmMon : Int
  tmYear : Int
  tmIsdst : Int
deriving DecidableEq, Repr

/-- `find_first_of(":", pos)`. -/
def findColon (timestamp : Text) (pos : Nat) : Option Nat :=
  ((timestamp.drop pos).findIdx? (· = ':')).map (pos + ·)

/-- `atoi` of a piece of the timestamp. -/
def atoiPiece (timestamp : Text) (lpos : Nat) (rpos : Option Nat) : Except TouchFault Int :=
  match substr timestamp lpos rpos with
  | none => .error .outOfRange
  | some piece =>
    match atoi piece with
    | none => .error .undefined
    | some value => .ok value

/-- A difference as an `int`. -/
def minus (value less : Int) : Except TouchFault Int :=
  match asInt (value - less) with
  | none => .error .undefined
  | some value => .ok value

/-- The `tm` that `TouchCommand::execute` fills in. -/
def touchTm (timestamp : Text) : Except TouchFault Tm := do
  let lpos := 0
  let rpos := findColon timestamp lpos
  let sec ← atoiPiece timestamp lpos rpos
  let lpos := rpos.elim 0 (· + 1)
  let rpos := findColon timestamp lpos
  let min ← atoiPiece timestamp lpos rpos
  let lpos := rpos.elim 0 (· + 1)
  let rpos := findColon timestamp lpos
  let hour ← atoiPiece timestamp lpos rpos
  let lpos := rpos.elim 0 (· + 1)
  let rpos := findColon timestamp lpos
  let mday ← atoiPiece timestamp lpos rpos
  let lpos := rpos.elim 0 (· + 1)
  let rpos := findColon timestamp lpos
  let mon ← minus (← atoiPiece timestamp lpos rpos) 1
  let lpos := rpos.elim 0 (· + 1)
  let year ← minus (← atoiPiece timestamp lpos (some (timestamp.length + 1))) 1900
  .ok ⟨sec, min, hour, mday, mon, year, 1⟩

/-- What `TouchCommand::execute` comes to: an error message, or a time set for a
file, with the message when `utime` fails. -/
inductive TouchOutcome where
  | refused (message : Text)
  | stamped (path : Text) (timeptr : Tm) (epochTime : Int) (message : Option Text)
deriving DecidableEq, Repr

/-- `TouchCommand::execute`. -/
def touchExecute (mktime : Tm → Int) (utime : Text → Int → Int) (args : List Text) :
    Except TouchFault TouchOutcome :=
  match args with
  | [_, path, timestamp] => do
    let timeptr ← touchTm timestamp
    let epochTime := mktime timeptr
    .ok (.stamped path timeptr epochTime
      (if utime path epochTime = -1 then some "smash error: utime failed".toList else none))
  | _ => .ok (.refused "smash error: touch: invalid arguments".toList)

variable {timestamp field rest : Text} {lpos : Nat}

/-- A field at a position of the timestamp, with a colon behind it. -/
theorem field_reads (numeral : IsNumeral field) (fits : decimal field < 2 ^ 31)
    (here : timestamp.drop lpos = field ++ ':' :: rest) :
    findColon timestamp lpos = some (lpos + field.length) ∧
      atoiPiece timestamp lpos (some (lpos + field.length)) = .ok (decimal field : Int) ∧
      timestamp.drop (lpos + field.length + 1) = rest := by
  have digits : ∀ c ∈ field, decide (c = ':') = false := fun c member => by
    have digit := numeral.2 c member
    apply decide_eq_false
    rintro rfl
    simp at digit
  have inside : lpos ≤ timestamp.length := by
    have sizes := congrArg List.length here
    simp only [List.length_drop, List.length_append, List.length_cons] at sizes
    omega
  refine ⟨?_, ?_, ?_⟩
  · rw [findColon, here, findIdx?_append_cons (p := (· = ':')) (by simp) digits]
    rfl
  · have piece : (timestamp.drop lpos).take (lpos + field.length) = field ++ (':' :: rest).take lpos := by
      rw [here, List.take_append, List.take_of_length_le (Nat.le_add_left _ _), Nat.add_sub_cancel]
    have stops : ∀ c ∈ ((':' :: rest).take lpos).head?, c.isDigit = false := by
      cases lpos with
      | zero => simp
      | succ lpos => simp
    simp only [atoiPiece, substr, if_pos inside, piece, atoi_numeral numeral fits stops]
  · rw [Nat.add_assoc, ← List.drop_drop, here, drop_append_cons]

/-- The last field, at a position of the timestamp. -/
theorem last_field_reads (numeral : IsNumeral field) (fits : decimal field < 2 ^ 31)
    (here : timestamp.drop lpos = field) :
    atoiPiece timestamp lpos (some (timestamp.length + 1)) = .ok (decimal field : Int) := by
  have sizes := congrArg List.length here
  rw [List.length_drop] at sizes
  have some := List.length_pos_of_ne_nil numeral.1
  have inside : lpos ≤ timestamp.length := by omega
  have value : atoi field = Option.some (decimal field : Int) := atoi_digits numeral fits
  have piece : (timestamp.drop lpos).take (timestamp.length + 1) = field := by
    rw [here, List.take_of_length_le (by omega)]
  simp only [atoiPiece, substr, if_pos inside, piece, value]

/-- An earlier value than one that `int` holds. -/
theorem minus_eq {value : Nat} {less : Int} (fits : value < 2 ^ 31) (positive : 0 ≤ less)
    (small : less ≤ 2 ^ 31) : minus value less = .ok (value - less) := by
  have range : -2 ^ 31 ≤ (value : Int) - less ∧ (value : Int) - less < 2 ^ 31 := ⟨by omega, by omega⟩
  rw [minus, asInt, if_pos range]

/-- Six fields with colons between them. -/
def timestampOf (s m h d month year : Text) : Text :=
  s ++ ':' :: (m ++ ':' :: (h ++ ':' :: (d ++ ':' :: (month ++ ':' :: year))))

/-- The time that the fields mean. -/
def tmOf (s m h d month year : Text) : Tm :=
  ⟨decimal s, decimal m, decimal h, decimal d, decimal month - 1, decimal year - 1900, 1⟩

/-- The fields are read one after another, whatever their lengths. -/
theorem touchTm_reads {s m h d month year : Text} (numerals : ∀ field ∈ [s, m, h, d, month, year],
      IsNumeral field ∧ decimal field < 2 ^ 31) :
    touchTm (timestampOf s m h d month year) = .ok (tmOf s m h d month year) := by
  simp only [List.forall_mem_cons, List.not_mem_nil, false_imp_iff, implies_true, and_true] at numerals
  obtain ⟨⟨sec, secFits⟩, ⟨min, minFits⟩, ⟨hour, hourFits⟩, ⟨mday, mdayFits⟩, ⟨mon, monFits⟩,
    isYear, yearFits⟩ := numerals
  have start : (timestampOf s m h d month year).drop 0 = s ++ ':' :: _ := rfl
  obtain ⟨colon₁, value₁, next₁⟩ := field_reads sec secFits start
  obtain ⟨colon₂, value₂, next₂⟩ := field_reads min minFits next₁
  obtain ⟨colon₃, value₃, next₃⟩ := field_reads hour hourFits next₂
  obtain ⟨colon₄, value₄, next₄⟩ := field_reads mday mdayFits next₃
  obtain ⟨colon₅, value₅, next₅⟩ := field_reads mon monFits next₄
  have value₆ := last_field_reads isYear yearFits next₅
  have months : minus (decimal month) 1 = .ok (decimal month - 1) :=
    minus_eq monFits (by decide) (by decide)
  have years : minus (decimal year) 1900 = .ok (decimal year - 1900) :=
    minus_eq yearFits (by decide) (by decide)
  simp only [touchTm, colon₁, value₁, Option.elim_some, colon₂, value₂, colon₃, value₃, colon₄, value₄,
    colon₅, value₅, value₆, months, years, bind, Except.bind, tmOf]

/-- Whatever the lengths of its six fields, a timestamp is read as their values,
and no `substr` throws. -/
theorem touchExecute_reads (mktime : Tm → Int) (utime : Text → Int → Int) (name path : Text)
    {s m h d month year : Text} (numerals : ∀ field ∈ [s, m, h, d, month, year],
      IsNumeral field ∧ decimal field < 2 ^ 31) :
    ∃ message, touchExecute mktime utime [name, path, timestampOf s m h d month year] =
      .ok (.stamped path (tmOf s m h d month year) (mktime (tmOf s m h d month year)) message) := by
  rw [touchExecute, touchTm_reads numerals]
  exact ⟨_, rfl⟩

/-- The first minute of 3 February 1999, with leading zeros. -/
theorem touchExecute_reads_sample :
    ∃ message, touchExecute (fun _ => 0) (fun _ _ => 0) ["touch".toList, "f".toList,
        timestampOf "0".toList "01".toList "00".toList "3".toList "0002".toList "1999".toList] =
      .ok (.stamped "f".toList ⟨0, 1, 0, 3, 1, 99, 1⟩ 0 message) :=
  touchExecute_reads (fun _ => 0) (fun _ _ => 0) "touch".toList "f".toList (by decide +kernel)

end OperatingSystems.Smash
