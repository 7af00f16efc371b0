import OperatingSystems.Lines
import OperatingSystems.Smash.CommandLine

/-!
# The last lines of a file

`TailCommand::execute` reads a file backwards, one byte at a time, counting the
newlines but the last byte, and copies what stands behind the one it looks for.
It stops at the start of the file without looking at the first byte.

Which calls of the system fail is a list fixed in advance, one entry for each
call; calls behind its end succeed. `write` writes all it is given.
-/

namespace OperatingSystems.Smash

open Texts Lines

/-- An open regular file, the bytes written to `STDOUT`, and which of the next
calls fail. -/
structure FileIo where
  content : Text
  pos : Nat
  output : Text
  fails : List Bool
deriving DecidableEq, Repr

namespace FileIo

/-- The next call fails. -/
def failing (io : FileIo) : Bool := io.fails.headD false

/-- `read`: nothing when it fails. -/
def read (io : FileIo) (count : Nat) : Option Text × FileIo :=
  let next := { io with fails := io.fails.tail }
  if io.failing then (none, next)
  else
    let bytes := (io.content.drop io.pos).take count
    (some bytes, { next with pos := io.pos + bytes.length })

/-- `lseek` to an absolute offset, which must not be negative: nothing when it
fails. -/
def lseek (io : FileIo) (offset : Int) : Option Int × FileIo :=
  let next := { io with fails := io.fails.tail }
  if io.failing ∨ offset < 0 then (none, next) else (some offset, { next with pos := offset.toNat })

/-- `write` to `STDOUT`: whether it succeeds. -/
def write (io : FileIo) (bytes : Text) : Bool × FileIo :=
  let next := { io with fails := io.fails.tail }
  if io.failing then (false, next) else (true, { next with output := io.output ++ bytes })

end FileIo

/-- The loop of `TailCommand::execute` that reads backwards: an error message, or
where it stops. There is no result when the rounds do not suffice. -/
def tailScan (endOffset : Int) : Nat → Int → Int → FileIo → Option (Except Text Int × FileIo)
  | 0, _, _, _ => none
  | rounds + 1, seeker, n, io =>
    if seeker > 0 then
      match io.read 1 with
      | (none, io) => some (.error "smash error: read failed".toList, io)
      | (some [], io) => tailScan endOffset rounds seeker n io
      | (some (c :: _), io) =>
        -- The newline at the end of the file is not counted.
        let n := if c = '\n' ∧ seeker ≠ endOffset - 1 then n - 1 else n
        if c = '\n' ∧ n = 0 then some (.ok seeker, io)
        else
          match io.lseek (seeker - 1) with
          | (none, io) => some (.error "smash error: seek failed".toList, io)
          | (some seeker, io) => tailScan endOffset rounds seeker n io
    else some (.ok seeker, io)

/-- The loop that copies the rest of the file: an error message, if there is one. -/
def tailCopy (bufSize : Nat) : Nat → FileIo → Option (Option Text × FileIo)
  | 0, _ => none
  | rounds + 1, io =>
    match io.read bufSize with
    | (none, io) => some (some "smash error: read failed".toList, io)
    | (some bytes, io) =>
      match io.write bytes with
      | (false, io) => some (some "smash error: write failed".toList, io)
      | (true, io) => if bytes.length > 0 then tailCopy bufSize rounds io else some (none, io)

/-- What `TailCommand::execute` comes to: the message it ends with, if there is
one, and the bytes it wrote. -/
structure TailOutcome where
  message : Option Text
  output : Text
deriving DecidableEq, Repr

/-- `TailCommand::execute` on an open file. There is no result where the size of
the buffer would be negative, and where `int` cannot hold the size of the file. -/
def tailFile (rounds : Nat) (io : FileIo) (n : Int) : Option TailOutcome := do
  let (last, io) := io.lseek (io.content.length - 1)
  let endOffset ← asInt (last.getD (-1) + 1)
  let (scanned, io) ← tailScan endOffset rounds (endOffset - 1) n io
  match scanned with
  | .error message => some ⟨some message, io.output⟩
  | .ok seeker =>
    let seeker := if seeker ≠ 0 then seeker + 1 else seeker
    let bufSize := min 256 (endOffset - seeker)
    if bufSize < 0 then none
    else
      let (message, io) ← tailCopy bufSize.toNat rounds io
      -- `close` is the last call.
      let closed := if io.failing then some "smash error: close failed".toList else none
      some ⟨message.or closed, io.output⟩

/-- What the arguments of `tail` ask for: an error message, nothing, or some lines
of a file. -/
inductive TailRequest where
  | refused (message : Text)
  | nothing
  | lines (n : Int) (filePath : Text)
deriving DecidableEq, Repr

/-- The message of `TailCommand::execute` for arguments it does not take. -/
def tailInvalid : Text := "smash error: tail: invalid arguments".toList

/-- The arguments of `TailCommand::execute`. -/
def tailRequest (args : List Text) : Option TailRequest :=
  match args with
  | [_, filePath] => some (.lines 10 filePath)
  | [_, count, filePath] => do
    let value ← atoi count
    let n ← asInt value.natAbs
    if "--".toList <+: count ∨ '-' ∉ count ∨ ∀ c ∈ count, c.isDigit = false then
      some (.refused tailInvalid)
    else if n = 0 then some .nothing
    else some (.lines n filePath)
  | _ => some (.refused tailInvalid)

/-- `TailCommand::execute`, with the files that `open` finds. -/
def tailExecute (rounds : Nat) (files : Text → Option Text) (fails : List Bool) (args : List Text) :
    Option TailOutcome := do
  match ← tailRequest args with
  | .refused message => some ⟨some message, []⟩
  | .nothing => some ⟨none, []⟩
  | .lines n filePath =>
    match files (trim filePath) with
    | none => some ⟨some "smash error: open failed".toList, []⟩
    | some content => tailFile rounds ⟨content, 0, [], fails⟩ n

variable {content output : Text} {c : Char} {pos : Nat}

theorem read_ok (count : Nat) : FileIo.read ⟨content, pos, output, []⟩ count =
    (some ((content.drop pos).take count),
      ⟨content, pos + ((content.drop pos).take count).length, output, []⟩) := rfl

theorem lseek_ok (offset : Nat) : FileIo.lseek ⟨content, pos, output, []⟩ offset =
    (some (offset : Int), ⟨content, offset, output, []⟩) := by
  have allowed : ¬((offset : Int) < 0) := by omega
  simp [FileIo.lseek, FileIo.failing, allowed]

theorem write_ok (bytes : Text) : FileIo.write ⟨content, pos, output, []⟩ bytes =
    (true, ⟨content, pos, output ++ bytes, []⟩) := rfl

/-- One round of the backward loop looks at a byte and goes one back. -/
theorem tailScan_round {endOffset n : Int} {rounds p : Nat} {rest : Text}
    (here : content.drop (p + 1) = c :: rest) :
    tailScan endOffset (rounds + 1) ((p + 1 : Nat) : Int) n ⟨content, p + 1, [], []⟩ =
      let n' := if c = '\n' ∧ ((p + 1 : Nat) : Int) ≠ endOffset - 1 then n - 1 else n
      if c = '\n' ∧ n' = 0 then some (.ok ((p + 1 : Nat) : Int), ⟨content, p + 2, [], []⟩)
      else tailScan endOffset rounds p n' ⟨content, p, [], []⟩ := by
  have positive : ((p + 1 : Nat) : Int) > 0 := by omega
  have previous : ((p + 1 : Nat) : Int) - 1 = (p : Nat) := by omega
  rw [tailScan, if_pos positive, read_ok, here, previous]
  simp only [List.take_succ_cons, List.take_zero, List.length_singleton, lseek_ok]

/-- One round of the backward loop finds the newline it looks for, or goes on with what
is left to count. The last byte of the file is not counted. -/
theorem tailScan_step {rounds p m : Nat} (inside : p + 1 < content.length) (positive : 0 < m) :
    (∃ back, content.drop (p + 1) = '\n' :: back ∧ back ≠ [] ∧ m = 1 ∧
      tailScan content.length (rounds + 1) (p + 1 : Nat) m ⟨content, p + 1, [], []⟩ =
        some (.ok (p + 1 : Nat), ⟨content, p + 2, [], []⟩)) ∨
    ∃ left : Nat, 0 < left ∧
      (content.drop (p + 1)).dropLast.count '\n' + left = (content.drop (p + 2)).dropLast.count '\n' + m ∧
      tailScan content.length (rounds + 1) (p + 1 : Nat) m ⟨content, p + 1, [], []⟩ =
        tailScan content.length rounds p left ⟨content, p, [], []⟩ := by
  have here := List.drop_eq_getElem_cons inside
  rw [tailScan_round here]
  by_cases last : content.drop (p + 2) = []
  · have size : ((p + 1 : Nat) : Int) = content.length - 1 := by
      have none := List.drop_eq_nil_iff.mp last
      omega
    have more : ¬(m : Int) = 0 := by omega
    have same : (content.drop (p + 1)).dropLast = (content.drop (p + 2)).dropLast := by
      rw [here, last]
      rfl
    right
    refine ⟨m, positive, by rw [same], ?_⟩
    simp only [size, ne_eq, not_true_eq_false, and_false, if_false, more]
  · have counted : (content.drop (p + 1)).dropLast =
        content[p + 1] :: (content.drop (p + 2)).dropLast := by
      rw [here, List.dropLast_cons_of_ne_nil last]
    have inner : ((p + 1 : Nat) : Int) ≠ content.length - 1 := by
      have some := mt List.drop_eq_nil_iff.mpr last
      omega
    by_cases ends : content[p + 1] = '\n'
    · simp only [ends, inner, ne_eq, not_false_eq_true, and_self, if_true, true_and]
      by_cases found : m = 1
      · left
        subst found
        exact ⟨content.drop (p + 2), by rw [here, ends], last, rfl, rfl⟩
      · have further : ¬(m : Int) - 1 = 0 := by omega
        have less : (m : Int) - 1 = (m - 1 : Nat) := by omega
        right
        refine ⟨m - 1, by omega, ?_, by rw [if_neg further, less]⟩
        rw [counted, ends, List.count_cons_self]
        omega
    · right
      refine ⟨m, positive, by rw [counted, List.count_cons_of_ne ends], ?_⟩
      simp only [ends, false_and, if_false]

/-- The backward loop finds the newline behind which so many lines start, unless it
comes to the start of the file. -/
theorem tailScan_finds {rounds p m : Nat} (inside : p < content.length) (enough : p < rounds)
    (positive : 0 < m) :
    (∃ front back, content = front ++ '\n' :: back ∧ front ≠ [] ∧ back ≠ [] ∧
      back.dropLast.count '\n' + 1 = (content.drop (p + 1)).dropLast.count '\n' + m ∧
      tailScan content.length rounds p m ⟨content, p, [], []⟩ =
        some (.ok front.length, ⟨content, front.length + 1, [], []⟩)) ∨
    (content.drop 1).dropLast.count '\n' < (content.drop (p + 1)).dropLast.count '\n' + m ∧
      tailScan content.length rounds p m ⟨content, p, [], []⟩ = some (.ok 0, ⟨content, 0, [], []⟩) := by
  obtain ⟨rounds, rfl⟩ := Nat.exists_eq_succ_of_ne_zero (Nat.ne_of_gt (Nat.zero_lt_of_lt enough))
  induction p generalizing rounds m with
  | zero => exact Or.inr ⟨Nat.lt_add_of_pos_right positive, rfl⟩
  | succ p inductionHypothesis =>
    rcases tailScan_step inside positive with ⟨back, here, some, rfl, found⟩ | ⟨left, more, count, goes⟩
    · have length : (content.take (p + 1)).length = p + 1 := List.length_take_of_le (Nat.le_of_lt inside)
      have behind : content.drop (p + 1 + 1) = back := by rw [← List.tail_drop, here, List.tail_cons]
      refine Or.inl ⟨content.take (p + 1), back, ?_, ?_, some, by rw [behind], ?_⟩
      · rw [← here, List.take_append_drop]
      · intro none
        simp [none] at length
      · rw [length]
        exact found
    · have fewer : p < rounds := Nat.lt_of_succ_lt_succ enough
      obtain ⟨rounds, rfl⟩ := Nat.exists_eq_succ_of_ne_zero (Nat.ne_of_gt (Nat.zero_lt_of_lt fewer))
      rw [← count, goes]
      exact inductionHypothesis (Nat.lt_of_succ_lt inside) more rounds fewer

/-- The forward loop copies the rest of the file. -/
theorem tailCopy_writes {bufSize rounds : Nat} (moves : 0 < bufSize ∨ content.drop pos = [])
    (enough : (content.drop pos).length < rounds) :
    ∃ last, tailCopy bufSize rounds ⟨content, pos, output, []⟩ =
      some (none, ⟨content, last, output ++ content.drop pos, []⟩) := by
  induction rounds generalizing pos output with
  | zero => omega
  | succ rounds inductionHypothesis =>
    rw [tailCopy, read_ok]
    simp only [write_ok]
    have whole := List.prefix_iff_eq_append.mp (List.take_prefix bufSize (content.drop pos))
    rw [List.drop_drop] at whole
    by_cases more : ((content.drop pos).take bufSize).length > 0
    · have sizes := congrArg List.length whole
      have positive : 0 < bufSize := by
        rw [List.length_take] at more
        omega
      rw [List.length_append] at sizes
      have later : ∃ last, tailCopy bufSize rounds
          ⟨content, pos + ((content.drop pos).take bufSize).length,
            output ++ (content.drop pos).take bufSize, []⟩ = some (none, ⟨content, last,
          output ++ (content.drop pos).take bufSize ++
            content.drop (pos + ((content.drop pos).take bufSize).length), []⟩) :=
        inductionHypothesis (Or.inl positive) (by omega)
      obtain ⟨last, copies⟩ := later
      rw [List.append_assoc, whole] at copies
      exact ⟨last, by rw [if_pos more, copies]⟩
    · have none : content.drop pos = [] := by
        rcases moves with positive | none
        · rw [List.length_take] at more
          exact List.eq_nil_of_length_eq_zero (by omega)
        · exact none
      rw [if_neg more, none, List.take_nil]
      exact ⟨_, rfl⟩

/-- Once the backward loop has stopped, the rest of the file is copied. -/
theorem tailFile_copies {n seeker : Int} {rounds : Nat} (short : content.length < 2 ^ 31)
    (some : content ≠ []) (enough : content.length < rounds)
    (scan : tailScan content.length rounds (content.length - 1) n ⟨content, content.length - 1, [], []⟩ =
      Option.some (.ok seeker, ⟨content, pos, [], []⟩))
    (room : (if seeker ≠ 0 then seeker + 1 else seeker) < content.length) :
    tailFile rounds ⟨content, 0, [], []⟩ n = Option.some ⟨none, content.drop pos⟩ := by
  have size := List.length_pos_of_ne_nil some
  have last : (content.length : Int) - 1 = ((content.length - 1 : Nat) : Int) := by omega
  have fits : asInt ((content.length - 1 : Nat) + 1) = Option.some (content.length : Int) := by
    have same : ((content.length - 1 : Nat) : Int) + 1 = content.length := by omega
    rw [same]
    exact asInt_eq (by omega) (by omega)
  have positive : ¬min 256 ((content.length : Int) - if seeker ≠ 0 then seeker + 1 else seeker) < 0 := by
    omega
  have moves : 0 < (min 256 ((content.length : Int) - if seeker ≠ 0 then seeker + 1 else seeker)).toNat := by
    omega
  have left : (content.drop pos).length < rounds := by
    rw [List.length_drop]
    omega
  have copied : ∃ finish, _ = Option.some (none, FileIo.mk content finish ([] ++ content.drop pos) []) :=
    tailCopy_writes (Or.inl moves) left
  obtain ⟨finish, copies⟩ := copied
  unfold tailFile
  simp only [last, lseek_ok, Option.getD_some, fits, Option.bind_eq_bind, Option.bind_some]
  rw [← last, scan]
  simp only [Option.bind_some, if_neg positive, copies]
  rfl

/-- Where no call fails, `tail` writes all of the file, or what stands behind a
newline that is not the first byte and behind which so many lines start. -/
theorem tailFile_writes {n rounds : Nat} (short : content.length < 2 ^ 31) (positive : 0 < n)
    (enough : content.length < rounds) : ∃ out, tailFile rounds ⟨content, 0, [], []⟩ n = some ⟨none, out⟩ ∧
    ((∃ front, content = front ++ '\n' :: out ∧ front ≠ [] ∧ out ≠ [] ∧ out.dropLast.count '\n' + 1 = n) ∨
      out = content ∧ (content.drop 1).dropLast.count '\n' < n) := by
  obtain ⟨rounds, rfl⟩ := Nat.exists_eq_succ_of_ne_zero (Nat.ne_of_gt (Nat.zero_lt_of_lt enough))
  by_cases empty : content = []
  · subst empty
    exact ⟨[], rfl, Or.inr ⟨rfl, positive⟩⟩
  · have size := List.length_pos_of_ne_nil empty
    have start : content.drop (content.length - 1 + 1) = [] := List.drop_of_length_le (by omega)
    have same : ((content.length - 1 : Nat) : Int) = (content.length : Int) - 1 := by omega
    have inside : content.length - 1 < content.length := Nat.sub_one_lt_of_lt size
    have fewer : content.length - 1 < rounds + 1 := by omega
    rcases tailScan_finds inside fewer positive with ⟨front, back, split, notFirst, some, count, scan⟩ |
      ⟨count, scan⟩
    · rw [start] at count
      rw [same] at scan
      have behind : content.drop (front.length + 1) = back := by rw [split, drop_append_cons]
      have moved : ((front.length : Nat) : Int) ≠ 0 := by
        have := List.length_pos_of_ne_nil notFirst
        omega
      have room : (if ((front.length : Nat) : Int) ≠ 0 then ((front.length : Nat) : Int) + 1
          else (front.length : Nat)) < (content.length : Int) := by
        have more := List.length_pos_of_ne_nil some
        rw [if_pos moved, split, List.length_append, List.length_cons]
        omega
      have copies := tailFile_copies short empty enough scan room
      rw [behind] at copies
      exact ⟨back, copies, Or.inl ⟨front, split, notFirst, some, by simpa using count⟩⟩
    · rw [start] at count
      rw [same] at scan
      refine ⟨content, tailFile_copies short empty enough scan ?_, Or.inr ⟨rfl, by simpa using count⟩⟩
      simpa using size

/-- What stands behind a newline that is not the first byte is the last lines. -/
theorem behind_is_last {front out : Text} (notFirst : front ≠ []) (some : out ≠ []) :
    out = lastLines '\n' (out.dropLast.count '\n' + 1) (front ++ '\n' :: out) ∧
      ¬((front ++ '\n' :: out).head? = Option.some '\n' ∧
        (lines '\n' (front ++ '\n' :: out)).length = out.dropLast.count '\n' + 1 + 1) := by
  rw [← length_lines '\n' some]
  refine ⟨(lastLines_behind '\n' front out).symm, ?_⟩
  rintro ⟨first, both⟩
  obtain ⟨c, front, rfl⟩ := List.exists_cons_of_ne_nil notFirst
  obtain rfl : c = '\n' := Option.some.inj first
  have further : 0 < (lines '\n' (front ++ ['\n'])).length := by
    rw [length_lines '\n' (by simp)]
    exact Nat.succ_pos _
  rw [List.cons_append, lines_newline, lines_append, List.length_cons, List.length_append] at both
  omega

/-- A file with so few newlines behind its first byte is its last lines, unless it starts
with the newline behind which they start. -/
theorem whole_is_last_iff {n : Nat} (few : (content.drop 1).dropLast.count '\n' < n) :
    content = lastLines '\n' n content ↔
      ¬(content.head? = some '\n' ∧ (lines '\n' content).length = n + 1) := by
  by_cases first : content.head? = some '\n'
  · obtain ⟨rest, rfl⟩ := List.head?_eq_some_iff.mp first
    have size : (lines '\n' rest).length ≤ n := Nat.le_trans (length_lines_le '\n' rest) few
    rw [lines_newline, List.length_cons, Nat.add_right_cancel_iff]
    rcases Nat.eq_or_lt_of_le size with rfl | fewer
    · have last := lastLines_behind '\n' [] rest
      rw [List.nil_append] at last
      simp [last]
    · have whole : (lines '\n' ('\n' :: rest)).length ≤ n := by
        rw [lines_newline]
        exact fewer
      simp [lastLines_all whole, Nat.ne_of_lt fewer]
  · have size : (lines '\n' content).length ≤ n := Nat.le_trans (length_lines_tail first) few
    simp [lastLines_all size, first]

/-- What `tail` writes is the last lines, unless the file starts with the newline
behind which they start. -/
theorem written_iff {out : Text} {n : Nat}
    (written : (∃ front, content = front ++ '\n' :: out ∧ front ≠ [] ∧ out ≠ [] ∧
        out.dropLast.count '\n' + 1 = n) ∨ out = content ∧ (content.drop 1).dropLast.count '\n' < n) :
    out = lastLines '\n' n content ↔ ¬(content.head? = some '\n' ∧ (lines '\n' content).length = n + 1) := by
  rcases written with ⟨front, rfl, notFirst, some, rfl⟩ | ⟨rfl, few⟩
  · obtain ⟨last, other⟩ := behind_is_last notFirst some
    exact iff_of_true last other
  · exact whole_is_last_iff few

/-- A count behind a dash is accepted. -/
theorem tailRequest_count (name path : Text) {digits : Text} (numeral : IsNumeral digits)
    (some : 0 < decimal digits) (fits : decimal digits < 2 ^ 31) :
    tailRequest [name, '-' :: digits, path] = Option.some (.lines (decimal digits) path) := by
  have value := atoi_dash numeral fits
  have size : asInt ((-(decimal digits : Int)).natAbs : Int) = Option.some (decimal digits : Int) := by
    rw [Int.natAbs_neg, Int.natAbs_natCast]
    exact asInt_eq (by omega) (by omega)
  obtain ⟨d, rest, rfl⟩ := List.exists_cons_of_ne_nil numeral.1
  have digit : d.isDigit = true := numeral.2 d List.mem_cons_self
  have one : d ≠ '-' := by
    rintro rfl
    simp at digit
  have accepted : ¬("--".toList <+: '-' :: d :: rest ∨ '-' ∉ '-' :: d :: rest ∨
      ∀ c ∈ '-' :: d :: rest, c.isDigit = false) := by
    simp [one.symm, digit]
  have nonzero : ¬(decimal (d :: rest) : Int) = 0 := by omega
  refine Option.bind_eq_some_iff.mpr ⟨_, value, Option.bind_eq_some_iff.mpr ⟨_, size, ?_⟩⟩
  rw [if_neg accepted, if_neg nonzero]

/-- What is asked for is at least one line. -/
theorem tailRequest_positive {args : List Text} {n : Int} {path : Text}
    (request : tailRequest args = some (.lines n path)) : 0 < n := by
  unfold tailRequest at request
  split at request
  next =>
    simp only [Option.some.injEq, TailRequest.lines.injEq] at request
    omega
  next count filePath =>
    obtain ⟨value, -, request⟩ := Option.bind_eq_some_iff.mp request
    obtain ⟨size, whole, request⟩ := Option.bind_eq_some_iff.mp request
    have natural : 0 ≤ size := by
      unfold asInt at whole
      split at whole
      next => exact Option.some.inj whole ▸ Int.natCast_nonneg _
      next => exact absurd whole (by simp)
    split at request
    next => simp at request
    next =>
      split at request
      next => simp at request
      next nonzero =>
        simp only [Option.some.injEq, TailRequest.lines.injEq] at request
        omega
  next => simp at request

/-- `tail` writes the last lines of a file exactly when the file does not start with
the newline behind which they start: the backward loop never looks at the first byte. -/
theorem tail_last_lines_iff {rounds n : Nat} {files : Text → Option Text} {args : List Text}
    {path content : Text} (request : tailRequest args = some (.lines n path))
    (found : files (trim path) = some content) (short : content.length < 2 ^ 31)
    (enough : content.length < rounds) :
    tailExecute rounds files [] args = some ⟨none, lastLines '\n' n content⟩ ↔
      ¬(content.head? = some '\n' ∧ (lines '\n' content).length = n + 1) := by
  have positive : 0 < n := by simpa using tailRequest_positive request
  obtain ⟨out, writes, written⟩ := tailFile_writes short positive enough
  have result : tailExecute rounds files [] args = some ⟨none, out⟩ := by
    simp [tailExecute, request, found, writes]
  rw [result]
  simp only [Option.some.injEq, TailOutcome.mk.injEq, true_and]
  exact written_iff written

/-- The last of three lines, the first of them blank. -/
theorem tail_last_lines_sample :
    tailExecute 6 (fun _ => some "\na\nb".toList) [] ["tail".toList, "-1".toList, "f".toList] =
      some ⟨none, lastLines '\n' 1 "\na\nb".toList⟩ := by
  have request : tailRequest ["tail".toList, "-1".toList, "f".toList] = some (.lines (1 : Nat) "f".toList) := by
    decide +kernel
  have found : (fun _ : Text => some "\na\nb".toList) (trim "f".toList) = some "\na\nb".toList := rfl
  exact (tail_last_lines_iff request found (by decide +kernel) (by decide +kernel)).mpr (by decide +kernel)

/-- Of a blank line and another one, `tail -1` writes both. -/
theorem tail_writes_blank_line :
    tailExecute 3 (fun _ => some "\na".toList) [] ["tail".toList, "-1".toList, "f".toList] =
      some ⟨none, "\na".toList⟩ ∧ lastLines '\n' 1 "\na".toList = "a".toList := by
  decide +kernel

end OperatingSystems.Smash
