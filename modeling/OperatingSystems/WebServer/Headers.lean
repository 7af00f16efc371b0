import OperatingSystems.WebServer.Rio

/-!
# Skipping the request headers

`requestReadhdrs` reads lines until its buffer holds an empty one. It does not
look at what `Rio_readlineb` returns, and at the end of the text the buffer
keeps the last line read. The loop therefore ends only when it meets the empty
line as a piece of its own.
-/

namespace OperatingSystems.WebServer

open Texts Lines

/-- Why `requestReadhdrs` has not returned: a failed `read` ended the process, or
the rounds allowed to the loop were too few. -/
inductive Unfinished where
  | exited
  | running
deriving DecidableEq, Repr

/-- The loop of `requestReadhdrs`, for at most so many rounds. -/
def readhdrsLoop : Nat → Text → Rio → Except Unfinished Rio
  | 0, _, _ => .error .running
  | rounds + 1, buf, rp =>
    if cString buf = "\r\n".toList then .ok rp
    else
      match rioReadlineb rp buf maxLine with
      | none => .error .exited
      | some (_, buf, rp) => readhdrsLoop rounds buf rp

/-- `requestReadhdrs`, whose buffer holds arbitrary bytes at first. -/
def requestReadhdrs (rounds : Nat) (buf : Text) (rp : Rio) : Except Unfinished Rio :=
  match rioReadlineb rp buf maxLine with
  | none => .error .exited
  | some (_, buf, rp) => readhdrsLoop rounds buf rp

/-- The function ends after some number of rounds. -/
def Terminates (run : Nat → Except Unfinished Rio) : Prop := ∃ rounds, run rounds ≠ .error .running

/-- The text holds an empty line where the reader can see it: a carriage return
and a newline at the start of the text or of a line, or after a multiple of
`MAXLINE - 1` characters of a line. -/
def HasEmptyLine (text : Text) : Prop := Meets '\n' (maxLine - 1) ['\r'] text

variable {rp : Rio} {buf text : Text}

/-- A loop that has not ended in no rounds is a round and the rest. -/
theorem terminates_succ {run : Nat → Except Unfinished Rio} (start : run 0 = .error .running) :
    Terminates run ↔ Terminates fun rounds => run (rounds + 1) := by
  constructor
  · rintro ⟨rounds, ends⟩
    cases rounds with
    | zero => exact absurd start ends
    | succ rounds => exact ⟨rounds, ends⟩
  · rintro ⟨rounds, ends⟩
    exact ⟨rounds + 1, ends⟩

/-- The buffer holds the empty line when the piece read into it is the empty line. -/
theorem cString_piece {most : Nat} (rest : Text) :
    cString (piece '\n' most text ++ '\x00' :: rest) = "\r\n".toList ↔
      piece '\n' most text = ['\r'] ++ ['\n'] := by
  rw [cString_terminated]
  constructor
  · intro held
    obtain ⟨tail, whole⟩ := held ▸ cString_starts (piece '\n' most text)
    have second : ['\r'] ++ '\n' :: tail = piece '\n' most text := whole
    -- A newline stands only at the end of a piece.
    rcases piece_cases '\n' most text with ⟨front, _, _, clean, _, same⟩ |
      ⟨front, _, _, clean, _, same⟩ | ⟨clean, _, same⟩
    · rw [same] at second ⊢
      obtain ⟨between, split, last⟩ := before_newline clean second.symm
      have sizes := congrArg List.length last
      have none : between = [] := by
        apply List.eq_nil_of_length_eq_zero
        simp only [List.length_append, List.length_cons, List.length_nil] at sizes
        omega
      rw [none, List.append_nil] at split
      rw [split]
    · rw [same] at second
      exact absurd (second ▸ clean) (by simp)
    · rw [same] at second
      exact absurd (second ▸ clean) (by simp)
  · intro isEmptyLine
    rw [isEmptyLine]
    rfl

/-- The loop ends when the buffer holds the empty line. -/
theorem terminates_held (held : cString buf = "\r\n".toList) : Terminates (readhdrsLoop · buf rp) := by
  have ends : readhdrsLoop 1 buf rp = .ok rp := if_pos held
  exact ⟨1, by simp [ends]⟩

/-- At the end of the text the buffer does not change any more. -/
theorem readhdrsLoop_stuck (reads : rp.Reads) (none : rp.stream = [])
    (other : cString buf ≠ "\r\n".toList) (rounds : Nat) :
    readhdrsLoop rounds buf rp = .error .running := by
  induction rounds generalizing rp with
  | zero => rfl
  | succ rounds inductionHypothesis =>
    have room : 1 < maxLine := by decide
    obtain ⟨after, healthy, read, still⟩ := rioReadlineb_end reads room buf none
    rw [readhdrsLoop, if_neg other, read]
    exact inductionHypothesis healthy still

/-- A text that has ended holds no line. -/
theorem not_hasEmptyLine_nil : ¬HasEmptyLine [] := by
  rintro ⟨before, full, after, whole, _⟩
  simp at whole

/-- Reading a piece either finds the empty line or leaves the rest of the text to the loop. -/
theorem requestReadhdrs_piece (reads : rp.Reads) (more : rp.stream ≠ [])
    (later : ∀ after buf, after.Reads → after.stream.length < rp.stream.length →
      cString buf ≠ "\r\n".toList → (Terminates (readhdrsLoop · buf after) ↔ HasEmptyLine after.stream)) :
    Terminates (requestReadhdrs · buf rp) ↔ HasEmptyLine rp.stream := by
  obtain ⟨n, after, -, healthy, read, final⟩ :=
    rioReadlineb_reads reads (show 1 < maxLine by decide) buf more
  have some : piece '\n' (maxLine - 1) rp.stream ≠ [] := piece_ne_nil (by decide) more
  have shorter : after.stream.length < rp.stream.length := by
    rw [final, List.length_drop]
    have read := List.length_pos_of_ne_nil some
    have left := List.length_pos_of_ne_nil more
    omega
  simp only [requestReadhdrs, read]
  rw [HasEmptyLine, meets_iff (by decide) (by decide), ← final]
  by_cases found : piece '\n' (maxLine - 1) rp.stream = ['\r'] ++ ['\n']
  · exact iff_of_true (terminates_held ((cString_piece _).mpr found)) (Or.inl found)
  · rw [or_iff_right found]
    exact later after _ healthy shorter (mt (cString_piece _).mp found)

/-- Once the buffer holds another line, the loop ends when an empty line follows. -/
theorem readhdrsLoop_iff (reads : rp.Reads) (other : cString buf ≠ "\r\n".toList) :
    Terminates (readhdrsLoop · buf rp) ↔ HasEmptyLine rp.stream := by
  induction size : rp.stream.length using Nat.strongRecOn generalizing rp buf with
  | ind size inductionHypothesis =>
    by_cases none : rp.stream = []
    · refine iff_of_false (fun ⟨rounds, ends⟩ => ends ?_) (none ▸ not_hasEmptyLine_nil)
      exact readhdrsLoop_stuck reads none other rounds
    · have round : ∀ rounds, readhdrsLoop (rounds + 1) buf rp = requestReadhdrs rounds buf rp := by
        intro rounds
        rw [readhdrsLoop, if_neg other, requestReadhdrs]
      rw [terminates_succ rfl]
      simp only [round]
      refine requestReadhdrs_piece reads none fun after buf healthy shorter different => ?_
      exact inductionHypothesis _ (size ▸ shorter) healthy different rfl

/-- `requestReadhdrs` ends when the text of the client holds an empty line. If the
client sends nothing, it looks at the bytes that happen to be in its buffer. -/
theorem requestReadhdrs_terminates_iff (reads : rp.Reads) :
    Terminates (requestReadhdrs · buf rp) ↔
      HasEmptyLine rp.stream ∨ rp.stream = [] ∧ cString buf = "\r\n".toList := by
  by_cases none : rp.stream = []
  · obtain ⟨after, healthy, read, still⟩ :=
      rioReadlineb_end reads (show 1 < maxLine by decide) buf none
    have never : ¬HasEmptyLine rp.stream := none ▸ not_hasEmptyLine_nil
    rw [or_iff_right never, and_iff_right none]
    simp only [requestReadhdrs, read]
    by_cases held : cString buf = "\r\n".toList
    · exact iff_of_true (terminates_held held) held
    · refine iff_of_false (fun ⟨rounds, ends⟩ => ends ?_) held
      exact readhdrsLoop_stuck healthy still held rounds
  · rw [or_iff_left fun holds => none holds.1]
    exact requestReadhdrs_piece reads none fun after buf healthy _ different =>
      readhdrsLoop_iff healthy different

/-- A header with an empty line behind it is skipped. -/
theorem requestReadhdrs_terminates_sample :
    Terminates (requestReadhdrs · (List.replicate maxLine '\x00')
      ⟨[], "Host: localhost\r\n\r\n".toList, [.upTo 4, .interrupted]⟩) := by
  refine (requestReadhdrs_terminates_iff (by decide)).mpr (Or.inl ?_)
  exact ⟨"Host: localhost\r\n".toList, [], [], rfl, Or.inr ⟨"Host: localhost\r".toList, rfl⟩, nofun,
    Nat.dvd_zero _⟩

/-- A request with one header whose client closes its side before the empty line. -/
def unfinishedRequest : Rio := ⟨[], "Host: localhost\r\n".toList, []⟩

/-- The function does not end on that request. -/
theorem requestReadhdrs_hangs :
    ¬∀ (buf : Text) (rp : Rio), buf.length = maxLine → rp.Reads →
      Terminates (requestReadhdrs · buf rp) := by
  intro always
  have ends := always (List.replicate maxLine '\x00') unfinishedRequest List.length_replicate (by decide)
  have looks : HasEmptyLine unfinishedRequest.stream :=
    (requestReadhdrs_piece (by decide) (by decide) fun after buf healthy _ different =>
      readhdrsLoop_iff healthy different).mp ends
  rcases (meets_iff (by decide) (by decide)).mp looks with first | later
  · exact absurd first (by decide)
  · exact not_hasEmptyLine_nil later

end OperatingSystems.WebServer
