import OperatingSystems.Lines
import OperatingSystems.Texts

/-!
# Reading lines from a client

`segel.c` reads a connection through a buffer. What the client sends before it
closes its side is a text. How many bytes each call of `read` returns, and
whether a signal interrupts it or it fails, is a list fixed in advance; a call
past the end of the list returns what fits, and at the end of the text nothing.
-/

namespace OperatingSystems.WebServer

open Texts Lines

/-- `RIO_BUFSIZE`. -/
def rioBufsize : Nat := 8192

/-- `MAXLINE`. -/
def maxLine : Nat := 8192

/-- How a call of `read` turns out: it returns one byte and at most so many more,
is interrupted by a signal, or fails. -/
inductive Reading where
  | upTo (more : Nat)
  | interrupted
  | failed
deriving DecidableEq, Repr

/-- `rio_t`: the unread bytes of the internal buffer, and the bytes of the
client that are still to be read into it. -/
structure Rio where
  unread : Text
  sent : Text
  readings : List Reading
deriving DecidableEq, Repr

/-- What is left of the text of the client. -/
def Rio.stream (rp : Rio) : Text := rp.unread ++ rp.sent

/-- No call of `read` fails. -/
def Rio.Reads (rp : Rio) : Prop := .failed ∉ rp.readings

instance (rp : Rio) : Decidable rp.Reads := inferInstanceAs (Decidable (¬_))

/-- The loop of `rio_read`, which fills the empty buffer; no result when `read` failed. -/
def refill (sent : Text) : List Reading → Option Rio
  | [] => some ⟨sent.take rioBufsize, sent.drop rioBufsize, []⟩
  | .upTo more :: rest =>
    let cnt := min (more + 1) rioBufsize
    some ⟨sent.take cnt, sent.drop cnt, rest⟩
  | .interrupted :: rest => refill sent rest
  | .failed :: _ => none

/-- `rio_read`: the bytes copied to the caller, none at the end of the file. -/
def rioRead (rp : Rio) (n : Nat) : Option (Text × Rio) :=
  (if rp.unread = [] then refill rp.sent rp.readings else some rp).map fun filled =>
    (filled.unread.take n, { filled with unread := filled.unread.drop n })

/-- The loop of `rio_readlineb` from round `n`, with so many rounds left: the
round it ends in and the bytes it stores. -/
def readlinebLoop : Nat → Nat → Rio → Option (Nat × Text × Rio)
  | 0, n, rp => some (n, [], rp)
  | left + 1, n, rp => do
    let (bytes, rp) ← rioRead rp 1
    match bytes with
    | [] => some (n, [], rp)
    | c :: _ =>
      if c = '\n' then some (n, [c], rp)
      else
        let (n, stored, rp) ← readlinebLoop left (n + 1) rp
        some (n, c :: stored, rp)

/-- `Rio_readlineb`: its result and the buffer. At the end of the file the buffer
stays as it was. There is no result when `read` fails, for `unix_error` then
ends the process. -/
def rioReadlineb (rp : Rio) (usrbuf : Text) (maxlen : Nat) : Option (Nat × Text × Rio) := do
  let (n, stored, rp) ← readlinebLoop (maxlen - 1) 1 rp
  -- Without a byte the first round met the end of the file.
  if stored = [] ∧ 1 < maxlen then some (0, usrbuf, rp)
  else some (n, stored ++ '\x00' :: usrbuf.drop (stored.length + 1), rp)

variable {rp : Rio} {c : Char} {rest : Text}

/-- Filling the buffer moves bytes into it, at least one if there is any. -/
theorem refill_reads (sent : Text) {readings : List Reading} (reads : .failed ∉ readings) :
    ∃ filled, refill sent readings = some filled ∧ filled.stream = sent ∧ filled.Reads ∧
      (filled.unread = [] → sent = []) := by
  induction readings with
  | nil =>
    refine ⟨_, rfl, List.take_append_drop _ _, List.not_mem_nil, fun none => ?_⟩
    exact (List.take_eq_nil_iff.mp none).resolve_left (by decide)
  | cons reading readings inductionHypothesis =>
    simp only [List.mem_cons, not_or] at reads
    cases reading with
    | upTo more =>
      refine ⟨_, rfl, List.take_append_drop _ _, reads.2, fun none => ?_⟩
      refine (List.take_eq_nil_iff.mp none).resolve_left ?_
      unfold rioBufsize
      omega
    | interrupted => exact inductionHypothesis reads.2
    | failed => exact absurd rfl reads.1

/-- `rio_read` of one byte takes the next byte of the client, if there is one. -/
theorem rioRead_reads (reads : rp.Reads) : ∃ after, after.Reads ∧
    rioRead rp 1 = some (rp.stream.take 1, after) ∧ after.stream = rp.stream.drop 1 := by
  obtain ⟨filled, here, same, still, more⟩ : ∃ filled,
      (if rp.unread = [] then refill rp.sent rp.readings else some rp) = some filled ∧
      filled.stream = rp.stream ∧ filled.Reads ∧ (filled.unread = [] → rp.stream = []) := by
    by_cases empty : rp.unread = []
    · rw [if_pos empty, Rio.stream, empty, List.nil_append]
      exact refill_reads rp.sent reads
    · exact ⟨rp, if_neg empty, rfl, reads, fun none => absurd none empty⟩
  cases unread : filled.unread with
  | nil =>
    have none := more unread
    have sent : filled.sent = [] := by
      rw [none, Rio.stream, unread, List.nil_append] at same
      exact same
    refine ⟨{ filled with unread := [] }, still, ?_, ?_⟩
    · simp [rioRead, here, unread, none]
    · rw [none]
      exact sent
  | cons c rest =>
    rw [← same]
    refine ⟨{ filled with unread := rest }, still, ?_, ?_⟩
    · simp [rioRead, here, unread, Rio.stream]
    · simp [Rio.stream, unread]

/-- The loop of `rio_readlineb` reads a piece of the text. -/
theorem readlinebLoop_reads (left : Nat) (reads : rp.Reads) (n : Nat) : ∃ m after, after.Reads ∧
    n ≤ m ∧ readlinebLoop left n rp = some (m, piece '\n' left rp.stream, after) ∧
    after.stream = rp.stream.drop (piece '\n' left rp.stream).length := by
  induction left generalizing rp n with
  | zero => exact ⟨n, rp, reads, Nat.le_refl n, by simp [readlinebLoop, piece], by simp [piece]⟩
  | succ left inductionHypothesis =>
    obtain ⟨next, still, byte, remains⟩ := rioRead_reads reads
    unfold readlinebLoop
    rw [byte]
    cases stream : rp.stream with
    | nil =>
      rw [stream] at remains
      exact ⟨n, next, still, Nat.le_refl n, rfl, remains⟩
    | cons c rest =>
      rw [stream] at remains
      by_cases ends : c = '\n'
      · exact ⟨n, next, still, Nat.le_refl n, by simp [piece, ends], by simpa [piece, ends] using remains⟩
      · obtain ⟨m, after, healthy, later, loop, final⟩ := inductionHypothesis still (n + 1)
        have tail : next.stream = rest := remains
        rw [tail] at loop final
        exact ⟨m, after, healthy, Nat.le_of_succ_le later, by simp [piece, ends, loop],
          by simpa [piece, ends] using final⟩

/-- `Rio_readlineb` leaves the buffer alone at the end of the text. -/
theorem rioReadlineb_end {maxlen : Nat} (reads : rp.Reads) (room : 1 < maxlen) (usrbuf : Text)
    (none : rp.stream = []) : ∃ after, after.Reads ∧
    rioReadlineb rp usrbuf maxlen = some (0, usrbuf, after) ∧ after.stream = [] := by
  obtain ⟨m, after, healthy, first, loop, final⟩ := readlinebLoop_reads (maxlen - 1) reads 1
  rw [none] at loop final
  refine ⟨after, healthy, ?_, by simpa using final⟩
  have nothing : piece '\n' (maxlen - 1) [] = [] := by
    cases maxlen - 1 <;> rfl
  simp [rioReadlineb, loop, nothing, room]

/-- `Rio_readlineb` stores a piece of the text with a terminator. -/
theorem rioReadlineb_reads {maxlen : Nat} (reads : rp.Reads) (room : 1 < maxlen) (usrbuf : Text)
    (more : rp.stream ≠ []) : ∃ n after, n ≠ 0 ∧ after.Reads ∧
    rioReadlineb rp usrbuf maxlen = some (n, piece '\n' (maxlen - 1) rp.stream ++ '\x00' ::
      usrbuf.drop ((piece '\n' (maxlen - 1) rp.stream).length + 1), after) ∧
    after.stream = rp.stream.drop (piece '\n' (maxlen - 1) rp.stream).length := by
  obtain ⟨m, after, healthy, first, loop, final⟩ := readlinebLoop_reads (maxlen - 1) reads 1
  have something : piece '\n' (maxlen - 1) rp.stream ≠ [] := piece_ne_nil (by omega) more
  exact ⟨m, after, Nat.ne_of_gt first, healthy, by simp [rioReadlineb, loop, something], final⟩

/-- The loop of `rio_readlineb` stores at most one byte a round, also when a later
call of `read` fails. -/
theorem readlinebLoop_length {left n m : Nat} {stored : Text} {after : Rio}
    (loop : readlinebLoop left n rp = some (m, stored, after)) : stored.length ≤ left := by
  induction left generalizing rp n m stored after with
  | zero =>
    simp only [readlinebLoop, Option.some.injEq, Prod.mk.injEq] at loop
    simp [← loop.2.1]
  | succ left inductionHypothesis =>
    unfold readlinebLoop at loop
    obtain ⟨⟨bytes, next⟩, -, loop⟩ := Option.bind_eq_some_iff.mp loop
    cases bytes with
    | nil =>
      simp only [Option.some.injEq, Prod.mk.injEq] at loop
      simp [← loop.2.1]
    | cons c rest =>
      by_cases ends : c = '\n'
      · simp only [if_pos ends, Option.some.injEq, Prod.mk.injEq] at loop
        simp [← loop.2.1]
      · simp only [if_neg ends] at loop
        obtain ⟨⟨last, more, final⟩, inner, loop⟩ := Option.bind_eq_some_iff.mp loop
        simp only [Option.some.injEq, Prod.mk.injEq] at loop
        have short := inductionHypothesis inner
        simpa [← loop.2.1] using short

/-- A line that was read fits into the buffer with its terminator. -/
theorem rioReadlineb_stored {maxlen n : Nat} {usrbuf buf : Text} {after : Rio}
    (read : rioReadlineb rp usrbuf maxlen = some (n, buf, after)) (some : n ≠ 0) :
    ∃ stored rest, buf = stored ++ '\x00' :: rest ∧ stored.length ≤ maxlen - 1 := by
  unfold rioReadlineb at read
  obtain ⟨⟨m, stored, final⟩, loop, read⟩ := Option.bind_eq_some_iff.mp read
  have short := readlinebLoop_length loop
  simp only at read
  split at read
  next =>
    simp only [Option.some.injEq, Prod.mk.injEq] at read
    exact absurd read.1.symm some
  next =>
    simp only [Option.some.injEq, Prod.mk.injEq] at read
    exact ⟨stored, _, read.2.1.symm, short⟩

end OperatingSystems.WebServer
