import OperatingSystems.WebServer.Rio
import OperatingSystems.Runs

/-!
# The Rio package and the streams behind it

Through `rio_t` a reader sees one stream of bytes, however its lines and counts
are mixed and however the calls of `read` cut it. `rio_writen` appends to a
stream what it was given, however the calls of `write` cut it, or a part of it
from the start when one of them fails.
-/

namespace OperatingSystems.WebServer

open Texts Lines Runs

/-- The loop of `rio_readnb` with so many bytes left. It reads at least one byte in
every round, so that as many rounds are enough. -/
def readnbLoop : Nat → Nat → Rio → Option (Text × Rio)
  | 0, _, rp => some ([], rp)
  | rounds + 1, nleft, rp =>
    if nleft = 0 then some ([], rp)
    else do
      let (bytes, rp) ← rioRead rp nleft
      if bytes = [] then some ([], rp)
      else
        let (more, rp) ← readnbLoop rounds (nleft - bytes.length) rp
        some (bytes ++ more, rp)

/-- `Rio_readnb`: its result and the bytes it stores. -/
def rioReadnb (rp : Rio) (n : Nat) : Option (Nat × Text × Rio) := do
  let (bytes, rp) ← readnbLoop n n rp
  some (bytes.length, bytes, rp)

/-- A call on one buffer. A line is read into a fresh one. -/
inductive Fetch where
  | readlineb (maxlen : Nat)
  | readnb (n : Nat)
deriving DecidableEq, Repr

/-- The result of the call, the bytes it stores and the buffer behind it. -/
def Fetch.call : Fetch → Rio → Option (Nat × Text × Rio)
  | .readlineb maxlen, rp => rioReadlineb rp [] maxlen
  | .readnb n, rp => rioReadnb rp n

/-- Perform one call; a failed `read` ends the process. -/
def fetch (x : Fetch) (rp : Rio) : Except Unit Rio :=
  match x.call rp with
  | some (_, _, after) => .ok after
  | none => .error ()

/-- A call with its result and the bytes it stores. -/
def fetched (x : Fetch) (rp : Rio) : Fetch × Nat × Text :=
  match x.call rp with
  | some (n, bytes, _) => (x, n, bytes)
  | none => (x, 0, [])

/-- What a stream delivers: for a count so many bytes, for a line the first piece
with a terminator. The result for a line counts the terminator unless a newline
ends the piece. -/
def Delivers : Fetch × Nat × Text → Text → Text → Prop
  | (.readnb n, result, bytes), stream, rest =>
    bytes = stream.take n ∧ rest = stream.drop n ∧ result = bytes.length
  | (.readlineb maxlen, result, bytes), stream, rest =>
    let line := piece '\n' (maxlen - 1) stream
    rest = stream.drop line.length ∧
      if stream = [] then result = 0 ∧ bytes = []
      else bytes = line ++ ['\x00'] ∧ result = if '\n' ∈ line then line.length else line.length + 1

variable {rp : Rio}

/-- `rio_read` takes some bytes from the stream, at least one unless it has ended. -/
theorem rioRead_takes (reads : rp.Reads) {n : Nat} (positive : 0 < n) : ∃ k after, after.Reads ∧
    rioRead rp n = some (rp.stream.take k, after) ∧ after.stream = rp.stream.drop k ∧ k ≤ n ∧
    k ≤ rp.stream.length ∧ (rp.stream ≠ [] → 0 < k) := by
  obtain ⟨filled, here, same, still, more⟩ : ∃ filled,
      (if rp.unread = [] then refill rp.sent rp.readings else some rp) = some filled ∧
      filled.stream = rp.stream ∧ filled.Reads ∧ (filled.unread = [] → rp.stream = []) := by
    by_cases empty : rp.unread = []
    · rw [if_pos empty, Rio.stream, empty, List.nil_append]
      exact refill_reads rp.sent reads
    · exact ⟨rp, if_neg empty, rfl, reads, fun none => absurd none empty⟩
  rw [← same] at more ⊢
  refine ⟨min n filled.unread.length, { filled with unread := filled.unread.drop n }, still, ?_, ?_,
    Nat.min_le_left _ _, ?_, fun some => ?_⟩
  · simp only [rioRead, here, Option.map_some, Rio.stream]
    rw [List.take_append_of_le_length (Nat.min_le_right _ _), ← List.take_take, List.take_length]
  · simp only [Rio.stream]
    rw [List.drop_append_of_le_length (Nat.min_le_right _ _)]
    congr 1
    rcases Nat.le_total n filled.unread.length with fits | short
    · rw [Nat.min_eq_left fits]
    · rw [Nat.min_eq_right short, List.drop_length, List.drop_of_length_le short]
  · simp only [Rio.stream, List.length_append]
    omega
  · have unread := List.length_pos_of_ne_nil (mt more some)
    omega

/-- `rio_readnb` takes as many bytes as it is asked for, or all there are. -/
theorem readnbLoop_takes (rounds : Nat) (reads : rp.Reads) {nleft : Nat} (enough : nleft ≤ rounds) :
    ∃ after, after.Reads ∧ readnbLoop rounds nleft rp = some (rp.stream.take nleft, after) ∧
      after.stream = rp.stream.drop nleft := by
  induction rounds generalizing rp nleft with
  | zero =>
    obtain rfl : nleft = 0 := by omega
    exact ⟨rp, reads, rfl, rfl⟩
  | succ rounds inductionHypothesis =>
    unfold readnbLoop
    by_cases none : nleft = 0
    · subst none
      exact ⟨rp, reads, rfl, rfl⟩
    · obtain ⟨k, next, still, read, remains, most, within, some⟩ := rioRead_takes reads (Nat.pos_of_ne_zero none)
      rw [if_neg none, read]
      simp only [Option.bind_eq_bind, Option.bind_some]
      by_cases ended : rp.stream = []
      · exact ⟨next, still, by simp [ended], by simp [remains, ended]⟩
      · have positive := some ended
        have count : (rp.stream.take k).length = k := List.length_take_of_le within
        have taken : rp.stream.take k ≠ [] := fun empty => by
          rw [empty] at count
          simp at count
          omega
        have fewer : nleft - k ≤ rounds := by omega
        obtain ⟨after, healthy, rest, final⟩ := inductionHypothesis still fewer
        refine ⟨after, healthy, ?_, ?_⟩
        · rw [if_neg taken, count, rest, remains]
          simp only [Option.bind_some]
          rw [← List.take_add, Nat.add_sub_cancel' most]
        · rw [final, remains, List.drop_drop, Nat.add_sub_cancel' most]

/-- The round that the loop of `rio_readlineb` ends in. -/
theorem readlinebLoop_counts (left : Nat) (reads : rp.Reads) (n : Nat) : ∃ after,
    readlinebLoop left n rp = some (n + (piece '\n' left rp.stream).dropLast.length +
      (if piece '\n' left rp.stream ≠ [] ∧ '\n' ∉ piece '\n' left rp.stream then 1 else 0),
      piece '\n' left rp.stream, after) := by
  induction left generalizing rp n with
  | zero => exact ⟨rp, by simp [readlinebLoop, piece]⟩
  | succ left inductionHypothesis =>
    obtain ⟨next, still, byte, remains⟩ := rioRead_reads reads
    unfold readlinebLoop
    rw [byte]
    cases stream : rp.stream with
    | nil => exact ⟨next, by simp [piece]⟩
    | cons c rest =>
      rw [stream] at remains
      by_cases ends : c = '\n'
      · exact ⟨next, by simp [piece, ends]⟩
      · have tail : next.stream = rest := remains
        obtain ⟨after, loop⟩ := inductionHypothesis still (n + 1)
        rw [tail] at loop
        refine ⟨after, ?_⟩
        simp only [List.take_succ_cons, List.take_zero, Option.bind_eq_bind, Option.bind_some, piece, if_neg ends,
          loop, Option.some.injEq, Prod.mk.injEq, and_true]
        by_cases more : piece '\n' left rest = []
        · simp [more, Ne.symm ends]
        · rw [List.dropLast_cons_of_ne_nil more]
          simp only [List.length_cons, ne_eq, more, reduceCtorEq, not_false_eq_true, List.mem_cons, Ne.symm ends,
            false_or, true_and]
          omega

/-- Each call delivers the next bytes of the stream. -/
theorem fetch_delivers (reads : rp.Reads) (x : Fetch) (room : ∀ maxlen, x = .readlineb maxlen → 1 < maxlen) :
    ∃ after, fetch x rp = .ok after ∧ after.Reads ∧ Delivers (fetched x rp) rp.stream after.stream := by
  cases x with
  | readnb n =>
    obtain ⟨after, healthy, loop, remains⟩ := readnbLoop_takes n reads (Nat.le_refl n)
    have call : (Fetch.readnb n).call rp = some ((rp.stream.take n).length, rp.stream.take n, after) := by
      simp [Fetch.call, rioReadnb, loop]
    refine ⟨after, by rw [fetch, call], healthy, ?_⟩
    rw [fetched, call]
    exact ⟨rfl, remains, rfl⟩
  | readlineb maxlen =>
    have space := room maxlen rfl
    by_cases ended : rp.stream = []
    · obtain ⟨after, healthy, read, final⟩ := rioReadlineb_end reads space [] ended
      have call : (Fetch.readlineb maxlen).call rp = some (0, [], after) := read
      refine ⟨after, by rw [fetch, call], healthy, ?_⟩
      rw [fetched, call]
      exact ⟨by simp [ended, final], by rw [if_pos ended]; exact ⟨rfl, rfl⟩⟩
    · obtain ⟨n, after, -, healthy, read, final⟩ := rioReadlineb_reads reads space [] ended
      rw [List.drop_nil] at read
      have call : (Fetch.readlineb maxlen).call rp =
          some (n, piece '\n' (maxlen - 1) rp.stream ++ ['\x00'], after) := read
      refine ⟨after, by rw [fetch, call], healthy, ?_⟩
      rw [fetched, call]
      refine ⟨final, ?_⟩
      rw [if_neg ended]
      refine ⟨rfl, ?_⟩
      have some : piece '\n' (maxlen - 1) rp.stream ≠ [] := piece_ne_nil (by omega) ended
      obtain ⟨_, loop⟩ := readlinebLoop_counts (maxlen - 1) reads 1
      simp only [rioReadlineb, loop, Option.bind_eq_bind, Option.bind_some, some, false_and, if_false,
        Option.some.injEq, Prod.mk.injEq] at read
      have size := List.length_pos_of_ne_nil some
      rw [← read.1, List.length_dropLast]
      by_cases ends : '\n' ∈ piece '\n' (maxlen - 1) rp.stream
      · simp only [ends, not_true_eq_false, and_false, if_false, if_true]
        omega
      · simp only [ends, some, ne_eq, not_false_eq_true, and_self, if_false, if_true]
        omega

/-- However calls for lines and for counts are mixed and however `read` cuts the
stream, the calls deliver its bytes in order, each once. -/
theorem fetches_follow (calls : List Fetch) (reads : rp.Reads)
    (room : ∀ maxlen, .readlineb maxlen ∈ calls → 1 < maxlen) :
    ∃ rest, Follows Delivers (trace fetch fetched calls rp) rp.stream rest ∧
      ∃ after, execute fetch calls rp = .ok after ∧ after.stream = rest := by
  have obeys : Obeys fetch (fun x _ => ∀ maxlen, x = .readlineb maxlen → 1 < maxlen) calls rp :=
    Obeys.of_forall fun x member _ maxlen same => room maxlen (same ▸ member)
  obtain ⟨after, reached, _⟩ := (execute_ends (I := Rio.Reads) (E := fun _ => False) (fun x rp reads wide => by
    obtain ⟨after, step, healthy, _⟩ := fetch_delivers reads x wide
    rw [step]
    exact healthy) reads obeys).reaches
  obtain ⟨rest, follows, ends⟩ := execute_follows (S := Delivers) (f := fetched)
    (R := fun stream rp => rp.stream = stream ∧ rp.Reads)
    (fun x rp next stream related wide step => by
      obtain ⟨rfl, reads⟩ := related
      obtain ⟨after, same, healthy, delivers⟩ := fetch_delivers reads x wide
      obtain rfl : next = after := Except.ok.inj (step.symm.trans same)
      exact ⟨next.stream, delivers, rfl, healthy⟩)
    ⟨rfl, reads⟩ obeys
  rw [reached] at ends
  exact ⟨rest, follows, after, reached, ends.1⟩

/-- A line, a count that reaches into the next line and a line that is longer than the
buffer, read in chunks of three bytes and less with an interruption. -/
theorem fetches_follow_sample : ∃ rest,
    Follows Delivers (trace fetch fetched [.readlineb 10, .readnb 2, .readlineb 3, .readnb 9]
      ⟨[], "ab\ncdefgh".toList, [.upTo 2, .interrupted, .upTo 0]⟩) "ab\ncdefgh".toList rest ∧
    ∃ after, execute fetch [.readlineb 10, .readnb 2, .readlineb 3, .readnb 9]
      ⟨[], "ab\ncdefgh".toList, [.upTo 2, .interrupted, .upTo 0]⟩ = .ok after ∧ after.stream = rest :=
  fetches_follow _ (by decide) (by simp)

/-- How a call of `write` turns out: it writes one byte and at most so many more, or
none, is interrupted by a signal, or fails. -/
inductive Writing where
  | upTo (more : Nat)
  | nothing
  | interrupted
  | failed
deriving DecidableEq, Repr

/-- A descriptor that is written to: the bytes that got there, how the next calls of
`write` turn out, and whether `errno` is `EINTR`. A call past the end of the list
writes everything. -/
structure Sink where
  written : Text
  writings : List Writing
  interrupted : Bool
deriving DecidableEq, Repr

/-- No call of `write` fails or writes nothing. -/
def Sink.Writes (sink : Sink) : Prop := ∀ w ∈ sink.writings, w ≠ .nothing ∧ w ≠ .failed

instance (sink : Sink) : Decidable sink.Writes := inferInstanceAs (Decidable (∀ w ∈ _, _))

/-- The loop of `rio_writen`, at `bufp`: whether it wrote everything. A call that writes
nothing leaves `errno` as an earlier one set it. -/
def writenLoop (written : Text) (interrupted : Bool) (bufp : Text) : List Writing → Bool × Sink
  | [] => (true, ⟨written ++ bufp, [], interrupted⟩)
  | w :: rest =>
    if bufp = [] then (true, ⟨written, w :: rest, interrupted⟩)
    else
      match w with
      | .upTo more => writenLoop (written ++ bufp.take (more + 1)) interrupted (bufp.drop (more + 1)) rest
      | .nothing =>
        if interrupted then writenLoop written interrupted bufp rest else (false, ⟨written, rest, interrupted⟩)
      | .interrupted => writenLoop written true bufp rest
      | .failed => (false, ⟨written, rest, false⟩)

/-- `rio_writen`, whose result is the length or -1. -/
def rioWriten (sink : Sink) (usrbuf : Text) : Int × Sink :=
  let (all, after) := writenLoop sink.written sink.interrupted usrbuf sink.writings
  (if all then usrbuf.length else -1, after)

/-- `Rio_writen`; there is no result when `rio_writen` fails, for `unix_error` then ends
the process. -/
def Sink.writen (sink : Sink) (usrbuf : Text) : Option Sink :=
  let (n, after) := rioWriten sink usrbuf
  if n ≠ usrbuf.length then none else some after

variable {sink after : Sink} {usrbuf : Text}

/-- The loop appends a part of the buffer from its start, and all of it when it
succeeds. -/
theorem writenLoop_appends (written : Text) (interrupted : Bool) (bufp : Text) (writings : List Writing) :
    ∃ sent rest, bufp = sent ++ rest ∧
      (writenLoop written interrupted bufp writings).2.written = written ++ sent ∧
      ((writenLoop written interrupted bufp writings).1 = true → rest = []) ∧
      (∀ w ∈ (writenLoop written interrupted bufp writings).2.writings, w ∈ writings) := by
  induction writings generalizing written interrupted bufp with
  | nil => exact ⟨bufp, [], by simp [writenLoop]⟩
  | cons w writings inductionHypothesis =>
    unfold writenLoop
    by_cases done : bufp = []
    · exact ⟨[], [], by simp [done]⟩
    · rw [if_neg done]
      cases w with
      | upTo more =>
        obtain ⟨sent, rest, split, wrote, whole, kept⟩ :=
          inductionHypothesis (written ++ bufp.take (more + 1)) interrupted (bufp.drop (more + 1))
        refine ⟨bufp.take (more + 1) ++ sent, rest, ?_, ?_, whole, fun w member => List.mem_cons_of_mem _ (kept w member)⟩
        · rw [List.append_assoc, ← split, List.take_append_drop]
        · rw [wrote, List.append_assoc]
      | nothing =>
        by_cases again : interrupted = true
        · obtain ⟨sent, rest, split, wrote, whole, kept⟩ := inductionHypothesis written interrupted bufp
          simp only [if_pos again]
          exact ⟨sent, rest, split, wrote, whole, fun w member => List.mem_cons_of_mem _ (kept w member)⟩
        · simp only [if_neg again]
          exact ⟨[], bufp, rfl, (List.append_nil _).symm, nofun, fun w => List.mem_cons_of_mem _⟩
      | interrupted =>
        obtain ⟨sent, rest, split, wrote, whole, kept⟩ := inductionHypothesis written true bufp
        exact ⟨sent, rest, split, wrote, whole, fun w member => List.mem_cons_of_mem _ (kept w member)⟩
      | failed => exact ⟨[], bufp, rfl, (List.append_nil _).symm, nofun, fun w => List.mem_cons_of_mem _⟩

/-- The loop succeeds unless a call of `write` fails or writes nothing. -/
theorem writenLoop_succeeds (written : Text) (interrupted : Bool) (bufp : Text) {writings : List Writing}
    (writes : ∀ w ∈ writings, w ≠ .nothing ∧ w ≠ .failed) :
    (writenLoop written interrupted bufp writings).1 = true := by
  induction writings generalizing written interrupted bufp with
  | nil => rfl
  | cons w writings inductionHypothesis =>
    obtain ⟨proper, rest⟩ := List.forall_mem_cons.mp writes
    unfold writenLoop
    by_cases done : bufp = []
    · rw [if_pos done]
    · rw [if_neg done]
      cases w with
      | upTo more => exact inductionHypothesis _ _ _ rest
      | interrupted => exact inductionHypothesis _ _ _ rest
      | nothing => exact absurd rfl proper.1
      | failed => exact absurd rfl proper.2

/-- `Rio_writen` appends its buffer to the stream, whole and once. -/
theorem writen_appends (writes : sink.Writes) (usrbuf : Text) :
    ∃ after, sink.writen usrbuf = some after ∧ after.written = sink.written ++ usrbuf ∧ after.Writes := by
  obtain ⟨sent, rest, split, wrote, whole, kept⟩ :=
    writenLoop_appends sink.written sink.interrupted usrbuf sink.writings
  have all := writenLoop_succeeds sink.written sink.interrupted usrbuf writes
  obtain rfl := whole all
  rw [List.append_nil] at split
  refine ⟨(writenLoop sink.written sink.interrupted usrbuf sink.writings).2, ?_, split ▸ wrote,
    fun w member => writes w (kept w member)⟩
  simp [Sink.writen, rioWriten, all]

/-- Whatever the calls of `write` do, `rio_writen` appends a part of its buffer from the
start, and reports success only if that is all of it. -/
theorem rioWriten_appends (sink : Sink) (usrbuf : Text) : ∃ sent rest, usrbuf = sent ++ rest ∧
    (rioWriten sink usrbuf).2.written = sink.written ++ sent ∧
    ((rioWriten sink usrbuf).1 = usrbuf.length ∧ rest = [] ∨ (rioWriten sink usrbuf).1 = -1) := by
  obtain ⟨sent, rest, split, wrote, whole, _⟩ :=
    writenLoop_appends sink.written sink.interrupted usrbuf sink.writings
  refine ⟨sent, rest, split, wrote, ?_⟩
  cases all : (writenLoop sink.written sink.interrupted usrbuf sink.writings).1 with
  | true => exact Or.inl ⟨by simp [rioWriten, all], whole all⟩
  | false => exact Or.inr (by simp [rioWriten, all])

end OperatingSystems.WebServer
