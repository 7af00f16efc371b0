import OperatingSystems.WebServer.Responses

/-!
# The client, and the exchange between client and server

The client of `client.c` sends one request, prints the header of the reply line
by line and then its body. What it prints for a reply of the server is the
header with the length it announces, and the body as it was sent.
-/

namespace OperatingSystems.WebServer

open Texts Lines

/-- The request that `clientSend` forms. -/
def clientRequest (filename hostname : Text) : Text :=
  "GET ".toList ++ filename ++ " HTTP/1.1\n".toList ++ ("host: ".toList ++ hostname ++ "\n\r\n".toList)

def clientSend (sink : Sink) (filename hostname : Text) : Option Sink :=
  sink.writen (clientRequest filename hostname)

/-- The reading of a line by `sscanf` with `"Content-Length: %d "`, when it finds a
number, which may be none that `int` can hold. -/
def scanLength (buf : Text) : Option Int :=
  let label := "Content-Length:".toList
  if label <+: cString buf then
    let (negative, rest) := sign (((cString buf).drop label.length).dropWhile isSpace)
    let digits := rest.takeWhile Char.isDigit
    if digits = [] then none else some (if negative then -(decimal digits : Int) else decimal digits)
  else none

/-- What `clientPrint` prints about the length in a line. -/
def lengthNotice (buf : Text) : Except Ended Text :=
  match scanLength buf with
  | none => .ok []
  | some value =>
    match asInt value with
    | none => .error .undefined
    | some length => .ok ("Length = ".toList ++ printInt length ++ "\n".toList)

/-- The loop of `clientPrint` over the header: what it prints, the buffer and the rest. -/
def clientHeaderLoop : Nat → Nat → Text → Rio → Except Ended (Text × Text × Rio)
  | 0, _, _, _ => .error .running
  | rounds + 1, n, buf, rio =>
    if cString buf ≠ "\r\n".toList ∧ 0 < n then
      match rioReadlineb rio buf maxBuf with
      | none => .error .exited
      | some (n, next, rio) => do
        let notice ← lengthNotice next
        let (printed, last, rio) ← clientHeaderLoop rounds n next rio
        .ok ("Header: ".toList ++ cString buf ++ (notice ++ printed), last, rio)
    else .ok ([], buf, rio)

/-- The loop of `clientPrint` over the body. -/
def clientBodyLoop : Nat → Nat → Text → Rio → Except Ended Text
  | 0, _, _, _ => .error .running
  | rounds + 1, n, buf, rio =>
    if 0 < n then
      match rioReadlineb rio buf maxBuf with
      | none => .error .exited
      | some (n, next, rio) => do
        let printed ← clientBodyLoop rounds n next rio
        .ok (cString buf ++ printed)
    else .ok []

/-- `clientPrint`, whose buffer holds arbitrary bytes at first: what it prints. -/
def clientPrint (rounds : Nat) (buf : Text) (rio : Rio) : Except Ended Text :=
  match rioReadlineb rio buf maxBuf with
  | none => .error .exited
  | some (n, buf, rio) => do
    let (header, buf, rio) ← clientHeaderLoop rounds n buf rio
    match rioReadlineb rio buf maxBuf with
    | none => .error .exited
    | some (n, buf, rio) => do
      let body ← clientBodyLoop rounds n buf rio
      .ok (header ++ body)

/-- What the client prints for the first line of a header and for each later one. -/
def shownLine (line : Text) : Text := "Header: ".toList ++ line

def shownLater (line : Text) : Text :=
  (match scanLength line with
    | none => []
    | some length => "Length = ".toList ++ printInt length ++ "\n".toList) ++ shownLine line

/-- What the client prints for a header. -/
def shownHeader : List Text → Text
  | [] => []
  | line :: lines => shownLine line ++ (lines.map shownLater).flatten

/-- A text without newlines and without the character that ends a string. -/
def Printable (text : Text) : Prop := ∀ c ∈ text, c ≠ '\n' ∧ c ≠ '\x00'

instance (text : Text) : Decidable (Printable text) := inferInstanceAs (Decidable (∀ c ∈ text, _))

/-- A line of a header that the client reads at once, with a length that `int` can
hold if it announces one. -/
structure HeaderLine (line : Text) : Prop where
  ends : ∃ front, line = front ++ ['\n'] ∧ Printable front ∧ front ≠ ['\r'] ∧ front.length < maxBuf - 1
  length : ∀ value, scanLength line = some value → asInt value = some value

/-- A reply with this header and this body. -/
structure Framed (text : Text) (lines : List Text) (body : Text) : Prop where
  whole : text = lines.flatten ++ ("\r\n".toList ++ body)
  begins : lines ≠ []
  header : ∀ line ∈ lines, HeaderLine line
  plain : '\x00' ∉ body

variable {rio : Rio} {text buf line body : Text} {lines : List Text} {n rounds : Nat}

/-- Reading once more takes a piece of the text, or leaves the buffer at the end. -/
theorem reads_piece (reads : rio.Reads) (buf : Text) : ∃ n next after, after.Reads ∧
    rioReadlineb rio buf maxBuf = some (n, next, after) ∧
    after.stream = rio.stream.drop (piece '\n' (maxBuf - 1) rio.stream).length ∧
    (rio.stream = [] ∧ n = 0 ∨
      rio.stream ≠ [] ∧ 0 < n ∧ cString next = cString (piece '\n' (maxBuf - 1) rio.stream)) := by
  by_cases none : rio.stream = []
  · obtain ⟨after, healthy, read, still⟩ := rioReadlineb_end reads (show 1 < maxBuf by decide) buf none
    exact ⟨0, buf, after, healthy, read, by simp [still, none], Or.inl ⟨none, rfl⟩⟩
  · obtain ⟨n, after, some, healthy, read, final⟩ :=
      rioReadlineb_reads reads (show 1 < maxBuf by decide) buf none
    exact ⟨n, _, after, healthy, read, final, Or.inr ⟨none, Nat.pos_of_ne_zero some, cString_terminated _ _⟩⟩

/-- A text without terminators is printed whole, piece after piece. -/
theorem clientBodyLoop_prints (reads : rio.Reads) (plain : '\x00' ∉ rio.stream) (some : 0 < n)
    (enough : rio.stream.length + 1 < rounds) :
    clientBodyLoop rounds n buf rio = .ok (cString buf ++ rio.stream) := by
  induction rounds generalizing n buf rio with
  | zero => omega
  | succ rounds inductionHypothesis =>
    obtain ⟨m, next, after, healthy, read, final, ⟨none, rfl⟩ | ⟨more, later, held⟩⟩ := reads_piece reads buf
    · obtain ⟨rounds, rfl⟩ : ∃ k, rounds = k + 1 := ⟨rounds - 1, by omega⟩
      simp [clientBodyLoop, some, read, none, Bind.bind, Except.bind]
    · have whole := piece_append_drop '\n' (maxBuf - 1) rio.stream
      rw [← final] at whole
      have taken : piece '\n' (maxBuf - 1) rio.stream ≠ [] := piece_ne_nil (by decide) more
      have first := List.length_pos_of_ne_nil taken
      have sizes := congrArg List.length whole
      rw [List.length_append] at sizes
      rw [← whole, List.mem_append, not_or] at plain
      rw [cString_eq plain.1] at held
      have rest : clientBodyLoop rounds m next after = .ok (cString next ++ after.stream) :=
        inductionHypothesis healthy plain.2 later (by omega)
      simp [clientBodyLoop, some, read, rest, held, whole, Bind.bind, Except.bind]

theorem HeaderLine.proper (isLine : HeaderLine line) : cString line = line := by
  obtain ⟨front, rfl, printable, -⟩ := isLine.ends
  refine cString_eq fun member => ?_
  rcases List.mem_append.mp member with inside | last
  · exact (printable _ inside).2 rfl
  · exact absurd (List.mem_singleton.mp last) (by decide)

/-- A line of a header is not the empty line. -/
theorem HeaderLine.ne_empty (isLine : HeaderLine line) : line ≠ "\r\n".toList := by
  obtain ⟨front, rfl, -, other, -⟩ := isLine.ends
  intro same
  have both : front ++ ['\n'] = ['\r'] ++ ['\n'] := same
  exact other (List.append_cancel_right both)

/-- What `sscanf` finds depends on the string in the buffer. -/
theorem scanLength_congr (same : cString buf = line) (proper : cString line = line) :
    scanLength buf = scanLength line := by
  simp only [scanLength, same, proper]

/-- The next line of the header is read into the buffer. -/
theorem reads_line (reads : rio.Reads) (buf : Text) {rest : Text} (isLine : HeaderLine line)
    (next : rio.stream = line ++ rest) : ∃ n held after, 0 < n ∧ after.Reads ∧ after.stream = rest ∧
    rioReadlineb rio buf maxBuf = some (n, held, after) ∧ cString held = line := by
  obtain ⟨front, whole, printable, -, short⟩ := isLine.ends
  have one : piece '\n' (maxBuf - 1) rio.stream = line := by
    rw [next, whole, List.append_assoc]
    exact piece_line (fun member => (printable _ member).1 rfl) short
  obtain ⟨n, held, after, healthy, read, final, ⟨none, _⟩ | ⟨_, some, found⟩⟩ := reads_piece reads buf
  · rw [next, whole] at none
    simp at none
  · rw [one] at final found
    exact ⟨n, held, after, some, healthy, by rw [final, next, List.drop_left], read, found.trans isLine.proper⟩

/-- The empty line is a piece of its own. -/
theorem piece_emptyLine {most : Nat} (room : 1 < most) (rest : Text) :
    piece '\n' most ("\r\n".toList ++ rest) = "\r\n".toList := by
  have clean : '\n' ∉ ['\r'] := by decide
  have line : piece '\n' most (['\r'] ++ '\n' :: rest) = ['\r'] ++ ['\n'] := piece_line clean room
  exact line

theorem scanLength_emptyLine : scanLength "\r\n".toList = none := by decide +kernel

/-- What the client prints about the length in a line of a header. -/
theorem HeaderLine.notice (isLine : HeaderLine line) (held : cString buf = line) :
    lengthNotice buf = .ok (match scanLength line with
      | none => []
      | some length => "Length = ".toList ++ printInt length ++ "\n".toList) := by
  rw [lengthNotice, scanLength_congr held isLine.proper]
  cases scans : scanLength line with
  | none => rfl
  | some value => simp only [isLine.length value scans]

/-- One round of the loop over the header. -/
theorem clientHeaderLoop_round {m : Nat} {next shown printed last : Text} {rio' after : Rio}
    (other : cString buf ≠ "\r\n".toList) (first : 0 < n) (read : rioReadlineb rio buf maxBuf = some (m, next, rio'))
    (notice : lengthNotice next = .ok shown)
    (loop : clientHeaderLoop rounds m next rio' = .ok (printed, last, after)) :
    clientHeaderLoop (rounds + 1) n buf rio = .ok (shownLine (cString buf) ++ (shown ++ printed), last, after) := by
  unfold clientHeaderLoop
  rw [if_pos ⟨other, first⟩]
  simp only [read]
  rw [notice, loop]
  rfl

/-- The header is printed line by line up to the empty line. -/
theorem clientHeaderLoop_prints (isLine : HeaderLine line) (held : cString buf = line) (first : 0 < n)
    (header : ∀ line ∈ lines, HeaderLine line) (reads : rio.Reads)
    (stream : rio.stream = lines.flatten ++ ("\r\n".toList ++ body)) (enough : lines.length + 1 < rounds) :
    ∃ last after, after.Reads ∧ after.stream = body ∧
      clientHeaderLoop rounds n buf rio = .ok (shownHeader (line :: lines), last, after) := by
  induction lines generalizing n buf rio line rounds with
  | nil =>
    obtain ⟨rounds, rfl⟩ : ∃ k, rounds = k + 2 := ⟨rounds - 2, by omega⟩
    rw [List.flatten_nil, List.nil_append] at stream
    obtain ⟨m, next, after, healthy, read, final, ⟨none, _⟩ | ⟨_, _, found⟩⟩ := reads_piece reads buf
    · rw [stream] at none
      exact absurd none (List.append_ne_nil_of_left_ne_nil (by decide) _)
    · rw [stream, piece_emptyLine (by decide)] at final found
      have proper : cString "\r\n".toList = "\r\n".toList := by decide
      rw [proper] at found
      have quiet : lengthNotice next = .ok [] := by
        rw [lengthNotice, scanLength_congr found proper, scanLength_emptyLine]
      have ends : clientHeaderLoop (rounds + 1) m next after = .ok ([], next, after) := by
        unfold clientHeaderLoop
        rw [if_neg fun more => more.1 found]
      refine ⟨next, after, healthy, by rw [final, List.drop_left], ?_⟩
      rw [clientHeaderLoop_round (held ▸ isLine.ne_empty) first read quiet ends, held]
      rfl
  | cons line' lines inductionHypothesis =>
    obtain ⟨isNext, rest⟩ := List.forall_mem_cons.mp header
    obtain ⟨rounds, rfl⟩ : ∃ k, rounds = k + 1 := ⟨rounds - 1, by omega⟩
    rw [List.flatten_cons, List.append_assoc] at stream
    rw [List.length_cons] at enough
    obtain ⟨m, next, after, more, healthy, remains, read, found⟩ := reads_line reads buf isNext stream
    obtain ⟨last, final, sound, left, loop⟩ :=
      inductionHypothesis isNext found more rest healthy remains (Nat.lt_of_succ_lt_succ enough)
    refine ⟨last, final, sound, left, ?_⟩
    rw [clientHeaderLoop_round (held ▸ isLine.ne_empty) first read (isNext.notice found) loop, held]
    simp only [shownHeader, shownLater, List.map_cons, List.flatten_cons, List.append_assoc]

/-- The client prints the header and the body of a reply, however `read` cuts it. -/
theorem clientPrint_prints (framed : Framed text lines body) (reads : rio.Reads) (stream : rio.stream = text)
    (buf : Text) (enough : text.length + 1 < rounds) :
    clientPrint rounds buf rio = .ok (shownHeader lines ++ body) := by
  obtain ⟨line, lines, rfl⟩ := List.exists_cons_of_ne_nil framed.begins
  obtain ⟨isLine, header⟩ := List.forall_mem_cons.mp framed.header
  have whole := framed.whole
  rw [List.flatten_cons, List.append_assoc] at whole
  have few : lines.length ≤ lines.flatten.length := by
    rw [List.length_flatten]
    refine (Nat.le_of_eq (by simp)).trans (List.card_nsmul_le_sum (lines.map List.length) 1 ?_)
    intro size member
    obtain ⟨other, inside, rfl⟩ := List.mem_map.mp member
    obtain ⟨front, rfl, -⟩ := (header other inside).ends
    simp
  have sizes := congrArg List.length whole
  simp only [List.length_append] at sizes
  obtain ⟨n, next, rio', some, healthy, remains, read, found⟩ := reads_line reads buf isLine (stream.trans whole)
  have rounds_suffice : lines.length + 1 < rounds := by omega
  obtain ⟨last, after, sound, left, loop⟩ :=
    clientHeaderLoop_prints isLine found some header healthy remains rounds_suffice
  obtain ⟨m, held, final, ok, again, rest, ⟨none, rfl⟩ | ⟨more, later, found⟩⟩ := reads_piece sound last
  · obtain ⟨rounds, rfl⟩ : ∃ k, rounds = k + 1 := ⟨rounds - 1, by omega⟩
    rw [left] at none
    simp [clientPrint, read, loop, again, clientBodyLoop, none, Bind.bind, Except.bind]
  · have parts := piece_append_drop '\n' (maxBuf - 1) after.stream
    rw [← rest, left] at parts
    rw [left] at found
    have plain := framed.plain
    rw [← parts, List.mem_append, not_or] at plain
    rw [cString_eq plain.1] at found
    have size := congrArg List.length parts
    rw [List.length_append] at size
    have printed : clientBodyLoop rounds m held final = .ok (cString held ++ final.stream) :=
      clientBodyLoop_prints ok plain.2 later (by omega)
    rw [found, parts] at printed
    simp [clientPrint, read, loop, again, printed, Bind.bind, Except.bind]

end OperatingSystems.WebServer
