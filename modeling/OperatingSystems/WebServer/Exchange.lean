import OperatingSystems.WebServer.Client

/-!
# An exchange between the client and the server

The request of the client makes the server answer, and what the client prints is
the header and the document of the answer, whatever the file is, however the
bytes of both directions are cut on the way, and whether the document is an
error, a file or the page of a program. An error and a file announce the length
of their document in the header.
-/

namespace OperatingSystems.WebServer

open Texts Lines

/-- The lines above the document of an error. -/
def errorLines (cause errnum shortmsg longmsg : Text) (tstats : Stats) : List Text :=
  ("HTTP/1.0 ".toList ++ (errnum ++ " ".toList ++ shortmsg) ++ "\r\n".toList) ::
    "Content-Type: text/html\r\n".toList ::
    ("Content-Length: ".toList ++ printUnsigned (errorBody cause errnum shortmsg longmsg).length ++
      "\r\n".toList) :: statLines tstats

/-- The lines above a file. -/
def staticLines (filename : Text) (filesize : Int) (tstats : Stats) : List Text :=
  "HTTP/1.0 200 OK\r\n".toList :: "Server: OS-HW3 Web Server\r\n".toList ::
    ("Content-Length: ".toList ++ printInt filesize ++ "\r\n".toList) ::
    ("Content-Type: ".toList ++ requestGetFiletype filename ++ "\r\n".toList) :: statLines tstats

/-- The lines that the server puts above the header of a program. -/
def dynamicLines (tstats : Stats) : List Text :=
  "HTTP/1.0 200 OK\r\n".toList :: "Server: OS-HW3 Web Server\r\n".toList :: statLines tstats

/-- `content` of `output.c`, where `spun` is the time it took. -/
def outputContent (spun : Text) : Text :=
  let content := "<p>Welcome to the CGI program</p>\r\n".toList
  let content := content ++ "<p>My only purpose is to waste time on the server!</p>\r\n".toList
  content ++ "<p>I spun for ".toList ++ spun ++ " seconds</p>\r\n".toList

/-- What `output.c` writes. -/
def output (spun : Text) : Text :=
  "Content-length: ".toList ++ printUnsigned (outputContent spun).length ++ "\r\n".toList ++
    ("Content-type: text/html\r\n\r\n".toList ++ outputContent spun)

/-- The header and the document that a response consists of. -/
inductive Reply (host : Host) (tstats : Stats) : Response → List Text → Text → Prop
  | error (cause errnum shortmsg longmsg : Text) :
    Reply host tstats (.error cause errnum shortmsg longmsg) (errorLines cause errnum shortmsg longmsg tstats)
      (errorBody cause errnum shortmsg longmsg)
  | static {filename : Text} {file : File} (found : host.files filename = some file) :
    Reply host tstats (.serveStatic filename file.contents.length)
      (staticLines filename (asInt32 file.contents.length) tstats)
      (file.contents.take (asInt32 file.contents.length).toNat)
  | dynamic {filename : Text} {cgiargs : Option Text} {lines : List Text} {body : Text}
      {output : Text} (ran : host.cgi filename (cgiargs.getD []) = some output) (framed : Framed output lines body) :
    Reply host tstats (.serveDynamic filename cgiargs) (dynamicLines tstats ++ lines) body

/-- The host holds texts: no file holds the character that ends a string, and each
program that ends has written a header and a document. No file has a name that is too
long for `stat`. -/
structure Host.Proper (host : Host) : Prop where
  files : ∀ name file, host.files name = some file → '\x00' ∉ file.contents
  programs : ∀ name args output, host.cgi name args = some output → ∃ lines body, Framed output lines body
  names : NamesLimited host.stat

/-- The numbers of the thread are not negative and below this limit. -/
def Stats.Below (tstats : Stats) (limit : Int) : Prop :=
  ∀ i ∈ [tstats.id, tstats.handledRequests, tstats.handledStatRequests, tstats.handledDynRequests],
    0 ≤ i ∧ i < limit

instance (tstats : Stats) (limit : Int) : Decidable (tstats.Below limit) :=
  inferInstanceAs (Decidable (∀ i ∈ [_, _, _, _], _))

/-- How the calls of `write` and `read` for the request and for the reply turn out. -/
structure Wire where
  requestWritings : List Writing
  requestReadings : List Reading
  replyWritings : List Writing
  replyReadings : List Reading
deriving DecidableEq, Repr

/-- No call fails or writes nothing. -/
structure Wire.Healthy (wire : Wire) : Prop where
  sends : ∀ w ∈ wire.requestWritings, w ≠ .nothing ∧ w ≠ .failed
  arrives : .failed ∉ wire.requestReadings
  replies : ∀ w ∈ wire.replyWritings, w ≠ .nothing ∧ w ≠ .failed
  returns : .failed ∉ wire.replyReadings

/-- The client sends its request, the server handles it, and the client prints what it
gets. The buffers of both hold arbitrary bytes at first. -/
def exchange (host : Host) (wire : Wire) (served read : Nat) (filename hostname buf hdrs shown : Text)
    (tstats : Stats) : Except Ended (Text × Stats) :=
  match clientSend ⟨[], wire.requestWritings, false⟩ filename hostname with
  | none => .error .exited
  | some sent =>
    let socket := ⟨sent.written, wire.requestReadings, ⟨[], wire.replyWritings, false⟩⟩
    match handleConnection host served buf hdrs socket tstats with
    | .error why => .error why
    | .ok (replied, tstats) =>
      match clientPrint read shown ⟨[], replied.written, wire.replyReadings⟩ with
      | .error why => .error why
      | .ok printed => .ok (printed, tstats)

/-- A request that the server can answer: the file name is a word, it and the name of
the client fit into the buffers on both sides, and serving the file has an end that is not
that of the server. -/
structure Answerable (host : Host) (filename hostname : Text) : Prop where
  word : IsWord filename
  named : Printable hostname
  fits : FitsIn maxLine (clientRequest filename hostname)
  room : HasRoom filename
  served : ¬Unservable host filename

/-- A line with a label and a value that announces no length. -/
def Field (line : Text) : Prop := HeaderLine line ∧ scanLength line = none

variable {host : Host} {tstats : Stats} {label value line text : Text} {lines : List Text} {body : Text}
  {response : Response} {n : Nat}

theorem Printable.append (first : Printable label) (second : Printable value) : Printable (label ++ value) :=
  fun c member => (List.mem_append.mp member).elim (first c) (second c)

theorem printable_printUnsigned (n : Nat) : Printable (printUnsigned n) := fun c member => by
  have digit := (printUnsigned_numeral n).2 c member
  constructor <;> rintro rfl <;> simp at digit

theorem printable_printInt (i : Int) : Printable (printInt i) := fun c member => by
  rcases mem_printInt member with rfl | digit
  · decide
  · constructor <;> rintro rfl <;> simp at digit

theorem printable_printTime (time : Timeval) : Printable (printTime time) := by
  refine Printable.append (printable_printUnsigned _) fun c member => ?_
  rcases List.mem_cons.mp member with rfl | padded
  · decide
  · have digit := printPadded_digits padded
    constructor <;> rintro rfl <;> simp at digit

theorem length_printTime (time : Timeval) : (printTime time).length ≤ 41 := by
  have digits (value : Int) : (printUnsigned (asUnsigned value)).length ≤ 20 :=
    length_printUnsigned (by decide) (Nat.lt_trans (asUnsigned_lt value) (by decide))
  have seconds := digits time.sec
  have micros := digits time.usec
  simp only [printTime, List.length_append, List.length_cons, length_printPadded]
  omega

/-- A text that starts otherwise announces no length. -/
theorem scanLength_other (other : ¬"Content-Length:".toList <+: label) (short : ¬label <+: "Content-Length:".toList)
    (value : Text) : scanLength (label ++ value) = none := by
  refine if_neg fun starts => ?_
  rcases List.prefix_or_prefix_of_prefix (starts.trans (cString_starts _)) (List.prefix_append label value) with
    inside | inside
  · exact other inside
  · exact short inside

/-- A label and a value that can be printed are a line of a header. -/
theorem headerLine_field (labelled : label ≠ []) (clean : Printable label) (printable : Printable value)
    (short : label.length + value.length < maxBuf - 2)
    (length : ∀ n, scanLength (label ++ value ++ "\r\n".toList) = some n → asInt n = some n) :
    HeaderLine (label ++ value ++ "\r\n".toList) := by
  refine ⟨⟨label ++ value ++ ['\r'], by simp, ?_, fun same => ?_, ?_⟩, length⟩
  · exact (clean.append printable).append (by decide)
  · have sizes := congrArg List.length same
    have some := List.length_pos_of_ne_nil labelled
    simp only [List.length_append, List.length_cons, List.length_nil] at sizes
    omega
  · simp only [List.length_append, List.length_cons, List.length_nil]
    unfold maxBuf at short ⊢
    omega

theorem field (labelled : label ≠ []) (other : ¬"Content-Length:".toList <+: label)
    (different : ¬label <+: "Content-Length:".toList) (clean : Printable label) (printable : Printable value)
    (short : label.length + value.length < maxBuf - 2) : Field (label ++ value ++ "\r\n".toList) := by
  have silent : scanLength (label ++ value ++ "\r\n".toList) = none := by
    rw [List.append_assoc]
    exact scanLength_other other different _
  refine ⟨headerLine_field labelled clean printable short fun n found => ?_, silent⟩
  rw [silent] at found
  exact absurd found (by simp)

/-- The line with the length announces it. -/
theorem scanLength_announces (n : Nat) :
    scanLength ("Content-Length: ".toList ++ printUnsigned n ++ "\r\n".toList) = some (n : Int) := by
  obtain ⟨some, digits⟩ := printUnsigned_numeral n
  obtain ⟨d, more, number⟩ := List.exists_cons_of_ne_nil some
  have first : d.isDigit = true := digits d (by simp [number])
  have proper : cString ("Content-Length: ".toList ++ printUnsigned n ++ "\r\n".toList) =
      "Content-Length: ".toList ++ printUnsigned n ++ "\r\n".toList := by
    refine cString_eq fun member => ?_
    have printable := (Printable.append (by decide : Printable "Content-Length: ".toList) (printable_printUnsigned n))
    rcases List.mem_append.mp member with inside | ends
    · exact (printable _ inside).2 rfl
    · exact absurd ends (by decide)
  have starts : "Content-Length:".toList <+: "Content-Length: ".toList ++ printUnsigned n ++ "\r\n".toList :=
    ⟨" ".toList ++ printUnsigned n ++ "\r\n".toList, rfl⟩
  have blank : (("Content-Length: ".toList ++ printUnsigned n ++ "\r\n".toList).drop
      "Content-Length:".toList.length).dropWhile isSpace = printUnsigned n ++ "\r\n".toList := by
    have tail : ("Content-Length: ".toList ++ printUnsigned n ++ "\r\n".toList).drop
        "Content-Length:".toList.length = ' ' :: (printUnsigned n ++ "\r\n".toList) := rfl
    rw [tail, List.dropWhile_cons_of_pos (by decide), number, List.cons_append,
      List.dropWhile_cons_of_neg (by simp [isSpace_digit first])]
  have unsigned : sign (printUnsigned n ++ "\r\n".toList) = (false, printUnsigned n ++ "\r\n".toList) := by
    rw [number, List.cons_append, sign_digit first]
  have taken : (printUnsigned n ++ "\r\n".toList).takeWhile Char.isDigit = printUnsigned n := by
    rw [List.takeWhile_append_of_pos digits]
    exact List.append_nil _
  simp only [scanLength, proper, if_pos starts, blank, unsigned, taken, if_neg some, Bool.false_eq_true, if_false,
    decimal_printUnsigned]

theorem headerLine_announces (small : n < 2 ^ 31) :
    HeaderLine ("Content-Length: ".toList ++ printUnsigned n ++ "\r\n".toList) := by
  have digits : (printUnsigned n).length ≤ 10 := length_printUnsigned (by decide) (by omega)
  have label : "Content-Length: ".toList.length = 16 := by decide +kernel
  refine headerLine_field (by decide) (by decide) (printable_printUnsigned n) (by unfold maxBuf; omega) fun i found => ?_
  rw [scanLength_announces, Option.some.injEq] at found
  exact found ▸ asInt_eq (by omega) (by omega)

/-- The lines about the thread are fields. -/
theorem statLines_fields (below : tstats.Below (2 ^ 31)) : ∀ line ∈ statLines tstats, Field line := by
  have time (label : Text) (labelled : label ≠ []) (other : ¬"Content-Length:".toList <+: label)
      (different : ¬label <+: "Content-Length:".toList) (clean : Printable label) (short : label.length < 100)
      (time : Timeval) : Field (label ++ printTime time ++ "\r\n".toList) :=
    field labelled other different clean (printable_printTime time) (by
      have := length_printTime time
      unfold maxBuf
      omega)
  have number (label : Text) (labelled : label ≠ []) (other : ¬"Content-Length:".toList <+: label)
      (different : ¬label <+: "Content-Length:".toList) (clean : Printable label) (short : label.length < 100)
      (i : Int) (inside : 0 ≤ i ∧ i < 2 ^ 31) : Field (label ++ printInt i ++ "\r\n".toList) :=
    field labelled other different clean (printable_printInt i) (by
      have := length_printInt (i := i) (by omega) inside.2
      unfold maxBuf
      omega)
  simp only [Stats.Below, List.forall_mem_cons] at below
  obtain ⟨ofId, ofRequests, ofStatic, ofDynamic, -⟩ := below
  simp only [statLines, List.forall_mem_cons]
  refine ⟨time _ (by decide) (by decide) (by decide) (by decide) (by decide) _,
    time _ (by decide) (by decide) (by decide) (by decide) (by decide) _,
    number _ (by decide) (by decide) (by decide) (by decide) (by decide) _ ofId,
    number _ (by decide) (by decide) (by decide) (by decide) (by decide) _ ofRequests,
    number _ (by decide) (by decide) (by decide) (by decide) (by decide) _ ofStatic,
    number _ (by decide) (by decide) (by decide) (by decide) (by decide) _ ofDynamic, List.forall_mem_nil _⟩

theorem status_field : Field "HTTP/1.0 200 OK\r\n".toList := by
  have line : Field ("HTTP/1.0 200 OK".toList ++ [] ++ "\r\n".toList) :=
    field (by decide) (by decide) (by decide) (by decide) (by decide) (by decide)
  exact line

theorem server_field : Field "Server: OS-HW3 Web Server\r\n".toList := by
  have line : Field ("Server: OS-HW3 Web Server".toList ++ [] ++ "\r\n".toList) :=
    field (by decide) (by decide) (by decide) (by decide) (by decide) (by decide)
  exact line

/-- The header of an error announces the length of its document. -/
theorem error_framed {cause errnum shortmsg longmsg : Text} (below : tstats.Below (2 ^ 31))
    (printable : Printable (errnum ++ " ".toList ++ shortmsg))
    (short : (errnum ++ " ".toList ++ shortmsg).length < 100)
    (fits : FitsIn maxBuf (errorBody cause errnum shortmsg longmsg))
    (plain : '\x00' ∉ errorBody cause errnum shortmsg longmsg) :
    Framed (requestError cause errnum shortmsg longmsg tstats).flatten
        (errorLines cause errnum shortmsg longmsg tstats) (errorBody cause errnum shortmsg longmsg) ∧
      (errorLines cause errnum shortmsg longmsg tstats).filterMap scanLength =
        [((errorBody cause errnum shortmsg longmsg).length : Int)] := by
  have stats := statLines_fields below
  have status : Field ("HTTP/1.0 ".toList ++ (errnum ++ " ".toList ++ shortmsg) ++ "\r\n".toList) :=
    field (by decide) (by decide) (by decide) (by decide) printable (by
      have label : "HTTP/1.0 ".toList.length = 9 := by decide +kernel
      unfold maxBuf
      omega)
  have type : Field "Content-Type: text/html\r\n".toList := by
    have line : Field ("Content-Type: ".toList ++ "text/html".toList ++ "\r\n".toList) :=
      field (by decide) (by decide) (by decide) (by decide) (by decide) (by decide)
    exact line
  have size : (errorBody cause errnum shortmsg longmsg).length < 2 ^ 31 := by
    unfold FitsIn maxBuf at fits
    omega
  refine ⟨⟨?_, List.cons_ne_nil _ _, ?_, plain⟩, ?_⟩
  · simp only [requestError, errorLines, List.flatten_cons, List.flatten_nil, List.append_assoc, List.append_nil]
  · simp only [errorLines, List.forall_mem_cons]
    exact ⟨status.1, type.1, headerLine_announces size, fun line member => (stats line member).1⟩
  · rw [errorLines, List.filterMap_cons_none status.2, List.filterMap_cons_none type.2,
      List.filterMap_cons_some (scanLength_announces _), List.filterMap_eq_nil_iff.mpr fun line member =>
        (stats line member).2]

/-- The header of a file announces how much of it is sent. -/
theorem static_framed (filename : Text) {contents : Text} {filesize : Int} (below : tstats.Below (2 ^ 31))
    (positive : 0 < filesize) (small : filesize < 2 ^ 31) (whole : filesize ≤ contents.length)
    (plain : '\x00' ∉ contents) :
    Framed (staticHeader filename filesize tstats ++ contents.take filesize.toNat)
        (staticLines filename filesize tstats) (contents.take filesize.toNat) ∧
      (staticLines filename filesize tstats).filterMap scanLength = [((contents.take filesize.toNat).length : Int)] := by
  have stats := statLines_fields below
  have type : Field ("Content-Type: ".toList ++ requestGetFiletype filename ++ "\r\n".toList) := by
    unfold requestGetFiletype
    split
    · exact field (by decide) (by decide) (by decide) (by decide) (by decide) (by decide)
    · split
      · exact field (by decide) (by decide) (by decide) (by decide) (by decide) (by decide)
      · split <;> exact field (by decide) (by decide) (by decide) (by decide) (by decide) (by decide)
  obtain ⟨size, rfl⟩ : ∃ size : Nat, filesize = size := ⟨filesize.toNat, by omega⟩
  have number : printInt size = printUnsigned size := by
    rw [printInt, if_neg (by omega), Int.natAbs_natCast]
  have length : (contents.take size).length = size := List.length_take_of_le (by omega)
  rw [Int.toNat_natCast, length]
  refine ⟨⟨?_, List.cons_ne_nil _ _, ?_, fun member => plain (List.mem_of_mem_take member)⟩, ?_⟩
  · unfold staticHeader staticLines
    simp only [List.flatten_cons, List.append_assoc]
  · simp only [staticLines, List.forall_mem_cons, number]
    exact ⟨status_field.1, server_field.1, headerLine_announces (by omega), type.1,
      fun line member => (stats line member).1⟩
  · rw [staticLines, number, List.filterMap_cons_none status_field.2, List.filterMap_cons_none server_field.2,
      List.filterMap_cons_some (scanLength_announces _), List.filterMap_cons_none type.2,
      List.filterMap_eq_nil_iff.mpr fun line member => (stats line member).2]

/-- Behind the lines of the server stand those of the program. -/
theorem dynamic_framed (below : tstats.Below (2 ^ 31)) (framed : Framed text lines body) :
    Framed (dynamicHeader tstats ++ text) (dynamicLines tstats ++ lines) body := by
  have stats := statLines_fields below
  refine ⟨?_, List.cons_ne_nil _ _, ?_, framed.plain⟩
  · rw [framed.whole]
    unfold dynamicHeader dynamicLines
    simp only [List.cons_append, List.flatten_cons, List.flatten_append, List.append_assoc]
  · unfold dynamicLines
    simp only [List.cons_append, List.forall_mem_cons, List.forall_mem_append]
    exact ⟨status_field.1, server_field.1, fun line member => (stats line member).1, framed.header⟩

/-- What `output.c` writes is a header and a document. -/
theorem output_framed {spun : Text} (printable : Printable spun) (short : spun.length < 100) :
    Framed (output spun)
      ["Content-length: ".toList ++ printUnsigned (outputContent spun).length ++ "\r\n".toList,
        "Content-type: text/html\r\n".toList] (outputContent spun) := by
  have size : (outputContent spun).length < 10 ^ 3 := by
    unfold outputContent
    simp only [List.length_append, String.reduceToList, List.length_cons, List.length_nil]
    omega
  have digits := length_printUnsigned (by decide) size
  have length : Field ("Content-length: ".toList ++ printUnsigned (outputContent spun).length ++ "\r\n".toList) :=
    field (by decide) (by decide) (by decide) (by decide) (printable_printUnsigned _) (by
      have label : "Content-length: ".toList.length = 16 := by decide +kernel
      unfold maxBuf
      omega)
  have type : Field "Content-type: text/html\r\n".toList := by
    have line : Field ("Content-type: ".toList ++ "text/html".toList ++ "\r\n".toList) :=
      field (by decide) (by decide) (by decide) (by decide) (by decide) (by decide)
    exact line
  refine ⟨?_, List.cons_ne_nil _ _, ?_, ?_⟩
  · have split : "Content-type: text/html\r\n\r\n".toList = "Content-type: text/html\r\n".toList ++ "\r\n".toList :=
      by decide +kernel
    unfold output
    rw [split]
    simp only [List.flatten_cons, List.flatten_nil, List.append_assoc, List.append_nil]
  · simp only [List.forall_mem_cons]
    exact ⟨length.1, type.1, List.forall_mem_nil _⟩
  · unfold outputContent
    simp only [List.mem_append, not_or]
    exact ⟨⟨⟨⟨by decide, by decide⟩, by decide⟩, fun member => (printable _ member).2 rfl⟩, by decide⟩

theorem errorBody_plain {cause errnum shortmsg longmsg : Text} (ofCause : '\x00' ∉ cause) (ofErrnum : '\x00' ∉ errnum)
    (ofShort : '\x00' ∉ shortmsg) (ofLong : '\x00' ∉ longmsg) :
    '\x00' ∉ errorBody cause errnum shortmsg longmsg := by
  unfold errorBody
  simp only [List.mem_append, not_or, ofCause, ofErrnum, ofShort, ofLong, not_false_eq_true, and_true]
  decide

/-- The name of the file has no characters but those of the URI and of the server. -/
theorem filename_plain {uri : Text} {parsed : Parsed} (parses : requestParseURI uri = some parsed)
    (proper : '\x00' ∉ uri) : '\x00' ∉ parsed.filename := by
  rcases requestParseURI_cases parses with ⟨_, rfl⟩ | ⟨_, _, _, rfl⟩ | ⟨_, _, _, rfl⟩ |
    ⟨_, _, path, _, rfl, inside, _⟩
  · have home : '\x00' ∉ "./public/home.html".toList := by decide
    exact home
  · exact fun member => (List.mem_append.mp member).elim (by decide) proper
  · simp only [List.mem_append, not_or]
    exact ⟨by decide, proper, by decide⟩
  · exact fun member => (List.mem_append.mp member).elim (by decide) fun ofPath => proper (inside.subset ofPath)

/-- Handling a request counts it. -/
theorem requestHandle_counts {stat : Text → Option Stat} {method uri : Text} {counters after : ThreadStats}
    {request : Option Parsed} (handles : requestHandle stat method uri counters = some (request, response, after)) :
    after.handledRequests = counters.handledRequests + 1 ∧
      (after.handledStatRequests = counters.handledStatRequests ∨
        after.handledStatRequests = counters.handledStatRequests + 1) ∧
      (after.handledDynRequests = counters.handledDynRequests ∨
        after.handledDynRequests = counters.handledDynRequests + 1) := by
  unfold requestHandle at handles
  cases get : isGet method with
  | false =>
    rw [get] at handles
    simp only [Bool.not_false, if_true, Option.some.injEq, Prod.mk.injEq] at handles
    simp [← handles.2.2]
  | true =>
    rw [get] at handles
    cases parses : requestParseURI uri with
    | none =>
      rw [parses] at handles
      exact absurd handles nofun
    | some parsed =>
      rw [parses] at handles
      simp only [Bool.not_true, Bool.false_eq_true, if_false, Option.bind_eq_bind, Option.bind_some] at handles
      split at handles
      · simp only [Option.some.injEq, Prod.mk.injEq] at handles
        simp [← handles.2.2]
      · split at handles
        · split at handles
          · simp only [Option.some.injEq, Prod.mk.injEq] at handles
            simp [← handles.2.2]
          · simp only [Option.some.injEq, Prod.mk.injEq] at handles
            simp [← handles.2.2]
        · split at handles
          · simp only [Option.some.injEq, Prod.mk.injEq] at handles
            simp [← handles.2.2]
          · simp only [Option.some.injEq, Prod.mk.injEq] at handles
            simp [← handles.2.2]

/-- An error about a file is a header and a document, whose length the header announces. -/
theorem refused_framed {uri method cause errnum shortmsg longmsg : Text} {counters after : ThreadStats}
    {parsed : Parsed} {texts : List Text} {behind : Text} (proper : host.Proper) (below : tstats.Below (2 ^ 31))
    (room : HasRoom uri) (get : isGet method = true) (parses : requestParseURI uri = some parsed)
    (handles : requestHandle host.stat method uri counters =
      some (some parsed, .error cause errnum shortmsg longmsg, after))
    (answers : answer host tstats (.error cause errnum shortmsg longmsg) = some (texts, .ok behind))
    (printable : Printable (errnum ++ " ".toList ++ shortmsg))
    (short : (errnum ++ " ".toList ++ shortmsg).length < 100)
    (plain : '\x00' ∉ errorBody cause errnum shortmsg longmsg) :
    ∃ lines body, Reply host tstats (.error cause errnum shortmsg longmsg) lines body ∧
      Framed (texts.flatten ++ behind) lines body ∧ lines.filterMap scanLength = [(body.length : Int)] := by
  have fits := errorBody_fits proper.names get handles ((hasRoom_iff parses).mp room)
  obtain ⟨framed, announces⟩ := error_framed below printable short fits plain
  simp only [answer, Option.some.injEq, Prod.mk.injEq, Except.ok.injEq] at answers
  obtain ⟨rfl, rfl⟩ := answers
  rw [List.append_nil]
  exact ⟨_, _, Reply.error cause errnum shortmsg longmsg, framed, announces⟩

/-- Whatever the answer to a request is, it is a header and a document. -/
theorem answer_framed {uri method : Text} {counters after : ThreadStats} {request : Option Parsed}
    {texts : List Text} {behind : Text} (proper : host.Proper) (below : tstats.Below (2 ^ 31)) (isWord : IsWord uri)
    (room : HasRoom uri) (get : isGet method = true)
    (handles : requestHandle host.stat method uri counters = some (request, response, after))
    (answers : answer host tstats response = some (texts, .ok behind)) :
    ∃ lines body, Reply host tstats response lines body ∧ Framed (texts.flatten ++ behind) lines body ∧
      ((∀ filename cgiargs, response ≠ .serveDynamic filename cgiargs) →
        lines.filterMap scanLength = [(body.length : Int)]) := by
  obtain ⟨parsed, parses, rfl, cases⟩ := requestHandle_cases get handles
  have named := filename_plain parses fun member => (isWord.2 _ member).2 rfl
  rcases cases with rfl | ⟨_, rfl⟩ | ⟨_, _, rfl⟩ | ⟨sbuf, found, _, rfl | rfl⟩
  · obtain ⟨lines, body, reply, framed, announces⟩ := refused_framed proper below room get parses handles answers
      (by decide) (by decide) (errorBody_plain named (by decide) (by decide) (by decide))
    exact ⟨lines, body, reply, framed, fun _ => announces⟩
  · obtain ⟨lines, body, reply, framed, announces⟩ := refused_framed proper below room get parses handles answers
      (by decide) (by decide) (errorBody_plain named (by decide) (by decide) (by decide))
    exact ⟨lines, body, reply, framed, fun _ => announces⟩
  · obtain ⟨lines, body, reply, framed, announces⟩ := refused_framed proper below room get parses handles answers
      (by decide) (by decide) (errorBody_plain named (by decide) (by decide) (by decide))
    exact ⟨lines, body, reply, framed, fun _ => announces⟩
  · obtain ⟨file, exists_, rfl⟩ := Option.map_eq_some_iff.mp found
    have size : (File.stat file).size = file.contents.length := rfl
    rw [size] at answers ⊢
    simp only [answer, requestServeStatic, exists_, Option.bind_eq_bind, Option.bind_some] at answers
    split at answers
    · exact absurd answers (by simp)
    · next serves =>
      simp only [Option.map_some, Option.some.injEq, Prod.mk.injEq, Except.ok.injEq] at answers
      obtain ⟨rfl, rfl⟩ := answers
      rw [not_or, Int.not_le] at serves
      obtain ⟨framed, announces⟩ := static_framed parsed.filename below serves.2
        (by unfold asInt32; omega) (by unfold asInt32; omega) (proper.files _ _ exists_)
      refine ⟨_, _, Reply.static exists_, ?_, fun _ => announces⟩
      simpa only [List.flatten_cons, List.flatten_nil, List.append_nil] using framed
  · simp only [answer, Option.some.injEq, Prod.mk.injEq, runProgram] at answers
    obtain ⟨rfl, runs⟩ := answers
    split at runs
    · split at runs
      · next output ran =>
        obtain rfl := Except.ok.inj runs
        obtain ⟨lines, body, framed⟩ := proper.programs _ _ _ ran
        refine ⟨_, body, Reply.dynamic ran framed, ?_, fun other => absurd rfl (other _ _)⟩
        rw [List.flatten_cons, List.flatten_nil, List.append_nil]
        exact dynamic_framed below framed
      · exact absurd runs (by simp)
    · exact absurd runs (by simp)

/-- The server reads the request line that the client sends. -/
theorem clientRequest_scans {filename hostname : Text} (asks : Answerable host filename hostname) :
    let line := piece '\n' (maxLine - 1) (clientRequest filename hostname)
    scanRequest line = some ("GET".toList, filename, "HTTP/1.1".toList) ∧
      HasEmptyLine ((clientRequest filename hostname).drop line.length) := by
  have whole : clientRequest filename hostname =
      ("GET".toList ++ ' ' :: (filename ++ ' ' :: "HTTP/1.1".toList)) ++ '\n' ::
        ("host: ".toList ++ hostname ++ "\n\r\n".toList) := by
    unfold clientRequest
    simp [String.reduceToList]
  have fits := asks.fits
  unfold FitsIn at fits
  rw [whole] at fits
  have clean : '\n' ∉ "GET".toList ++ ' ' :: (filename ++ ' ' :: "HTTP/1.1".toList) := by
    simp only [List.mem_append, List.mem_cons, not_or]
    refine ⟨by decide, by decide, fun member => ?_, by decide, by decide⟩
    exact absurd (asks.word.2 _ member).1 (by decide)
  have one : piece '\n' (maxLine - 1) (clientRequest filename hostname) =
      "GET".toList ++ ' ' :: (filename ++ ' ' :: "HTTP/1.1".toList) ++ ['\n'] := by
    rw [whole]
    refine piece_line clean ?_
    rw [List.length_append, List.length_cons] at fits
    omega
  intro line
  have same : line = "GET".toList ++ ' ' :: (filename ++ ' ' :: "HTTP/1.1".toList) ++ ['\n'] := one
  rw [same]
  constructor
  · have proper : '\x00' ∉ "GET".toList ++ ' ' :: (filename ++ ' ' :: "HTTP/1.1".toList) ++ ['\n'] := by
      simp only [List.mem_append, List.mem_cons, not_or]
      refine ⟨⟨by decide, by decide, fun member => ?_, by decide, by decide⟩, by decide, List.not_mem_nil⟩
      exact absurd rfl (asks.word.2 _ member).2
    have version : "HTTP/1.1".toList ++ ['\n'] = "HTTP/1.1".toList ++ '\n' :: [] := rfl
    have words : words isSpace ("GET".toList ++ ' ' :: (filename ++ ' ' :: "HTTP/1.1".toList) ++ ['\n']) =
        ["GET".toList, filename, "HTTP/1.1".toList] := by
      rw [List.append_assoc, List.cons_append, List.append_assoc, List.cons_append, version, words_append rfl,
        words_append rfl, words_append rfl, asks.word.words_eq,
        IsWord.words_eq (by decide +kernel : IsWord "GET".toList),
        IsWord.words_eq (by decide +kernel : IsWord "HTTP/1.1".toList), words_nil]
      rfl
    rw [scanRequest, cString_eq proper, words]
  · have behind : (clientRequest filename hostname).drop
        ("GET".toList ++ ' ' :: (filename ++ ' ' :: "HTTP/1.1".toList) ++ ['\n']).length =
        "host: ".toList ++ hostname ++ "\n\r\n".toList := by
      rw [whole, List.append_cons _ '\n' ("host: ".toList ++ hostname ++ "\n\r\n".toList), List.drop_left]
    rw [behind]
    refine ⟨"host: ".toList ++ hostname ++ ['\n'], [], [], ?_, Or.inr ⟨_, rfl⟩, List.not_mem_nil, Nat.dvd_zero _⟩
    rw [List.append_assoc _ ['\n']]
    rfl

/-- The counters stay in range when a request is handled. -/
theorem Stats.Below.handled {counters : ThreadStats} {method uri : Text} {request : Option Parsed}
    {stat : Text → Option Stat} (below : tstats.Below (2 ^ 31 - 1))
    (handles : requestHandle stat method uri tstats.toThreadStats = some (request, response, counters))
    (now : Timeval) : (tstats.handled counters now).Below (2 ^ 31) := by
  obtain ⟨all, static, dynamic⟩ := requestHandle_counts handles
  simp only [Stats.Below, Stats.handled, List.forall_mem_cons] at below ⊢
  obtain ⟨ofId, ofRequests, ofStatic, ofDynamic, -⟩ := below
  exact ⟨by omega, by omega, by omega, by omega, List.forall_mem_nil _⟩

theorem exchange_eq {wire : Wire} {served read : Nat} {filename hostname buf hdrs shown printed : Text}
    {sent replied : Sink} {after : Stats}
    (sends : clientSend ⟨[], wire.requestWritings, false⟩ filename hostname = some sent)
    (serves : handleConnection host served buf hdrs
      ⟨sent.written, wire.requestReadings, ⟨[], wire.replyWritings, false⟩⟩ tstats = .ok (replied, after))
    (prints : clientPrint read shown ⟨[], replied.written, wire.replyReadings⟩ = .ok printed) :
    exchange host wire served read filename hostname buf hdrs shown tstats = .ok (printed, after) := by
  unfold exchange
  simp only [sends, serves, prints]

/-- For every request that the server can answer, the client prints the header of the
reply and its document, however the calls of `write` and `read` cut the bytes. The
header of an error or a file announces the length of what is sent. -/
theorem exchange_prints (proper : host.Proper) {wire : Wire} (healthy : wire.Healthy) {filename hostname : Text}
    (asks : Answerable host filename hostname) (below : tstats.Below (2 ^ 31 - 1)) (buf hdrs shown : Text) :
    ∃ request response counters lines body,
      requestHandle host.stat "GET".toList filename tstats.toThreadStats = some (request, response, counters) ∧
      Reply host (tstats.handled counters host.now) response lines body ∧
      ((∀ filename cgiargs, response ≠ .serveDynamic filename cgiargs) →
        lines.filterMap scanLength = [(body.length : Int)]) ∧
      ∃ served read, exchange host wire served read filename hostname buf hdrs shown tstats =
        .ok (shownHeader lines ++ body, tstats.handled counters host.now) := by
  obtain ⟨sent, sends, arrived, _⟩ := writen_appends
    (show Sink.Writes ⟨[], wire.requestWritings, false⟩ from healthy.sends) (clientRequest filename hostname)
  obtain ⟨scans, ends⟩ := clientRequest_scans asks
  rw [List.nil_append] at arrived
  have more : clientRequest filename hostname ≠ [] := by
    unfold clientRequest
    simp
  let socket : Socket :=
    ⟨clientRequest filename hostname, wire.requestReadings, ⟨[], wire.replyWritings, false⟩⟩
  obtain ⟨rio, ready, final, whole⟩ := handleConnection_reads (show .failed ∉ socket.readings from healthy.arrives)
    more host buf hdrs tstats
  obtain ⟨served, skips⟩ : ∃ served, skipHeaders served hdrs rio = .ok () :=
    (skipHeaders_iff ready).mpr (Or.inl (final ▸ ends))
  have get : isGet "GET".toList = true := by decide +kernel
  have short : filename.length + 1 ≤ maxLine := by
    have fits := asks.fits
    unfold FitsIn clientRequest at fits
    simp only [List.length_append] at fits
    omega
  have answered : Answered host "GET".toList filename := (if_pos get).mpr ⟨asks.room, asks.served⟩
  have writes : socket.sink.Writes := healthy.replies
  obtain ⟨⟨replied, after⟩, responds⟩ := (respond_iff proper.names writes asks.word.1 short "GET".toList tstats).mpr answered
  obtain ⟨response, ⟨request, counters, handles, counted⟩, texts, behind, answers, written⟩ :=
    respond_replied writes responds
  simp only at counted answers written
  subst counted
  obtain ⟨lines, body, reply, framed, announces⟩ :=
    answer_framed proper (below.handled handles host.now) asks.word asks.room get handles answers
  refine ⟨request, response, counters, lines, body, handles, reply, announces, served,
    replied.written.length + 2, ?_⟩
  have serves : handleConnection host served buf hdrs socket tstats =
      .ok (replied, tstats.handled counters host.now) := by
    rw [whole, handleLine, scans]
    simp only [if_pos get, skips]
    exact responds
  have sentBack : texts.flatten ++ behind = replied.written := written.symm
  let reader : Rio := ⟨[], replied.written, wire.replyReadings⟩
  have prints := clientPrint_prints (sentBack ▸ framed) (show reader.Reads from healthy.returns)
    (show reader.stream = replied.written from rfl) shown (Nat.lt_succ_self _)
  exact exchange_eq sends (arrived.symm ▸ serves) prints

/-- A host with one page, on which every program is `output.cgi`. -/
def onePage : Host where
  files := fun name => if name = "./public/home.html".toList then some ⟨true, true, true, true, "hello\n".toList⟩ else none
  cgi := fun _ _ => some (output "0.10".toList)
  forks := true
  now := ⟨7, 0⟩

theorem onePage_proper : onePage.Proper where
  files := fun name file found => by
    obtain rfl := Option.some.inj (Option.ite_none_right_eq_some.mp found).2
    decide
  programs := fun _ _ _ ran => Option.some.inj ran ▸ ⟨_, _, output_framed (by decide) (by decide)⟩
  names := onlyPage_limited fun _ other => if_neg other

theorem onePage_answerable : Answerable onePage "home.html".toList "client".toList where
  word := by decide +kernel
  named := by decide +kernel
  fits := by decide +kernel
  room := by decide +kernel
  served := by
    rintro ⟨parsed, file, parses, found, _, ⟨_, _, ends⟩ | ⟨dynamic, _⟩⟩
    · obtain rfl := Option.some.inj (Option.ite_none_right_eq_some.mp found).2
      revert ends
      decide
    · have static : (requestParseURI "home.html".toList).map Parsed.isStatic = some 1 := by decide +kernel
      rw [parses, Option.map_some, Option.some.injEq, dynamic] at static
      exact absurd static (by decide)

/-- Short pieces and interruptions in both directions. -/
def choppy : Wire := ⟨[.upTo 2, .interrupted], [.upTo 7], [.interrupted, .upTo 9], [.upTo 0]⟩

def freshStats : Stats := ⟨⟨0, 0, 0⟩, 1, ⟨5, 0⟩, ⟨0, 0⟩⟩

/-- The page is asked for and sent in short pieces. -/
theorem exchange_prints_sample : ∃ request response counters lines body,
    requestHandle onePage.stat "GET".toList "home.html".toList freshStats.toThreadStats =
      some (request, response, counters) ∧
    Reply onePage (freshStats.handled counters onePage.now) response lines body ∧
    ((∀ filename cgiargs, response ≠ .serveDynamic filename cgiargs) →
      lines.filterMap scanLength = [(body.length : Int)]) ∧
    ∃ served read, exchange onePage choppy served read "home.html".toList "client".toList [] [] [] freshStats =
      .ok (shownHeader lines ++ body, freshStats.handled counters onePage.now) :=
  have healthy : choppy.Healthy := ⟨by decide, by decide, by decide, by decide⟩
  have below : freshStats.Below (2 ^ 31 - 1) := by decide
  exchange_prints onePage_proper healthy onePage_answerable below [] [] []

end OperatingSystems.WebServer
