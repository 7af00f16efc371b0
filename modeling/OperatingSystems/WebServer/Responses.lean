import OperatingSystems.WebServer.Headers
import OperatingSystems.WebServer.Buffers
import OperatingSystems.WebServer.Streams
import OperatingSystems.WebServer.Queue
import OperatingSystems.Printing

/-!
# What the server answers

`requestHandle` as a whole: it reads the request from the connection, looks at
the file, and writes its answer in a few calls of `Rio_writen`. The wrappers of
`segel.c` end the process when a call of the system fails, so that a request
that makes one fail ends the server. A text that does not fit into its buffer is
written all the same; what happens then is not defined. The numbers in a header are
values of `int`, so that the headers fit.
-/

namespace OperatingSystems.WebServer

open Texts Lines

/-- `threadStats`. -/
structure Stats extends ThreadStats where
  id : Int
  arrival : Timeval
  dispatch : Timeval
deriving DecidableEq, Repr

/-- `timersub`. -/
def timersub (a b : Timeval) : Timeval :=
  if a.usec - b.usec < 0 then ⟨a.sec - b.sec - 1, a.usec - b.usec + 1000000⟩
  else ⟨a.sec - b.sec, a.usec - b.usec⟩

/-- A time by `"%lu.%06lu"`. -/
def printTime (time : Timeval) : Text :=
  printUnsigned (asUnsigned time.sec) ++ '.' :: printPadded 6 (asUnsigned time.usec)

/-- The lines about the thread, which end every header. -/
def statLines (tstats : Stats) : List Text :=
  ["Stat-Req-Arrival:: ".toList ++ printTime tstats.arrival ++ "\r\n".toList,
   "Stat-Req-Dispatch:: ".toList ++ printTime tstats.dispatch ++ "\r\n".toList,
   "Stat-Thread-Id:: ".toList ++ printInt tstats.id ++ "\r\n".toList,
   "Stat-Thread-Count:: ".toList ++ printInt tstats.handledRequests ++ "\r\n".toList,
   "Stat-Thread-Static:: ".toList ++ printInt tstats.handledStatRequests ++ "\r\n".toList,
   "Stat-Thread-Dynamic:: ".toList ++ printInt tstats.handledDynRequests ++ "\r\n".toList]

/-- The texts that `requestError` writes one after the other, and prints. -/
def requestError (cause errnum shortmsg longmsg : Text) (tstats : Stats) : List Text :=
  let body := errorBody cause errnum shortmsg longmsg
  ["HTTP/1.0 ".toList ++ errnum ++ " ".toList ++ shortmsg ++ "\r\n".toList,
   "Content-Type: text/html\r\n".toList,
   "Content-Length: ".toList ++ printUnsigned body.length ++ "\r\n".toList ++
     ((statLines tstats).flatten ++ "\r\n".toList),
   body]

def requestGetFiletype (filename : Text) : Text :=
  if ".html".toList <:+: filename then "text/html".toList
  else if ".gif".toList <:+: filename then "image/gif".toList
  else if ".jpg".toList <:+: filename then "image/jpeg".toList
  else "text/plain".toList

/-- The header that `requestServeStatic` puts together. -/
def staticHeader (filename : Text) (filesize : Int) (tstats : Stats) : Text :=
  "HTTP/1.0 200 OK\r\n".toList ++ ("Server: OS-HW3 Web Server\r\n".toList ++
    ("Content-Length: ".toList ++ printInt filesize ++ "\r\n".toList ++
      ("Content-Type: ".toList ++ requestGetFiletype filename ++ "\r\n".toList ++
        ((statLines tstats).flatten ++ "\r\n".toList))))

/-- The header that `requestServeDynamic` puts together, without the empty line. -/
def dynamicHeader (tstats : Stats) : Text :=
  "HTTP/1.0 200 OK\r\n".toList ++ ("Server: OS-HW3 Web Server\r\n".toList ++ (statLines tstats).flatten)

/-- A file as the server finds it. `opens` says that it can be opened and mapped. -/
structure File where
  isRegular : Bool
  userReads : Bool
  userExecutes : Bool
  opens : Bool
  contents : Text
deriving DecidableEq, Repr

def File.stat (file : File) : Stat := ⟨file.isRegular, file.userReads, file.userExecutes, file.contents.length⟩

/-- What the server runs on: the files, the output of each program for its arguments if
it comes to an end, whether a process can be forked, and the time when the request was
read. -/
structure Host where
  files : Text → Option File
  cgi : Text → Text → Option Text
  forks : Bool
  now : Timeval

def Host.stat (host : Host) (filename : Text) : Option Stat := (host.files filename).map File.stat

/-- A size that is passed as an `int`. -/
def asInt32 (size : Nat) : Int := (size + 2 ^ 31) % 2 ^ 32 - 2 ^ 31

/-- `requestServeStatic`. A size that is not positive cannot be mapped. -/
def requestServeStatic (host : Host) (filename : Text) (size : Nat) (tstats : Stats) : Option (List Text) := do
  let file ← host.files filename
  let filesize := asInt32 size
  if file.opens = false ∨ filesize ≤ 0 then none
  else some [staticHeader filename filesize tstats, file.contents.take filesize.toNat]

/-- Why a connection is not handled to its end: the process has exited, it waits for a
program that does not end or the rounds allowed to a loop were too few, or a buffer was
overrun or read before anything was written to it. -/
inductive Ended where
  | exited
  | running
  | undefined
deriving DecidableEq, Repr

/-- What a program does for the server: it writes its output and ends. -/
def runProgram (host : Host) (filename cgiargs : Text) : Except Ended Text :=
  if host.forks then
    match host.cgi filename cgiargs with
    | some output => .ok output
    | none => .error .running
  else .error .exited

/-- The texts that an answer is written in, and what another process writes behind
them; none when there is nothing to write because the answer ends the server. -/
def answer (host : Host) (tstats : Stats) : Response → Option (List Text × Except Ended Text)
  | .error cause errnum shortmsg longmsg => some (requestError cause errnum shortmsg longmsg tstats, .ok [])
  | .serveStatic filename size => (requestServeStatic host filename size tstats).map fun texts => (texts, .ok [])
  | .serveDynamic filename cgiargs => some ([dynamicHeader tstats], runProgram host filename (cgiargs.getD []))

/-- One call of `Rio_writen` for each text. -/
def writeAll : List Text → Sink → Option Sink
  | [], sink => some sink
  | text :: texts, sink => do writeAll texts (← sink.writen text)

/-- A connection: what the other side sends, how it can be read, and what is written
to it. -/
structure Socket where
  sent : Text
  readings : List Reading
  sink : Sink
deriving DecidableEq, Repr

/-- `requestReadhdrs` on the way to an answer. -/
def skipHeaders (rounds : Nat) (buf : Text) (rio : Rio) : Except Ended Unit :=
  match requestReadhdrs rounds buf rio with
  | .ok _ => .ok ()
  | .error .exited => .error .exited
  | .error .running => .error .running

/-- The counters of the thread after a request was handled at this time. -/
def Stats.handled (tstats : Stats) (counters : ThreadStats) (now : Timeval) : Stats :=
  { counters with
    id := tstats.id
    arrival := tstats.arrival
    dispatch := timersub now tstats.arrival }

/-- `requestHandle` behind the headers: it looks at the file and writes its answer. -/
def respond (host : Host) (method uri : Text) (sink : Sink) (tstats : Stats) : Except Ended (Sink × Stats) :=
  match requestHandle host.stat method uri tstats.toThreadStats with
  | none => .error .undefined
  | some (request, response, counters) =>
    let tstats := tstats.handled counters host.now
    if Buffered request response then
      match answer host tstats response with
      | none => .error .exited
      | some (texts, behind) =>
        match writeAll texts sink with
        | none => .error .exited
        | some sink => do
          let output ← behind
          .ok ({ sink with written := sink.written ++ output }, tstats)
    else .error .undefined

/-- `requestHandle` behind the request line, which `buf` holds. Only a `GET` request
has its headers skipped. -/
def handleLine (host : Host) (rounds : Nat) (buf hdrs : Text) (rio : Rio) (sink : Sink) (tstats : Stats) :
    Except Ended (Sink × Stats) :=
  match scanRequest buf with
  | none => .error .undefined
  | some (method, uri, _) =>
    match if isGet method then skipHeaders rounds hdrs rio else .ok () with
    | .error why => .error why
    | .ok _ => respond host method uri sink tstats

/-- `requestHandle` from the first byte read to the last one written. The two buffers
for lines hold arbitrary bytes at first. -/
def handleConnection (host : Host) (rounds : Nat) (buf hdrs : Text) (socket : Socket) (tstats : Stats) :
    Except Ended (Sink × Stats) :=
  match rioReadlineb ⟨[], socket.sent, socket.readings⟩ buf maxLine with
  | none => .error .exited
  | some (_, buf, rio) => handleLine host rounds buf hdrs rio socket.sink tstats

/-- Skipping the headers ends: there is an empty line among them, or none is sent and
the buffer happens to hold one. -/
def HeadersEnd (hdrs text : Text) : Prop := HasEmptyLine text ∨ text = [] ∧ cString hdrs = "\r\n".toList

/-- Serving the file of this URI ends the process, or has no end: a file that cannot be
opened, is empty or too large for an `int`, or a program when no process can be forked, or
one that does not end. -/
def Unservable (host : Host) (uri : Text) : Prop :=
  ∃ parsed file, requestParseURI uri = some parsed ∧ host.files parsed.filename = some file ∧
    file.isRegular = true ∧
    (parsed.isStatic ≠ 0 ∧ file.userReads = true ∧ (file.opens = false ∨ asInt32 file.contents.length ≤ 0) ∨
      parsed.isStatic = 0 ∧ file.userExecutes = true ∧
        (host.forks = false ∨ host.cgi parsed.filename (parsed.cgiargs.getD []) = none))

/-- A request can be answered: its texts fit into the buffers, and if it asks to `GET` a
file, that can be served. -/
def Answered (host : Host) (method uri : Text) : Prop :=
  if isGet method then HasRoom uri ∧ ¬Unservable host uri else method.length ≤ 8040

/-- The server gets over this text: its first line can be scanned, the headers end if it
asks to `GET` a file, and it can be answered. -/
def Survives (host : Host) (hdrs sent : Text) : Prop :=
  let line := piece '\n' (maxLine - 1) sent
  ∃ method uri version, scanRequest line = some (method, uri, version) ∧
    (isGet method = true → HeadersEnd hdrs (sent.drop line.length)) ∧ Answered host method uri

variable {host : Host} {rio : Rio} {buf hdrs uri method text : Text} {sink : Sink} {tstats : Stats}
  {counters after : ThreadStats} {parsed : Parsed} {request : Option Parsed} {response : Response}
  {socket : Socket}

/-- Without a failed `read` the loop does not end the process. -/
theorem readhdrsLoop_stays (reads : rio.Reads) (rounds : Nat) : readhdrsLoop rounds buf rio ≠ .error .exited := by
  induction rounds generalizing buf rio with
  | zero => simp [readhdrsLoop]
  | succ rounds inductionHypothesis =>
    unfold readhdrsLoop
    split
    · simp
    · by_cases none : rio.stream = []
      · obtain ⟨next, healthy, read, _⟩ := rioReadlineb_end reads (show 1 < maxLine by decide) buf none
        rw [read]
        exact inductionHypothesis healthy
      · obtain ⟨_, next, -, healthy, read, _⟩ :=
          rioReadlineb_reads reads (show 1 < maxLine by decide) buf none
        rw [read]
        exact inductionHypothesis healthy

theorem requestReadhdrs_stays (reads : rio.Reads) (rounds : Nat) :
    requestReadhdrs rounds hdrs rio ≠ .error .exited := by
  unfold requestReadhdrs
  by_cases none : rio.stream = []
  · obtain ⟨next, healthy, read, _⟩ := rioReadlineb_end reads (show 1 < maxLine by decide) hdrs none
    rw [read]
    exact readhdrsLoop_stays healthy rounds
  · obtain ⟨_, next, -, healthy, read, _⟩ :=
      rioReadlineb_reads reads (show 1 < maxLine by decide) hdrs none
    rw [read]
    exact readhdrsLoop_stays healthy rounds

/-- Skipping the headers is done or goes on. -/
theorem skipHeaders_stays (reads : rio.Reads) (rounds : Nat) :
    skipHeaders rounds hdrs rio = .ok () ∨ skipHeaders rounds hdrs rio = .error .running := by
  unfold skipHeaders
  split
  · exact Or.inl rfl
  · next exits => exact absurd exits (requestReadhdrs_stays reads rounds)
  · exact Or.inr rfl

/-- Skipping the headers ends exactly when they end. -/
theorem skipHeaders_iff (reads : rio.Reads) :
    (∃ rounds, skipHeaders rounds hdrs rio = .ok ()) ↔ HeadersEnd hdrs rio.stream := by
  have stays : ∀ rounds, requestReadhdrs rounds hdrs rio ≠ .error .exited := requestReadhdrs_stays reads
  have ends : (∃ rounds, skipHeaders rounds hdrs rio = .ok ()) ↔ Terminates (requestReadhdrs · hdrs rio) := by
    refine exists_congr fun rounds => ?_
    unfold skipHeaders
    cases result : requestReadhdrs rounds hdrs rio with
    | ok rest => simp [result]
    | error why =>
      cases why with
      | exited => exact absurd result (stays rounds)
      | running => simp [result]
  rw [ends, HeadersEnd]
  by_cases none : rio.stream = []
  · obtain ⟨next, healthy, read, still⟩ := rioReadlineb_end reads (show 1 < maxLine by decide) hdrs none
    rw [or_iff_right (none ▸ not_hasEmptyLine_nil), and_iff_right none]
    simp only [requestReadhdrs, read]
    by_cases held : cString hdrs = "\r\n".toList
    · exact iff_of_true (terminates_held held) held
    · exact iff_of_false (·.elim fun rounds more => more (readhdrsLoop_stuck healthy still held rounds)) held
  · rw [or_iff_left fun ended => none ended.1]
    exact requestReadhdrs_piece reads none fun _ _ healthy _ other => readhdrsLoop_iff healthy other

/-- The texts are appended one after the other. -/
theorem writeAll_appends (texts : List Text) (writes : sink.Writes) :
    ∃ after, writeAll texts sink = some after ∧ after.written = sink.written ++ texts.flatten := by
  induction texts generalizing sink with
  | nil => exact ⟨sink, rfl, by simp⟩
  | cons text texts inductionHypothesis =>
    obtain ⟨next, wrote, appended, healthy⟩ := writen_appends writes text
    obtain ⟨after, rest, whole⟩ := inductionHypothesis healthy
    refine ⟨after, ?_, ?_⟩
    · rw [writeAll, wrote]
      exact rest
    · rw [whole, appended, List.flatten_cons, List.append_assoc]

/-- An answer is written to its end unless serving the file has none. -/
theorem answer_iff (parses : requestParseURI uri = some parsed) (get : isGet method = true)
    (handles : requestHandle host.stat method uri counters = some (request, response, after)) (tstats : Stats) :
    (∃ texts output, answer host tstats response = some (texts, .ok output)) ↔ ¬Unservable host uri := by
  have only : Unservable host uri ↔ ∃ file, host.files parsed.filename = some file ∧ file.isRegular = true ∧
      (parsed.isStatic ≠ 0 ∧ file.userReads = true ∧ (file.opens = false ∨ asInt32 file.contents.length ≤ 0) ∨
        parsed.isStatic = 0 ∧ file.userExecutes = true ∧
          (host.forks = false ∨ host.cgi parsed.filename (parsed.cgiargs.getD []) = none)) := by
    simp [Unservable, parses]
  rw [only]
  unfold requestHandle at handles
  simp only [get, Bool.not_true, Bool.false_eq_true, if_false, parses, Option.bind_eq_bind, Option.bind_some,
    Host.stat] at handles
  cases found : host.files parsed.filename with
  | none =>
    simp only [found, Option.map_none, Option.some.injEq, Prod.mk.injEq] at handles
    simp [← handles.2.1, answer]
  | some file =>
    simp only [found, Option.map_some, File.stat] at handles
    simp only [Option.some.injEq, exists_eq_left']
    split at handles
    next isStatic =>
      split at handles
      next refused =>
        simp only [Option.some.injEq, Prod.mk.injEq] at handles
        simp only [Bool.or_eq_true, Bool.not_eq_true'] at refused
        rw [← handles.2.1]
        rcases refused with other | unread
        · simp [answer, other]
        · simp [answer, unread, isStatic]
      next served =>
        simp only [Option.some.injEq, Prod.mk.injEq] at handles
        simp only [Bool.or_eq_true, Bool.not_eq_true', not_or, Bool.not_eq_false] at served
        rw [← handles.2.1]
        by_cases opens : file.opens = true
        · by_cases size : asInt32 file.contents.length ≤ 0
          · simp [answer, requestServeStatic, found, served, isStatic, opens, size]
          · simp [answer, requestServeStatic, found, served, isStatic, opens, size]
        · simp [answer, requestServeStatic, found, served, isStatic, opens]
    next isDynamic =>
      split at handles
      next refused =>
        simp only [Option.some.injEq, Prod.mk.injEq] at handles
        simp only [Bool.or_eq_true, Bool.not_eq_true'] at refused
        rw [← handles.2.1]
        rcases refused with other | idle
        · simp [answer, other]
        · simp [answer, idle, not_not.mp isDynamic]
      next served =>
        simp only [Option.some.injEq, Prod.mk.injEq] at handles
        simp only [Bool.or_eq_true, Bool.not_eq_true', not_or, Bool.not_eq_false] at served
        rw [← handles.2.1]
        cases forks : host.forks with
        | false => simp [answer, runProgram, forks, served, not_not.mp isDynamic]
        | true =>
          cases ran : host.cgi parsed.filename (parsed.cgiargs.getD []) with
          | none => simp [answer, runProgram, forks, ran, served, not_not.mp isDynamic]
          | some output => simp [answer, runProgram, forks, ran, not_not.mp isDynamic]

/-- A text that has begun is handled by its first line, and the headers are what
follows it. -/
theorem handleConnection_reads (reads : .failed ∉ socket.readings) (more : socket.sent ≠ []) (host : Host)
    (buf hdrs : Text) (tstats : Stats) : ∃ rio : Rio, rio.Reads ∧
      rio.stream = socket.sent.drop (piece '\n' (maxLine - 1) socket.sent).length ∧
      ∀ rounds, handleConnection host rounds buf hdrs socket tstats =
        handleLine host rounds (piece '\n' (maxLine - 1) socket.sent) hdrs rio socket.sink tstats := by
  obtain ⟨_, rio, -, healthy, read, final⟩ := rioReadlineb_reads
    (show Rio.Reads ⟨[], socket.sent, socket.readings⟩ from reads) (show 1 < maxLine by decide) buf
    (by simpa [Rio.stream] using more)
  simp only [Rio.stream, List.nil_append] at read final
  refine ⟨rio, healthy, final, fun rounds => ?_⟩
  simp only [handleConnection, read, handleLine, scanRequest, cString_terminated]

/-- What was written for a request, and what the thread has counted. -/
structure Replied (host : Host) (method uri : Text) (sink : Sink) (tstats : Stats) (out : Sink × Stats)
    (response : Response) : Prop where
  handles : ∃ request counters, requestHandle host.stat method uri tstats.toThreadStats =
    some (request, response, counters) ∧ out.2 = tstats.handled counters host.now
  written : ∃ texts output, answer host out.2 response = some (texts, .ok output) ∧
    out.1.written = sink.written ++ (texts.flatten ++ output)

/-- A response for which there is room is written whole if it has an end. -/
theorem respond_cases (writes : sink.Writes)
    (handles : requestHandle host.stat method uri tstats.toThreadStats = some (request, response, counters)) :
    (∃ out, respond host method uri sink tstats = .ok out) ↔ Buffered request response ∧
      ∃ texts output, answer host (tstats.handled counters host.now) response = some (texts, .ok output) := by
  unfold respond
  simp only [handles]
  by_cases fits : Buffered request response
  · rw [if_pos fits, and_iff_right fits]
    cases answers : answer host (tstats.handled counters host.now) response with
    | none => simp
    | some found =>
      obtain ⟨texts, behind⟩ := found
      obtain ⟨after, wrote, -⟩ := writeAll_appends texts writes
      simp only [wrote, Option.some.injEq, Prod.mk.injEq]
      cases behind with
      | error why => simp [Bind.bind, Except.bind]
      | ok output => simp [Bind.bind, Except.bind]
  · rw [if_neg fits]
    simp [fits]

/-- What `respond` has written when it is done is the answer. -/
theorem respond_replied (writes : sink.Writes) {out : Sink × Stats}
    (run : respond host method uri sink tstats = .ok out) :
    ∃ response, Replied host method uri sink tstats out response := by
  unfold respond at run
  split at run
  · exact absurd run (by simp)
  · next request response counters handles =>
    simp only at run
    split at run
    · split at run
      · exact absurd run (by simp)
      · next texts behind answers =>
        obtain ⟨after, wrote, whole⟩ := writeAll_appends texts writes
        rw [wrote] at run
        cases behind with
        | error why => exact absurd run nofun
        | ok output =>
          obtain rfl := Except.ok.inj run
          refine ⟨response, ⟨request, counters, handles, rfl⟩, texts, output, answers, ?_⟩
          simp only [whole, List.append_assoc]
    · exact absurd run (by simp)

/-- A `GET` of a URI that is not empty comes to an answer. -/
theorem requestHandle_answers (get : isGet method = true) (parses : requestParseURI uri = some parsed)
    (stat : Text → Option Stat) (tstats : ThreadStats) :
    ∃ response after, requestHandle stat method uri tstats = some (some parsed, response, after) := by
  unfold requestHandle
  simp only [get, Bool.not_true, Bool.false_eq_true, if_false, parses, Option.bind_eq_bind, Option.bind_some]
  split
  · exact ⟨_, _, rfl⟩
  · split
    · split <;> exact ⟨_, _, rfl⟩
    · split <;> exact ⟨_, _, rfl⟩

/-- A request that was scanned is answered exactly when it can be. -/
theorem respond_iff (limited : NamesLimited host.stat) (writes : sink.Writes) (named : uri ≠ [])
    (short : uri.length + 1 ≤ maxLine) (method : Text) (tstats : Stats) :
    (∃ out, respond host method uri sink tstats = .ok out) ↔ Answered host method uri := by
  obtain ⟨parsed, parses⟩ := requestParseURI_parses named
  unfold Answered
  by_cases get : isGet method = true
  · obtain ⟨response, counters, handles⟩ := requestHandle_answers get parses host.stat tstats.toThreadStats
    rw [if_pos get, respond_cases writes handles, buffered_iff limited get parses short handles,
      answer_iff parses get handles]
  · have handles : requestHandle host.stat method uri tstats.toThreadStats =
        some (none, .error method "501".toList "Not Implemented".toList
          "OS-HW3 Server does not implement this method".toList, _) := if_pos (by simp [get])
    rw [if_neg get, respond_cases writes handles, buffered_other_iff]
    exact and_iff_left ⟨_, _, rfl⟩

/-- The URI of a line that was read into the buffer is shorter than the buffer. -/
theorem scanned_short {version : Text}
    (scans : scanRequest (piece '\n' (maxLine - 1) text) = some (method, uri, version)) :
    uri ≠ [] ∧ uri.length + 1 ≤ maxLine := by
  obtain ⟨named, inside⟩ := scanned_uri scans
  have fits := length_piece_le '\n' (maxLine - 1) text
  have size : maxLine - 1 + 1 = maxLine := rfl
  exact ⟨named, by omega⟩

/-- A connection on which no call fails is handled to its end exactly when the server gets
over the text that is sent. -/
theorem handleConnection_returns_iff (limited : NamesLimited host.stat) (reads : .failed ∉ socket.readings)
    (writes : socket.sink.Writes) (more : socket.sent ≠ []) (buf hdrs : Text) (tstats : Stats) :
    (∃ rounds out, handleConnection host rounds buf hdrs socket tstats = .ok out) ↔
      Survives host hdrs socket.sent := by
  obtain ⟨rio, healthy, final, whole⟩ := handleConnection_reads reads more host buf hdrs tstats
  simp only [whole, Survives]
  rw [← final]
  cases scans : scanRequest (piece '\n' (maxLine - 1) socket.sent) with
  | none => simp [handleLine, scans]
  | some found =>
    obtain ⟨method, uri, version⟩ := found
    obtain ⟨named, short⟩ := scanned_short scans
    have replies := respond_iff limited writes named short method tstats
    simp only [handleLine, scans, Option.some.injEq, Prod.mk.injEq]
    constructor
    · rintro ⟨rounds, out, handled⟩
      by_cases get : isGet method = true
      · rw [if_pos get] at handled
        cases skips : skipHeaders rounds hdrs rio with
        | error why => simp [skips] at handled
        | ok _ =>
          simp only [skips] at handled
          exact ⟨method, uri, version, ⟨rfl, rfl, rfl⟩, fun _ => (skipHeaders_iff healthy).mp ⟨rounds, skips⟩,
            replies.mp ⟨out, handled⟩⟩
      · rw [if_neg get] at handled
        exact ⟨method, uri, version, ⟨rfl, rfl, rfl⟩, fun asks => absurd asks get, replies.mp ⟨out, handled⟩⟩
    · rintro ⟨_, _, _, ⟨rfl, rfl, rfl⟩, ends, answered⟩
      obtain ⟨out, responds⟩ := replies.mpr answered
      by_cases get : isGet method = true
      · obtain ⟨rounds, skips⟩ := (skipHeaders_iff healthy).mpr (ends get)
        exact ⟨rounds, out, by rw [if_pos get, skips]; exact responds⟩
      · exact ⟨0, out, by rw [if_neg get]; exact responds⟩

/-- Such a connection is handled to its end, or the headers are still being skipped. -/
theorem handleConnection_stays (limited : NamesLimited host.stat) (reads : .failed ∉ socket.readings)
    (writes : socket.sink.Writes) (more : socket.sent ≠ []) {buf hdrs : Text}
    (survives : Survives host hdrs socket.sent) (rounds : Nat) (tstats : Stats) :
    (∃ out, handleConnection host rounds buf hdrs socket tstats = .ok out) ∨
      handleConnection host rounds buf hdrs socket tstats = .error .running := by
  obtain ⟨rio, healthy, -, whole⟩ := handleConnection_reads reads more host buf hdrs tstats
  obtain ⟨method, uri, version, scans, -, answered⟩ := survives
  obtain ⟨named, short⟩ := scanned_short scans
  have responds := (respond_iff limited writes named short method tstats).mpr answered
  simp only [whole, handleLine, scans]
  by_cases get : isGet method = true
  · rw [if_pos get]
    rcases skipHeaders_stays healthy rounds with skips | goesOn
    · rw [skips]
      exact Or.inl responds
    · rw [goesOn]
      exact Or.inr rfl
  · rw [if_neg get]
    exact Or.inl responds

/-- A host with one page, which is empty. -/
def emptyPage : Host where
  files := fun name => if name = "./public/home.html".toList then some ⟨true, true, true, true, []⟩ else none
  cgi := fun _ _ => some []
  forks := true
  now := ⟨7, 0⟩

/-- A host with one page has no files with long names. -/
theorem onlyPage_limited (only : ∀ name, name ≠ "./public/home.html".toList → host.files name = none) :
    NamesLimited host.stat := by
  intro name long
  have other : name ≠ "./public/home.html".toList := by
    rintro rfl
    exact absurd long (by decide +kernel)
  exact congrArg (Option.map File.stat) (only name other)

/-- A request for an empty file, sent in two parts, is none that the server gets over. -/
theorem handleConnection_returns_iff_sample :
    (∃ rounds out, handleConnection emptyPage rounds [] []
        ⟨"GET home.html HTTP/1.0\r\n\r\n".toList, [.upTo 3, .interrupted], ⟨[], [.upTo 100], false⟩⟩
        ⟨⟨0, 0, 0⟩, 1, ⟨5, 0⟩, ⟨0, 0⟩⟩ = .ok out) ↔
      Survives emptyPage [] "GET home.html HTTP/1.0\r\n\r\n".toList :=
  handleConnection_returns_iff (onlyPage_limited fun _ other => if_neg other) (by decide) (by decide) (by decide) [] [] ⟨⟨0, 0, 0⟩, 1, ⟨5, 0⟩, ⟨0, 0⟩⟩

end OperatingSystems.WebServer
