import OperatingSystems.WebServer.Rio

/-!
# From the request line to a file

`requestHandle` reads the request line, `requestParseURI` makes a file name and
the arguments of a CGI program from the URI, and `requestError` puts the cause of
an error into the body of its answer. All the texts are written into buffers of
fixed size, by functions that do not know the size.

A text that `sprintf` writes onto the buffer it reads from is appended to it.
-/

namespace OperatingSystems.WebServer

open Texts Lines

/-- `MAXBUF`. -/
def maxBuf : Nat := 8192

/-- The reading of the request line by `sscanf` with `"%s %s %s"`, when it finds
all three words. -/
def scanRequest (buf : Text) : Option (Text × Text × Text) :=
  match words isSpace (cString buf) with
  | method :: uri :: version :: _ => some (method, uri, version)
  | _ => none

/-- What `requestParseURI` returns and leaves in its buffers; nothing for
`cgiargs` where it does not write there. -/
structure Parsed where
  isStatic : Int
  uri : Text
  filename : Text
  cgiargs : Option Text
deriving DecidableEq, Repr

/-- `requestParseURI`. There is no result for an empty URI without `cgi`, whose
last character would be the one before the buffer. The sizes of its buffers it does
not know; whether the texts fit is told by those that call it. -/
def requestParseURI (uri : Text) : Option Parsed :=
  if "..".toList <:+: uri then some ⟨1, uri, "./public/home.html".toList, none⟩
  else if ¬"cgi".toList <:+: uri then do
    let last ← uri.getLast?
    let filename := "./public/".toList ++ uri
    some ⟨1, uri, if last = '/' then filename ++ "home.html".toList else filename, some []⟩
  else
    match uri.idxOf? '?' with
    | some ptr => some ⟨0, uri.take ptr, "./public/".toList ++ uri.take ptr, some (uri.drop (ptr + 1))⟩
    | none => some ⟨0, uri, "./public/".toList ++ uri, some []⟩

/-- The body that `requestError` builds. -/
def errorBody (cause errnum shortmsg longmsg : Text) : Text :=
  let body := "<html><title>OS-HW3 Error</title>".toList
  let body := body ++ "<body bgcolor=fffff>\r\n".toList
  let body := body ++ errnum ++ ": ".toList ++ shortmsg ++ "\r\n".toList
  let body := body ++ "<p>".toList ++ longmsg ++ ": ".toList ++ cause ++ "\r\n".toList
  body ++ "<hr>OS-HW3 Web Server\r\n".toList

/-- What `requestHandle` reads of `struct stat`. -/
structure Stat where
  isRegular : Bool
  userReads : Bool
  userExecutes : Bool
  size : Nat
deriving DecidableEq, Repr

/-- The counters of `threadStats`. -/
structure ThreadStats where
  handledRequests : Int
  handledStatRequests : Int
  handledDynRequests : Int
deriving DecidableEq, Repr

/-- How `requestHandle` answers. -/
inductive Response where
  | error (cause errnum shortmsg longmsg : Text)
  | serveStatic (filename : Text) (filesize : Nat)
  | serveDynamic (filename : Text) (cgiargs : Option Text)
deriving DecidableEq, Repr

/-- `strcasecmp(method, "GET")` is zero. -/
def isGet (method : Text) : Bool := method.map Char.toLower == "get".toList

/-- `requestHandle` once the request line is scanned and the headers are skipped:
the URI it parsed, if it parsed one, and its answer. -/
def requestHandle (stat : Text → Option Stat) (method uri : Text) (tstats : ThreadStats) :
    Option (Option Parsed × Response × ThreadStats) :=
  let tstats := { tstats with handledRequests := tstats.handledRequests + 1 }
  if !isGet method then
    some (none, .error method "501".toList "Not Implemented".toList
      "OS-HW3 Server does not implement this method".toList, tstats)
  else do
    let parsed ← requestParseURI uri
    match stat parsed.filename with
    | none => some (parsed, .error parsed.filename "404".toList "Not found".toList
        "OS-HW3 Server could not find this file".toList, tstats)
    | some sbuf =>
      if parsed.isStatic ≠ 0 then
        if !sbuf.isRegular || !sbuf.userReads then
          some (parsed, .error parsed.filename "403".toList "Forbidden".toList
            "OS-HW3 Server could not read this file".toList, tstats)
        else
          some (parsed, .serveStatic parsed.filename sbuf.size,
            { tstats with handledStatRequests := tstats.handledStatRequests + 1 })
      else if !sbuf.isRegular || !sbuf.userExecutes then
        some (parsed, .error parsed.filename "403".toList "Forbidden".toList
          "OS-HW3 Server could not run this CGI program".toList, tstats)
      else
        some (parsed, .serveDynamic parsed.filename parsed.cgiargs,
          { tstats with handledDynRequests := tstats.handledDynRequests + 1 })

/-- A file name below the directory of the server that cannot leave it. -/
def Confined (filename : Text) : Prop :=
  "./public/".toList <+: filename ∧ ¬"..".toList <:+: filename ∧ "..".toList ∉ filename.splitOn '/'

variable {uri filename text method : Text} {parsed : Parsed} {stat : Text → Option Stat}
  {tstats after : ThreadStats} {request : Option Parsed} {response : Response}

/-- Two texts without two dots in a row have none where they meet, if the first one
ends with another character. -/
theorem no_dots_append {front back : Text} (cleanFront : ¬"..".toList <:+: front)
    (cleanBack : ¬"..".toList <:+: back) (last : front.getLast? ≠ some '.') :
    ¬"..".toList <:+: front ++ back := by
  have dots : "..".toList = ['.', '.'] := rfl
  rw [dots] at cleanFront cleanBack ⊢
  rw [pair_infix_append]
  rintro (inFront | inBack | ⟨ends, _⟩)
  · exact cleanFront inFront
  · exact cleanBack inBack
  · exact last ends

/-- Without two dots in a row no component of a path is `..`. -/
theorem no_dots_component (clean : ¬"..".toList <:+: filename) : "..".toList ∉ filename.splitOn '/' := by
  intro member
  rw [List.splitOn_eq_splitOnP] at member
  exact clean (infix_of_mem_splitOnP member)

/-- Behind the prefix a text without two dots in a row is confined. -/
theorem confined_prefixed (clean : ¬"..".toList <:+: text) :
    Confined ("./public/".toList ++ text) := by
  have whole : ¬"..".toList <:+: "./public/".toList ++ text :=
    no_dots_append (by decide +kernel) clean (by decide +kernel)
  exact ⟨List.prefix_append _ _, whole, no_dots_component whole⟩

/-- The page shown for a rejected URI is confined. -/
theorem confined_home : Confined "./public/home.html".toList := ⟨by decide +kernel, by decide +kernel, by decide +kernel⟩

/-- The suffix for a directory brings no two dots in a row. -/
theorem no_dots_home (clean : ¬"..".toList <:+: uri) (ends : uri.getLast? = some '/') :
    ¬"..".toList <:+: uri ++ "home.html".toList := by
  have home : ¬"..".toList <:+: "home.html".toList := by decide +kernel
  apply no_dots_append clean home
  rw [ends]
  simp

/-- A URI that is not empty is parsed. -/
theorem requestParseURI_parses (nonempty : uri ≠ []) : ∃ parsed, requestParseURI uri = some parsed := by
  unfold requestParseURI
  rw [List.getLast?_eq_some_getLast nonempty]
  by_cases dots : "..".toList <:+: uri
  · exact ⟨_, if_pos dots⟩
  · rw [if_neg dots]
    by_cases static : ¬"cgi".toList <:+: uri
    · exact ⟨_, if_pos static⟩
    · rw [if_neg static]
      cases uri.idxOf? '?' with
      | none => exact ⟨_, rfl⟩
      | some ptr => exact ⟨_, rfl⟩

/-- What `requestParseURI` can have done: reject the URI, name a file, name the page
of a directory, or name a program with or without a query. -/
theorem requestParseURI_cases (parses : requestParseURI uri = some parsed) :
    ("..".toList <:+: uri ∧ parsed = ⟨1, uri, "./public/home.html".toList, none⟩) ∨
    (¬"..".toList <:+: uri ∧ ¬"cgi".toList <:+: uri ∧ uri.getLast? ≠ some '/' ∧
      parsed = ⟨1, uri, "./public/".toList ++ uri, some []⟩) ∨
    (¬"..".toList <:+: uri ∧ ¬"cgi".toList <:+: uri ∧ uri.getLast? = some '/' ∧
      parsed = ⟨1, uri, "./public/".toList ++ (uri ++ "home.html".toList), some []⟩) ∨
    (¬"..".toList <:+: uri ∧ "cgi".toList <:+: uri ∧ ∃ path args, parsed =
      ⟨0, path, "./public/".toList ++ path, some args⟩ ∧ path <+: uri ∧
      path.length = uri.idxOf '?' ∧ args.length ≤ uri.length) := by
  unfold requestParseURI at parses
  by_cases dots : "..".toList <:+: uri
  · rw [if_pos dots] at parses
    exact Or.inl ⟨dots, (Option.some.inj parses).symm⟩
  · rw [if_neg dots] at parses
    by_cases static : "cgi".toList <:+: uri
    · rw [if_neg (not_not_intro static)] at parses
      right; right; right
      rw [List.idxOf_eq_getD_idxOf?]
      cases found : uri.idxOf? '?' with
      | none =>
        rw [found] at parses
        exact ⟨dots, static, uri, [], (Option.some.inj parses).symm, List.prefix_rfl, rfl, Nat.zero_le _⟩
      | some ptr =>
        rw [found] at parses
        obtain ⟨inside, -⟩ := List.idxOf?_eq_some_iff.mp found
        refine ⟨dots, static, _, _, (Option.some.inj parses).symm, List.take_prefix _ _, ?_, ?_⟩
        · exact List.length_take_of_le (Nat.le_of_lt inside)
        · rw [List.length_drop]
          omega
    · rw [if_pos static] at parses
      cases last : uri.getLast? with
      | none =>
        rw [last] at parses
        exact absurd parses nofun
      | some c =>
        rw [last] at parses
        have whole := (Option.some.inj parses).symm
        by_cases ends : c = '/'
        · right; right; left
          rw [if_pos ends, List.append_assoc] at whole
          exact ⟨dots, static, congrArg some ends, whole⟩
        · right; left
          rw [if_neg ends] at whole
          exact ⟨dots, static, fun same => ends (Option.some.inj same), whole⟩

/-- A file name that `requestParseURI` computes stays below `./public/`. -/
theorem Parsed.confined (parses : requestParseURI uri = some parsed) : Confined parsed.filename := by
  rcases requestParseURI_cases parses with ⟨_, rfl⟩ | ⟨dots, _, _, rfl⟩ | ⟨dots, _, ends, rfl⟩ |
    ⟨dots, _, path, _, rfl, front, _⟩
  · exact confined_home
  · exact confined_prefixed dots
  · exact confined_prefixed (no_dots_home dots ends)
  · exact confined_prefixed fun inside => dots (inside.trans front.isInfix)

/-- What `requestHandle` can answer to a `GET`: an error about the file name it
computed, or the file of that name. -/
theorem requestHandle_cases (get : isGet method = true)
    (handles : requestHandle stat method uri tstats = some (request, response, after)) :
    ∃ parsed, requestParseURI uri = some parsed ∧ request = some parsed ∧
      (response = .error parsed.filename "404".toList "Not found".toList
          "OS-HW3 Server could not find this file".toList ∨
        parsed.isStatic ≠ 0 ∧ response = .error parsed.filename "403".toList "Forbidden".toList
          "OS-HW3 Server could not read this file".toList ∨
        parsed.isStatic = 0 ∧ stat parsed.filename ≠ none ∧ response = .error parsed.filename "403".toList
          "Forbidden".toList "OS-HW3 Server could not run this CGI program".toList ∨
        ∃ sbuf, stat parsed.filename = some sbuf ∧ sbuf.isRegular = true ∧
          (response = .serveStatic parsed.filename sbuf.size ∨
            response = .serveDynamic parsed.filename parsed.cgiargs)) := by
  unfold requestHandle at handles
  rw [get] at handles
  cases parses : requestParseURI uri with
  | none =>
    rw [parses] at handles
    exact absurd handles nofun
  | some parsed =>
    rw [parses] at handles
    refine ⟨parsed, rfl, ?_⟩
    simp only [Bool.not_true, Bool.false_eq_true, if_false, Option.bind_eq_bind, Option.bind_some] at handles
    cases found : stat parsed.filename with
    | none =>
      simp only [found, Option.some.injEq, Prod.mk.injEq] at handles
      exact ⟨handles.1.symm, Or.inl handles.2.1.symm⟩
    | some sbuf =>
      simp only [found] at handles
      split at handles
      next isStatic =>
        split at handles
        next =>
          simp only [Option.some.injEq, Prod.mk.injEq] at handles
          exact ⟨handles.1.symm, Or.inr (Or.inl ⟨isStatic, handles.2.1.symm⟩)⟩
        next served =>
          simp only [Option.some.injEq, Prod.mk.injEq] at handles
          simp only [Bool.or_eq_true, Bool.not_eq_true', not_or, Bool.not_eq_false] at served
          exact ⟨handles.1.symm, Or.inr (Or.inr (Or.inr ⟨sbuf, rfl, served.1, Or.inl handles.2.1.symm⟩))⟩
      next isDynamic =>
        split at handles
        next =>
          simp only [Option.some.injEq, Prod.mk.injEq] at handles
          exact ⟨handles.1.symm, Or.inr (Or.inr (Or.inl ⟨not_not.mp isDynamic, by simp, handles.2.1.symm⟩))⟩
        next served =>
          simp only [Option.some.injEq, Prod.mk.injEq] at handles
          simp only [Bool.or_eq_true, Bool.not_eq_true', not_or, Bool.not_eq_false] at served
          exact ⟨handles.1.symm, Or.inr (Or.inr (Or.inr ⟨sbuf, rfl, served.1, Or.inr handles.2.1.symm⟩))⟩

/-- A file that `requestHandle` serves is confined, and it is a regular file. -/
theorem requestHandle_serves {filename : Text} (get : isGet method = true)
    (handles : requestHandle stat method uri tstats = some (request, response, after))
    (serves : (∃ size, response = .serveStatic filename size) ∨
      ∃ cgiargs, response = .serveDynamic filename cgiargs) :
    Confined filename ∧ ∃ sbuf, stat filename = some sbuf ∧ sbuf.isRegular = true := by
  obtain ⟨parsed, parses, -, rfl | ⟨-, rfl⟩ | ⟨-, -, rfl⟩ | ⟨sbuf, found, regular, rfl | rfl⟩⟩ :=
    requestHandle_cases get handles
  all_goals simp at serves
  all_goals
    subst serves
    exact ⟨Parsed.confined parses, sbuf, found, regular⟩

/-- Whatever the URI, the file name stays below `./public/`. -/
theorem requestParseURI_confined (nonempty : uri ≠ []) :
    ∃ parsed, requestParseURI uri = some parsed ∧ Confined parsed.filename := by
  obtain ⟨parsed, parses⟩ := requestParseURI_parses nonempty
  exact ⟨parsed, parses, Parsed.confined parses⟩

/-- A program in a directory, with dots in its query. -/
theorem requestParseURI_confined_sample :
    ∃ parsed, requestParseURI "cgi./run?a./.b/".toList = some parsed ∧ Confined parsed.filename :=
  requestParseURI_confined (by simp)

example : (requestParseURI "cgi./run?a./.b/".toList).map Parsed.filename =
    some "./public/cgi./run".toList := by decide +kernel

end OperatingSystems.WebServer
