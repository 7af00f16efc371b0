import OperatingSystems.WebServer.Request

/-!
# The sizes of the request buffers

The buffers of `requestHandle` and `requestError` are as long as the longest
request line, and each of them takes the URI together with a text of its own.
The body of an error is the longest of the texts, so it decides which requests
fit. A name that is too long for `stat` is not found, so that the error of a long
name is that of a missing file.
-/

namespace OperatingSystems.WebServer

open Texts Lines

/-- A text fits into a buffer of this size with its terminator. -/
def FitsIn (size : Nat) (text : Text) : Prop := text.length + 1 ≤ size

instance (size : Nat) (text : Text) : Decidable (FitsIn size text) :=
  inferInstanceAs (Decidable (_ ≤ _))

/-- `PATH_MAX`. -/
def pathMax : Nat := 4096

/-- `stat` fails with `ENAMETOOLONG` on a name that does not fit into `PATH_MAX` with its
terminator. -/
def NamesLimited (stat : Text → Option Stat) : Prop := ∀ name, pathMax ≤ name.length → stat name = none

/-- The texts that handling a request makes of its URI fit: the file name, the arguments,
and the body of an error about the file. -/
def RequestFits (stat : Text → Option Stat) (method uri : Text) : Prop :=
  ∀ tstats parsed response after,
    requestHandle stat method uri tstats = some (some parsed, response, after) →
    FitsIn maxLine parsed.filename ∧ (∀ args ∈ parsed.cgiargs, FitsIn maxLine args) ∧
    ∀ cause errnum shortmsg longmsg, response = .error cause errnum shortmsg longmsg →
      FitsIn maxBuf (errorBody cause errnum shortmsg longmsg)

/-- The URI is rejected, or short enough: a static one with the name of the page
that a final slash adds, a dynamic one up to its query. -/
def HasRoom (uri : Text) : Prop :=
  "..".toList <:+: uri ∨
    ¬"cgi".toList <:+: uri ∧ uri.length + (if uri.getLast? = some '/' then 9 else 0) ≤ 8043 ∨
    "cgi".toList <:+: uri ∧ uri.idxOf '?' ≤ 8043

instance (uri : Text) : Decidable (HasRoom uri) := inferInstanceAs (Decidable (_ ∨ _))

variable {uri method text : Text} {parsed : Parsed} {stat : Text → Option Stat}

theorem errorBody_length (cause errnum shortmsg longmsg : Text) :
    (errorBody cause errnum shortmsg longmsg).length =
      cause.length + errnum.length + shortmsg.length + longmsg.length + 89 := by
  unfold errorBody
  simp only [List.length_append, String.reduceToList, List.length_cons, List.length_nil]
  omega

/-- The length of the body of the error about a file that is missing. -/
def longestBody (parsed : Parsed) : Nat := parsed.filename.length + 139

/-- The prefix of every file name. -/
theorem prefix_length (text : Text) : ("./public/".toList ++ text).length = text.length + 9 := by
  simp only [List.length_append, String.reduceToList, List.length_cons, List.length_nil]
  omega

/-- A request has room when its longest error body fits. -/
theorem hasRoom_iff (parses : requestParseURI uri = some parsed) :
    HasRoom uri ↔ longestBody parsed + 1 ≤ maxBuf := by
  unfold HasRoom maxBuf longestBody
  rcases requestParseURI_cases parses with ⟨dots, rfl⟩ | ⟨dots, static, ends, rfl⟩ |
    ⟨dots, static, ends, rfl⟩ | ⟨dots, dynamic, path, _, rfl, _, length, _⟩
  · have home : "./public/home.html".toList.length = 18 := by decide +kernel
    simp only [home]
    exact iff_of_true (Or.inl dots) (by decide)
  · simp only [prefix_length, dots, static, ends, not_false_eq_true, true_and, false_and, or_false, false_or, if_false]
    omega
  · have suffix : "home.html".toList.length = 9 := by decide +kernel
    simp only [prefix_length]
    simp only [List.length_append, suffix, dots, static, ends, not_false_eq_true, true_and, false_and, or_false, false_or, if_true]
    omega
  · simp only [prefix_length, length, dots, dynamic, not_true_eq_false, true_and, false_and, false_or]
    omega

/-- Every error about the file of a request has a body that fits if that about a missing
file does: the text about a program that cannot be run is longer, but then the name is
short. -/
theorem errorBody_fits (limited : NamesLimited stat) (get : isGet method = true)
    {tstats after : ThreadStats} {cause errnum shortmsg longmsg : Text}
    (handles : requestHandle stat method uri tstats =
      some (some parsed, .error cause errnum shortmsg longmsg, after))
    (fits : longestBody parsed + 1 ≤ maxBuf) : FitsIn maxBuf (errorBody cause errnum shortmsg longmsg) := by
  obtain ⟨_, _, same, answer⟩ := requestHandle_cases get handles
  obtain rfl := Option.some.inj same
  unfold FitsIn
  unfold longestBody at fits
  rw [errorBody_length]
  rcases answer with missing | ⟨_, refused⟩ | ⟨_, found, refused⟩ | ⟨_, _, _, served | served⟩
  · obtain ⟨rfl, rfl, rfl, rfl⟩ := Response.error.inj missing
    simp only [String.reduceToList, List.length_cons, List.length_nil]
    omega
  · obtain ⟨rfl, rfl, rfl, rfl⟩ := Response.error.inj refused
    simp only [String.reduceToList, List.length_cons, List.length_nil]
    omega
  · obtain ⟨rfl, rfl, rfl, rfl⟩ := Response.error.inj refused
    have short : parsed.filename.length < pathMax := by
      by_contra long
      exact found (limited _ (Nat.not_lt.mp long))
    simp only [String.reduceToList, List.length_cons, List.length_nil]
    unfold pathMax at short
    unfold maxBuf
    omega
  · exact absurd served nofun
  · exact absurd served nofun

/-- If there is no file of that name, the answer has the longest body. -/
theorem missing_handles (get : isGet method = true) (parses : requestParseURI uri = some parsed)
    (missing : stat parsed.filename = none) : ∃ cause errnum shortmsg longmsg,
      requestHandle stat method uri ⟨0, 0, 0⟩ =
        some (some parsed, .error cause errnum shortmsg longmsg, ⟨1, 0, 0⟩) ∧
      (errorBody cause errnum shortmsg longmsg).length = longestBody parsed := by
  refine ⟨parsed.filename, "404".toList, "Not found".toList, "OS-HW3 Server could not find this file".toList, ?_, ?_⟩
  · simp [requestHandle, get, parses, missing]
  · rw [errorBody_length, longestBody]
    simp only [String.reduceToList, List.length_cons, List.length_nil]

/-- The file name and the arguments fit whenever the longest error body does. -/
theorem names_fit (parses : requestParseURI uri = some parsed) (short : uri.length + 1 ≤ maxLine)
    (fits : longestBody parsed + 1 ≤ maxBuf) :
    FitsIn maxLine parsed.filename ∧ ∀ args ∈ parsed.cgiargs, FitsIn maxLine args := by
  have shorter : parsed.filename.length ≤ longestBody parsed := Nat.le_add_right _ _
  refine ⟨Nat.le_trans (Nat.succ_le_succ shorter) fits, fun args given => ?_⟩
  have empty : FitsIn maxLine [] := by decide
  rcases requestParseURI_cases parses with ⟨_, rfl⟩ | ⟨_, _, _, rfl⟩ | ⟨_, _, _, rfl⟩ |
    ⟨_, _, _, query, rfl, _, _, length⟩
  · exact absurd given (by simp)
  · obtain rfl : [] = args := Option.some.inj given
    exact empty
  · obtain rfl : [] = args := Option.some.inj given
    exact empty
  · obtain rfl : query = args := Option.some.inj given
    exact Nat.le_trans (Nat.succ_le_succ length) short

/-- The texts of a request fit when its longest error body fits. -/
theorem requestFits_iff (limited : NamesLimited stat) (get : isGet method = true)
    (parses : requestParseURI uri = some parsed) (short : uri.length + 1 ≤ maxLine) :
    RequestFits stat method uri ↔ longestBody parsed + 1 ≤ maxBuf := by
  constructor
  · intro fits
    by_cases long : pathMax ≤ parsed.filename.length
    · obtain ⟨_, _, _, _, handles, longest⟩ := missing_handles get parses (limited _ long)
      exact longest ▸ (fits _ _ _ _ handles).2.2 _ _ _ _ rfl
    · unfold longestBody maxBuf
      unfold pathMax at long
      omega
  · intro fits tstats request response after handles
    obtain ⟨_, parses', same, _⟩ := requestHandle_cases get handles
    obtain rfl := Option.some.inj same
    obtain rfl := Option.some.inj (parses.symm.trans parses')
    obtain ⟨name, args⟩ := names_fit parses short fits
    refine ⟨name, args, ?_⟩
    rintro cause errnum shortmsg longmsg rfl
    exact errorBody_fits limited get handles fits

/-- A line that was scanned names a URI, which is a part of it. -/
theorem scanned_uri {version : Text} (scans : scanRequest text = some (method, uri, version)) :
    uri ≠ [] ∧ uri.length ≤ text.length := by
  unfold scanRequest at scans
  split at scans
  next whole =>
    obtain ⟨rfl, rfl, rfl⟩ := scans
    have member : uri ∈ words isSpace (cString text) := by simp [whole]
    exact ⟨word_ne_nil member, ((word_inside member).trans (cString_starts text).isInfix).length_le⟩
  next => exact absurd scans nofun

/-- The URI of a request line is shorter than the buffer of the line. -/
theorem scanRequest_uri {rp after : Rio} {usrbuf buf version : Text} {n : Nat}
    (reads : rioReadlineb rp usrbuf maxLine = some (n, buf, after)) (line : n ≠ 0)
    (scans : scanRequest buf = some (method, uri, version)) : uri ≠ [] ∧ uri.length + 1 ≤ maxLine := by
  obtain ⟨stored, rest, rfl, fits⟩ := rioReadlineb_stored reads line
  have scans : scanRequest stored = some (method, uri, version) := by
    unfold scanRequest at scans ⊢
    rwa [cString_terminated] at scans
  obtain ⟨nonempty, short⟩ := scanned_uri scans
  refine ⟨nonempty, ?_⟩
  have size : maxLine - 1 + 1 = maxLine := rfl
  omega

/-- The buffers hold the texts of a request exactly when it is no `GET` request,
for which none are built, or its URI leaves room. -/
theorem requestBuffers_fit_iff (limited : NamesLimited stat) {rp after : Rio} {usrbuf buf version : Text} {n : Nat}
    (reads : rioReadlineb rp usrbuf maxLine = some (n, buf, after)) (line : n ≠ 0)
    (scans : scanRequest buf = some (method, uri, version)) :
    RequestFits stat method uri ↔ ¬isGet method = true ∨ HasRoom uri := by
  obtain ⟨nonempty, short⟩ := scanRequest_uri reads line scans
  by_cases get : isGet method = true
  · obtain ⟨parsed, parses⟩ := requestParseURI_parses nonempty
    rw [requestFits_iff limited get parses short, hasRoom_iff parses, or_iff_right (not_not_intro get)]
  · refine iff_of_true ?_ (Or.inl get)
    intro tstats parsed response after handles
    simp [requestHandle, get] at handles

/-- The body of an error, if the answer is one. -/
def Response.body : Response → Option Text
  | .error cause errnum shortmsg longmsg => some (errorBody cause errnum shortmsg longmsg)
  | .serveStatic _ _ | .serveDynamic _ _ => none

/-- The texts that are written into buffers on the way to this answer fit. -/
def Buffered (request : Option Parsed) (response : Response) : Prop :=
  (∀ parsed ∈ request, FitsIn maxLine parsed.filename ∧ ∀ args ∈ parsed.cgiargs, FitsIn maxLine args) ∧
    ∀ body ∈ response.body, FitsIn maxBuf body

instance (request : Option Parsed) (response : Response) : Decidable (Buffered request response) :=
  inferInstanceAs (Decidable (_ ∧ _))

/-- The texts for the answer to a `GET` fit when the URI leaves room. -/
theorem buffered_iff (limited : NamesLimited stat) (get : isGet method = true)
    (parses : requestParseURI uri = some parsed) (short : uri.length + 1 ≤ maxLine)
    {tstats after : ThreadStats} {response : Response}
    (handles : requestHandle stat method uri tstats = some (some parsed, response, after)) :
    Buffered (some parsed) response ↔ HasRoom uri := by
  rw [hasRoom_iff parses]
  constructor
  · rintro ⟨_, body⟩
    by_cases long : pathMax ≤ parsed.filename.length
    · have missing := limited _ long
      simp only [requestHandle, get, parses, missing, Bool.not_true, Bool.false_eq_true, if_false,
        Option.bind_eq_bind, Option.bind_some, Option.some.injEq, Prod.mk.injEq, true_and] at handles
      rw [← handles.1] at body
      have fits := body _ rfl
      rw [FitsIn, errorBody_length] at fits
      simp only [String.reduceToList, List.length_cons, List.length_nil] at fits
      unfold longestBody
      omega
    · unfold longestBody maxBuf
      unfold pathMax at long
      omega
  · intro fits
    refine ⟨fun other same => ?_, fun body found => ?_⟩
    · obtain rfl := Option.some.inj same
      exact names_fit parses short fits
    · cases response with
      | error cause errnum shortmsg longmsg =>
        obtain rfl := Option.some.inj found
        exact errorBody_fits limited get handles fits
      | serveStatic filename filesize => exact absurd found nofun
      | serveDynamic filename cgiargs => exact absurd found nofun

/-- The text about another method fits when the method is not too long. -/
theorem buffered_other_iff (method : Text) : Buffered none (.error method "501".toList "Not Implemented".toList
    "OS-HW3 Server does not implement this method".toList) ↔ method.length ≤ 8040 := by
  have whole : Buffered none (.error method "501".toList "Not Implemented".toList
      "OS-HW3 Server does not implement this method".toList) ↔ FitsIn maxBuf (errorBody method "501".toList
        "Not Implemented".toList "OS-HW3 Server does not implement this method".toList) := by
    simp [Buffered, Response.body]
  rw [whole, FitsIn, errorBody_length]
  simp only [String.reduceToList, List.length_cons, List.length_nil]
  unfold maxBuf
  omega

/-- A request line. -/
def requestLine (method uri version : Text) : Text :=
  method ++ ' ' :: (uri ++ ' ' :: (version ++ ['\r', '\n']))

/-- A word of a request line. -/
def IsWord (word : Text) : Prop := word ≠ [] ∧ ∀ c ∈ word, isSpace c = false ∧ c ≠ '\x00'

instance (word : Text) : Decidable (IsWord word) := inferInstanceAs (Decidable (_ ∧ _))

theorem IsWord.words_eq {word : Text} (isWord : IsWord word) : words isSpace word = [word] :=
  words_word isWord.1 fun c member => (isWord.2 c member).1

/-- A request line that fits is read and scanned. -/
theorem requestLine_scans {version : Text} (isMethod : IsWord method) (isUri : IsWord uri)
    (isVersion : IsWord version) (fits : (requestLine method uri version).length ≤ maxLine - 1)
    (usrbuf : Text) : ∃ n buf after,
      rioReadlineb ⟨[], requestLine method uri version, []⟩ usrbuf maxLine = some (n, buf, after) ∧
      n ≠ 0 ∧ scanRequest buf = some (method, uri, version) := by
  have solid {word : Text} (isWord : IsWord word) {c : Char} (blank : isSpace c = true) : c ∉ word :=
    fun member => by simp [(isWord.2 c member).1] at blank
  have proper {word : Text} (isWord : IsWord word) : '\x00' ∉ word := fun member =>
    (isWord.2 _ member).2 rfl
  have ends : requestLine method uri version =
      (method ++ ' ' :: (uri ++ ' ' :: (version ++ ['\r']))) ++ '\n' :: [] := by
    simp [requestLine]
  have one : piece '\n' (maxLine - 1) (requestLine method uri version) =
      requestLine method uri version := by
    rw [ends] at fits ⊢
    refine piece_line ?_ ?_
    · simp [solid isMethod (c := '\n') rfl, solid isUri (c := '\n') rfl, solid isVersion (c := '\n') rfl]
    · rw [List.length_append, List.length_singleton] at fits
      omega
  have fresh : (⟨[], requestLine method uri version, []⟩ : Rio).Reads := List.not_mem_nil
  obtain ⟨n, after, some, -, reads, -⟩ := rioReadlineb_reads fresh (show 1 < maxLine by decide) usrbuf
    (by simp [Rio.stream, requestLine])
  simp only [Rio.stream, List.nil_append, one] at reads
  refine ⟨n, _, after, reads, some, ?_⟩
  have whole : '\x00' ∉ requestLine method uri version := by
    simp [requestLine, proper isMethod, proper isUri, proper isVersion]
  have found : words isSpace (requestLine method uri version) = [method, uri, version] := by
    rw [requestLine, words_append rfl, words_append rfl, words_append rfl, isMethod.words_eq,
      isUri.words_eq, isVersion.words_eq, words_blank (by decide)]
    rfl
  rw [scanRequest, cString_terminated, cString_eq whole, found]

/-- A URI of so many characters and a slash. -/
def longUri (count : Nat) : Text := '/' :: List.replicate count 'a'

theorem mem_longUri {count : Nat} {c : Char} (member : c ∈ longUri count) : c = '/' ∨ c = 'a' := by
  rcases List.mem_cons.mp member with rfl | member
  · exact Or.inl rfl
  · exact Or.inr (List.eq_of_mem_replicate member)

theorem longUri_isWord (count : Nat) : IsWord (longUri count) := by
  refine ⟨List.cons_ne_nil _ _, fun c member => ?_⟩
  rcases mem_longUri member with rfl | rfl
  · decide
  · decide

/-- A request line for such a URI. -/
theorem longUri_scans {count : Nat} (short : count ≤ 8175) : ∃ n buf after,
    rioReadlineb ⟨[], requestLine "GET".toList (longUri count) "HTTP/1.0".toList, []⟩
      (List.replicate maxLine '\x00') maxLine = some (n, buf, after) ∧ n ≠ 0 ∧
    scanRequest buf = some ("GET".toList, longUri count, "HTTP/1.0".toList) := by
  refine requestLine_scans (by decide +kernel) (longUri_isWord count) (by decide +kernel) ?_ _
  simp only [requestLine, longUri, String.reduceToList, List.length_append, List.length_cons,
    List.length_replicate, List.length_nil, maxLine]
  omega

/-- Such a URI has room up to 8043 characters. -/
theorem longUri_room (count : Nat) : HasRoom (longUri (count + 1)) ↔ count + 2 ≤ 8043 := by
  have other {c : Char} (slash : c ≠ '/') (letter : c ≠ 'a') : c ∉ longUri (count + 1) := fun member =>
    (mem_longUri member).elim slash letter
  have dots : ¬"..".toList <:+: longUri (count + 1) := fun inside =>
    other (c := '.') (by decide) (by decide) (inside.subset (by simp))
  have static : ¬"cgi".toList <:+: longUri (count + 1) := fun inside =>
    other (c := 'c') (by decide) (by decide) (inside.subset (by simp))
  have last : (longUri (count + 1)).getLast? ≠ some '/' := by
    simp [longUri, List.getLast?_cons, List.getLast?_replicate]
  have length : (longUri (count + 1)).length = count + 2 := by simp [longUri]
  simp only [HasRoom, dots, static, last, length, not_false_eq_true, true_and, false_and, or_false,
    false_or, if_false, Nat.add_zero]

/-- No file is found. -/
theorem nowhere_limited : NamesLimited fun _ => none := fun _ _ => rfl

/-- A request for a file whose name is nearly as long as it can be. -/
theorem requestBuffers_fit_sample : RequestFits (fun _ => none) "GET".toList (longUri 8042) := by
  obtain ⟨n, buf, after, reads, line, scans⟩ := longUri_scans (show 8042 ≤ 8175 by decide)
  exact (requestBuffers_fit_iff nowhere_limited reads line scans).mpr (Or.inr ((longUri_room 8041).mpr (by decide)))

/-- A request line of 8116 characters is read and scanned, but the body of the
error about its file does not fit. -/
theorem requestBuffers_overflow : ¬∀ (stat : Text → Option Stat) (rp after : Rio)
    (usrbuf buf method uri version : Text) (n : Nat), NamesLimited stat →
    rioReadlineb rp usrbuf maxLine = some (n, buf, after) → n ≠ 0 →
    scanRequest buf = some (method, uri, version) → RequestFits stat method uri := by
  intro always
  obtain ⟨n, buf, after, reads, line, scans⟩ := longUri_scans (show 8100 ≤ 8175 by decide)
  have fits := always _ _ after _ buf _ _ _ n nowhere_limited reads line scans
  obtain ⟨nonempty, short⟩ := scanRequest_uri reads line scans
  obtain ⟨parsed, parses⟩ := requestParseURI_parses nonempty
  have get : isGet "GET".toList = true := by decide +kernel
  have room := (hasRoom_iff parses).mpr ((requestFits_iff nowhere_limited get parses short).mp fits)
  exact absurd ((longUri_room 8099).mp room) (by decide)

end OperatingSystems.WebServer
