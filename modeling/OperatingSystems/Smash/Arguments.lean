import OperatingSystems.Smash.CommandLine

/-!
# The argument array of a `Command`

The constructor of `Command` fills an array of `COMMAND_MAX_ARGS` pointers with the
words of its line, each in a block of its own, and puts a null pointer behind them;
the destructor frees the blocks up to that null pointer. The loop over the words
does not look at the size of the array. Here the array and the blocks are memory: a
write behind the array, and `free` of anything but a live block, have no result.

`malloc` is taken to return a block each time.
-/

namespace OperatingSystems.Smash

open Texts

/-- The blocks `malloc` returned, in order, with their words; a pointer is a position,
and a freed block is gone. -/
abbrev Blocks := List (Option Text)

/-- `args` and the blocks; null is no position. -/
structure Arguments where
  args : List (Option Nat)
  blocks : Blocks
deriving DecidableEq, Repr

/-- `args[i] = pointer`. -/
def Arguments.setArg (m : Arguments) (i : Nat) (pointer : Option Nat) : Option Arguments :=
  if i < m.args.length then some { m with args := m.args.set i pointer } else none

/-- The loop of `_parseCommandLine` over the words, at `args[i]`. -/
def parseLoop : List Text → Nat → Arguments → Option (Nat × Arguments)
  | [], i, m => some (i, m)
  | s :: rest, i, m => do
    let m ← m.setArg i (some m.blocks.length)
    let m ← { m with blocks := m.blocks ++ [some s] }.setArg (i + 1) none
    parseLoop rest (i + 1) m

/-- The words that the pointers before the first null pointer lead to. -/
def Arguments.pointed (m : Arguments) : List Text :=
  (m.args.takeWhile Option.isSome).filterMap fun pointer => pointer.bind fun a => m.blocks[a]?.join

/-- What the constructor leaves in a `Command` and its memory. -/
structure Constructed where
  cmdLine : Text
  numOfArgs : Nat
  memory : Arguments
deriving DecidableEq, Repr

/-- The line that is split. -/
def splitLine (cmdLineConst : Text) (ignoreAmpersand : Bool) : Option Text :=
  if ignoreAmpersand then removeBackgroundSign cmdLineConst else some cmdLineConst

/-- The constructor of `Command`, which sets the whole array to null first. -/
def construct (cmdLineConst : Text) (ignoreAmpersand : Bool) (blocks : Blocks) : Option Constructed := do
  let cmdLine ← splitLine cmdLineConst ignoreAmpersand
  let args := List.replicate commandMaxArgs none
  let (numOfArgs, memory) ← parseLoop (words isSpace (trim cmdLine)) 0 ⟨args, blocks⟩
  some ⟨cmdLine, numOfArgs, memory⟩

/-- `free(pointer)`. -/
def freeBlock (pointer : Nat) (blocks : Blocks) : Option Blocks :=
  match blocks[pointer]? with
  | some (some _) => some (blocks.set pointer none)
  | _ => none

/-- The destructor of `Command`, over what is left of the array. It deletes
`cmd_line` only when it has met no null pointer. -/
def destroyLoop : List (Option Nat) → Blocks → Option (Bool × Blocks)
  | [], blocks => some (true, blocks)
  | none :: _, blocks => some (false, blocks)
  | some pointer :: rest, blocks => do
    let blocks ← freeBlock pointer blocks
    destroyLoop rest blocks

/-- The array holds the words in order and a null pointer behind them, inside the
array; the destructor frees the block of each word, and no other one. -/
structure Holding (blocks : Blocks) (command : Constructed) : Prop where
  size : command.memory.args.length = commandMaxArgs
  counted : command.numOfArgs = (words isSpace command.cmdLine).length
  filled : ∀ (i : Nat) (word : Text), (words isSpace command.cmdLine)[i]? = some word →
    ∃ pointer : Nat, command.memory.args[i]? = some (some pointer) ∧ command.memory.blocks[pointer]? = some (some word)
  ended : command.memory.args[command.numOfArgs]? = some none
  freed : destroyLoop command.memory.args command.memory.blocks =
    some (false, blocks ++ List.replicate command.numOfArgs none)

variable {front : List (Option Nat)} {blocks : Blocks} {texts : List Text} {r : Nat} {cmdLine cmdLineConst : Text}
  {ignoreAmpersand : Bool} {command : Constructed}

/-- A write to a place that is left. -/
theorem setArg_inside (front : List (Option Nat)) (old pointer : Option Nat) (rest : List (Option Nat)) :
    (⟨front ++ old :: rest, blocks⟩ : Arguments).setArg front.length pointer =
      some ⟨front ++ pointer :: rest, blocks⟩ := by
  unfold Arguments.setArg
  rw [if_pos (by simp)]
  simp

/-- A write behind the last place. -/
theorem setArg_behind (front : List (Option Nat)) (pointer : Option Nat) :
    (⟨front, blocks⟩ : Arguments).setArg front.length pointer = none :=
  if_neg (Nat.lt_irrefl _)

/-- With `r` places left, the loop stays inside the array when there are fewer words.

The induction is on the words still to come. -/
theorem parseLoop_eq (front : List (Option Nat)) (blocks : Blocks) (texts : List Text) (room : 0 < r) :
    parseLoop texts front.length ⟨front ++ List.replicate r none, blocks⟩ =
      if texts.length < r then
        some (front.length + texts.length,
          ⟨front ++ (List.range' blocks.length texts.length).map some ++ List.replicate (r - texts.length) none,
            blocks ++ texts.map some⟩)
      else none := by
  induction texts generalizing front blocks r with
  | nil => simp [parseLoop, room]
  | cons s rest inductionHypothesis =>
    obtain ⟨r, rfl⟩ : ∃ less, r = less + 1 := Nat.exists_eq_succ_of_ne_zero (Nat.ne_of_gt room)
    have next : (front ++ [some blocks.length]).length = front.length + 1 := by simp
    have regroup : front ++ some blocks.length :: List.replicate r none =
        (front ++ [some blocks.length]) ++ List.replicate r none := by simp
    rw [parseLoop, List.replicate_succ, setArg_inside]
    simp only [Option.bind_eq_bind, Option.bind_some]
    rw [regroup, ← next]
    cases r with
    | zero =>
      -- The word took the last place.
      rw [List.replicate_zero, List.append_nil, setArg_behind, Option.bind_none, if_neg (by simp)]
    | succ r =>
      have fits : (s :: rest).length < r + 1 + 1 ↔ rest.length < r + 1 := by simp
      have left : r + 1 + 1 - (s :: rest).length = r + 1 - rest.length := by simp
      have count : front.length + (s :: rest).length = (front ++ [some blocks.length]).length + rest.length := by
        simp only [List.length_cons, next]
        omega
      rw [List.replicate_succ, setArg_inside, Option.bind_some, ← List.replicate_succ,
        inductionHypothesis _ _ (Nat.succ_pos r)]
      simp only [fits, left, count]
      simp [List.range'_succ]

/-- The constructor has a result exactly when there are fewer words than places. -/
theorem construct_eq (blocks : Blocks) : construct cmdLineConst ignoreAmpersand blocks =
    (splitLine cmdLineConst ignoreAmpersand).bind fun cmdLine =>
      let texts := words isSpace cmdLine
      if texts.length < commandMaxArgs then
        some ⟨cmdLine, texts.length,
          ⟨(List.range' blocks.length texts.length).map some ++ List.replicate (commandMaxArgs - texts.length) none,
            blocks ++ texts.map some⟩⟩
      else none := by
  unfold construct
  congr 1
  funext cmdLine
  have loop := parseLoop_eq [] blocks (words isSpace cmdLine) (r := commandMaxArgs) (by decide)
  simp only [List.nil_append, List.length_nil, Nat.zero_add] at loop
  simp only [words_trim, loop]
  split
  · rfl
  · rfl

/-- The destructor frees the blocks in order and stops at the null pointer.

The induction is on the words whose blocks are left. -/
theorem destroyLoop_eq (freed : Blocks) (rest : List (Option Nat)) :
    destroyLoop ((List.range' freed.length texts.length).map some ++ none :: rest) (freed ++ texts.map some) =
      some (false, freed ++ List.replicate texts.length none) := by
  induction texts generalizing freed with
  | nil => simp [destroyLoop]
  | cons s texts inductionHypothesis =>
    have frees : freeBlock freed.length (freed ++ some s :: texts.map some) =
        some (freed ++ none :: texts.map some) := by simp [freeBlock]
    have next : (freed ++ [none]).length = freed.length + 1 := by simp
    have regroup : freed ++ none :: texts.map some = (freed ++ [none]) ++ texts.map some := by simp
    have later := inductionHypothesis (freed ++ [none])
    rw [next] at later
    rw [List.length_cons, List.range'_succ, List.map_cons, List.map_cons, List.cons_append, destroyLoop, frees,
      Option.bind_eq_bind, Option.bind_some, regroup, later]
    simp [List.replicate_succ]

/-- What the constructor leaves is in order. -/
theorem holding_built (blocks : Blocks) (few : (words isSpace cmdLine).length < commandMaxArgs) :
    Holding blocks ⟨cmdLine, (words isSpace cmdLine).length,
      ⟨(List.range' blocks.length (words isSpace cmdLine).length).map some ++
          List.replicate (commandMaxArgs - (words isSpace cmdLine).length) none,
        blocks ++ (words isSpace cmdLine).map some⟩⟩ := by
  obtain ⟨left, places⟩ : ∃ left, commandMaxArgs - (words isSpace cmdLine).length = left + 1 :=
    Nat.exists_eq_succ_of_ne_zero (Nat.ne_of_gt (Nat.sub_pos_of_lt few))
  rw [places, List.replicate_succ]
  constructor
  · simp only [List.length_append, List.length_map, List.length_range', List.length_cons, List.length_replicate]
    omega
  · rfl
  · intro i word found
    obtain ⟨inside, -⟩ := List.getElem?_eq_some_iff.mp found
    refine ⟨blocks.length + i, ?_, ?_⟩
    · simp [List.getElem?_append_left, inside]
    · have stored : (words isSpace cmdLine)[i]? = some word := found
      simp [List.getElem?_append_right, stored]
  · simp
  · exact destroyLoop_eq blocks _

/-- The array is filled and emptied as it should be exactly when fewer words are
split off than it has places. -/
theorem construct_iff (cmdLineConst : Text) (ignoreAmpersand : Bool) (blocks : Blocks) :
    (∃ command, construct cmdLineConst ignoreAmpersand blocks = some command ∧
      command.cmdLine ∈ splitLine cmdLineConst ignoreAmpersand ∧ Holding blocks command) ↔
    ∃ cmdLine ∈ splitLine cmdLineConst ignoreAmpersand, (words isSpace cmdLine).length < commandMaxArgs := by
  rw [construct_eq]
  constructor
  · rintro ⟨command, built, -, -⟩
    obtain ⟨cmdLine, line, built⟩ := Option.bind_eq_some_iff.mp built
    refine ⟨cmdLine, line, ?_⟩
    by_contra many
    rw [if_neg many] at built
    cases built
  · rintro ⟨cmdLine, line, few⟩
    refine ⟨_, Option.bind_eq_some_iff.mpr ⟨cmdLine, line, if_pos few⟩, line, holding_built blocks few⟩

/-- A line of twenty words leaves no place for the null pointer. -/
theorem construct_overflows : (words isSpace (List.replicate 20 ['a', ' ']).flatten).length = commandMaxArgs ∧
    construct (List.replicate 20 ['a', ' ']).flatten false [] = none ∧
    ¬∃ command, construct (List.replicate 20 ['a', ' ']).flatten false [] = some command ∧
      command.cmdLine ∈ splitLine (List.replicate 20 ['a', ' ']).flatten false ∧ Holding [] command := by
  have overflows : construct (List.replicate 20 ['a', ' ']).flatten false [] = none := by decide +kernel
  refine ⟨by decide +kernel, overflows, ?_⟩
  rintro ⟨command, built, -⟩
  rw [overflows] at built
  cases built

/-- Before the null pointer stand the words.

The induction is on the words, with the blocks of those passed in front. -/
theorem pointed_built (blocks : Blocks) (texts : List Text) (rest : List (Option Nat)) :
    (⟨(List.range' blocks.length texts.length).map some ++ none :: rest, blocks ++ texts.map some⟩ :
      Arguments).pointed = texts := by
  induction texts generalizing blocks with
  | nil => simp [Arguments.pointed]
  | cons s texts inductionHypothesis =>
    have next : (blocks ++ [some s]).length = blocks.length + 1 := by simp
    have regroup : blocks ++ some s :: texts.map some = (blocks ++ [some s]) ++ texts.map some := by simp
    have later := inductionHypothesis (blocks ++ [some s])
    rw [next] at later
    unfold Arguments.pointed at later ⊢
    rw [List.length_cons, List.range'_succ, List.map_cons, List.map_cons, List.cons_append,
      List.takeWhile_cons_of_pos rfl, regroup, List.filterMap_cons_some (b := s) (by simp), later]

/-- The constructor without its memory is `commandObject`: the words are those the
array leads to. -/
theorem construct_commandObject (cmdLineConst : Text) (ignoreAmpersand : Bool) (blocks : Blocks) :
    ((construct cmdLineConst ignoreAmpersand blocks).map fun command =>
      (⟨command.memory.pointed, cmdLineConst, command.cmdLine⟩ : CommandObject)) =
    commandObject cmdLineConst ignoreAmpersand := by
  have object : commandObject cmdLineConst ignoreAmpersand =
      (splitLine cmdLineConst ignoreAmpersand).bind fun cmdLine =>
        (parseCommandLine cmdLine).bind fun args => some ⟨args, cmdLineConst, cmdLine⟩ := by
    cases ignoreAmpersand with
    | true => rfl
    | false => rfl
  rw [construct_eq, object, Option.map_bind]
  congr 1
  funext cmdLine
  unfold parseCommandLine
  simp only [Function.comp_apply, words_trim]
  by_cases few : (words isSpace cmdLine).length < commandMaxArgs
  · obtain ⟨left, places⟩ : ∃ left, commandMaxArgs - (words isSpace cmdLine).length = left + 1 :=
      Nat.exists_eq_succ_of_ne_zero (Nat.ne_of_gt (Nat.sub_pos_of_lt few))
    simp [few, places, List.replicate_succ, pointed_built]
  · simp [few]

end OperatingSystems.Smash
