import Mathlib

/-!
# The request queue of the web server

`queue.c` keeps a singly linked list with pointers to its first and last node
and a separate size. A queue is modelled together with the nodes it owns, at
the addresses `malloc` gave them; null is address 0. Every function follows its
pointers and has no result when it would follow one that leads to no node.

Each operation is then compared with the operation on lists it stands for.
-/

namespace OperatingSystems.WebServer

/-- `struct timeval`. -/
structure Timeval where
  sec : Int
  usec : Int
deriving DecidableEq, Repr

/-- `Node`. -/
structure Node where
  data : Int
  arrival : Timeval
  next : Nat
deriving DecidableEq, Repr

/-- `Queue`, with the memory of its nodes. The size, an `int` of the source, does not overflow
within 2^31 calls (`execute_size_lt`), nor in the server (`Accounted.sizes_lt`). -/
structure Queue where
  nodes : Nat → Option Node
  head : Nat
  tail : Nat
  size : Int

/-- The memory after one node changed. -/
def update (nodes : Nat → Option Node) (address : Nat) (node : Option Node) : Nat → Option Node :=
  fun a => if a = address then node else nodes a

def queueCreate : Queue := ⟨fun _ => none, 0, 0, 0⟩

def queueEmpty (q : Queue) : Bool := q.head == 0

def queueSize (q : Queue) : Int := q.size

/-- `queuePop`: the result is the data of the first node, or -1 for an empty
queue, and what `*at` holds afterwards. -/
def queuePop (q : Queue) (at_ : Timeval) : Option (Int × Timeval × Queue) :=
  if queueEmpty q then some (-1, at_, q)
  else do
    let first ← q.nodes q.head
    some (first.data, first.arrival,
      { nodes := update q.nodes q.head none
        head := first.next
        tail := if first.next = 0 then 0 else q.tail
        size := q.size - 1 })

/-- `queuePush`, where `malloc` returned this address, null when it failed. -/
def queuePush (q : Queue) (data : Int) (arrival : Timeval) (address : Nat) : Option (Int × Queue) :=
  if address = 0 then some (-1, q)
  else
    let created := update q.nodes address (some ⟨data, arrival, 0⟩)
    if queueEmpty q then some (1, ⟨created, address, address, q.size + 1⟩)
    else do
      let last ← created q.tail
      some (1, ⟨update created q.tail (some { last with next := address }), q.head, address,
        q.size + 1⟩)

/-- Follow so many links. -/
def advance (nodes : Nat → Option Node) : Nat → Nat → Option Nat
  | 0, it => some it
  | steps + 1, it => do
    let node ← nodes it
    advance nodes steps node.next

def queueRemoveByIndex (q : Queue) (index : Int) : Option (Int × Queue) :=
  if q.size < index then some (-1, q)
  else if index = 0 then do
    let (data, _, rest) ← queuePop q ⟨0, 0⟩
    some (data, rest)
  -- The bound of the loop overflows for the least index.
  else if index - 1 < -2 ^ 31 then none
  else do
    let it ← advance q.nodes (index - 1).toNat q.head
    let node ← q.nodes it
    let removed ← q.nodes node.next
    let nodes := update (update q.nodes it (some { node with next := removed.next })) node.next none
    some (removed.data, ⟨nodes, q.head, if removed.next = 0 then it else q.tail, q.size - 1⟩)

/-- The loop of `queueDiscardX`, with the result of `rand` for each count that
is left: remove so many nodes and return what is passed to `Close`. -/
def discardLoop (rand : Nat → Nat) : Nat → Queue → Option (List Int × Queue)
  | 0, q => some ([], q)
  | num + 1, q => do
    let (data, shorter) ← queueRemoveByIndex q (rand num % q.size)
    let (closed, last) ← discardLoop rand num shorter
    some (data :: closed, last)

/-- `queueDiscardX`. -/
def queueDiscardX (rand : Nat → Nat) (q : Queue) (num : Int) : Option (List Int × Queue) :=
  discardLoop rand (if num < queueSize q then num else queueSize q).toNat q

/-- An element of a queue: a descriptor with its arrival time. -/
abbrev Entry := Int × Timeval

/-- The nodes between two addresses, each with its address. -/
def Segment (nodes : Nat → Option Node) : Nat → List (Nat × Entry) → Nat → Prop
  | start, [], finish => start = finish
  | start, cell :: rest, finish => start = cell.1 ∧ cell.1 ≠ 0 ∧
      ∃ next, nodes cell.1 = some ⟨cell.2.1, cell.2.2, next⟩ ∧ Segment nodes next rest finish

/-- The queue holds these entries: the chain from its head, with the tail at
the last node and the size equal to the length. -/
def Holds (q : Queue) (entries : List Entry) : Prop :=
  ∃ cells : List (Nat × Entry), cells.map Prod.snd = entries ∧ (cells.map Prod.fst).Nodup ∧
    Segment q.nodes q.head cells 0 ∧ q.tail = (cells.getLast?.map Prod.fst).getD 0 ∧
    q.size = entries.length

variable {nodes : Nat → Option Node} {q : Queue} {entry : Entry} {entries : List Entry}
  {front back cells : List (Nat × Entry)} {cell : Nat × Entry} {start finish address : Nat}

theorem update_same {node : Option Node} : update nodes address node address = node := if_pos rfl

theorem update_other {node : Option Node} {a : Nat} (other : a ≠ address) :
    update nodes address node a = nodes a := if_neg other

/-- A segment in two parts. -/
theorem segment_append : Segment nodes start (front ++ back) finish ↔
    ∃ middle, Segment nodes start front middle ∧ Segment nodes middle back finish := by
  induction front generalizing start with
  | nil => simp [Segment]
  | cons cell front inductionHypothesis =>
    simp only [List.cons_append, Segment, inductionHypothesis]
    constructor
    · rintro ⟨here, proper, next, stored, middle, first, second⟩
      exact ⟨middle, ⟨here, proper, next, stored, first⟩, second⟩
    · rintro ⟨middle, ⟨here, proper, next, stored, first⟩, second⟩
      exact ⟨here, proper, next, stored, middle, first, second⟩

/-- A node that is not in the segment may change. -/
theorem Segment.update {node : Option Node} (segment : Segment nodes start cells finish)
    (outside : address ∉ cells.map Prod.fst) :
    Segment (update nodes address node) start cells finish := by
  induction cells generalizing start with
  | nil => exact segment
  | cons cell cells inductionHypothesis =>
    obtain ⟨here, proper, next, stored, rest⟩ := segment
    simp only [List.map_cons, List.mem_cons, not_or] at outside
    refine ⟨here, proper, next, ?_, inductionHypothesis rest outside.2⟩
    rw [update_other (Ne.symm outside.1)]
    exact stored

/-- Every node of a segment is in memory. -/
theorem Segment.stored (segment : Segment nodes start cells finish) (member : cell ∈ cells) :
    (nodes cell.1).isSome = true := by
  obtain ⟨front, back, rfl⟩ := List.append_of_mem member
  obtain ⟨middle, _, _, _, next, stored, _⟩ := segment_append.mp segment
  simp [stored]

/-- A segment to null is empty when it starts there. -/
theorem Segment.start_eq (segment : Segment nodes start cells 0) : start = 0 ↔ cells = [] := by
  cases cells with
  | nil => exact iff_of_true segment rfl
  | cons cell cells =>
    obtain ⟨here, proper, _⟩ := segment
    exact iff_of_false (here ▸ proper) (by simp)

/-- A queue is empty for `queueEmpty` when it has no entries. -/
theorem Holds.empty (holds : Holds q entries) : queueEmpty q = true ↔ entries = [] := by
  obtain ⟨cells, rfl, _, segment, _⟩ := holds
  rw [List.map_eq_nil_iff, ← segment.start_eq]
  simp [queueEmpty]

theorem Holds.length (holds : Holds q entries) : queueSize q = entries.length := by
  obtain ⟨_, _, _, _, _, size⟩ := holds
  exact size

/-- A new queue holds nothing. -/
theorem holds_create : Holds queueCreate [] := ⟨[], rfl, List.nodup_nil, rfl, rfl, rfl⟩

/-- `queuePop` on an empty queue changes nothing. -/
theorem queuePop_nil (holds : Holds q []) (at_ : Timeval) : queuePop q at_ = some (-1, at_, q) :=
  if_pos (holds.empty.mpr rfl)

/-- `queuePop` drops the first entry and returns it. -/
theorem queuePop_cons (holds : Holds q (entry :: entries)) (at_ : Timeval) :
    ∃ rest, queuePop q at_ = some (entry.1, entry.2, rest) ∧ Holds rest entries := by
  obtain ⟨cells, contents, distinct, segment, tail, size⟩ := holds
  cases cells with
  | nil => simp at contents
  | cons cell cells =>
    obtain ⟨rfl, rfl⟩ := List.cons.inj contents
    obtain ⟨here, proper, next, stored, rest⟩ := segment
    have occupied : ¬queueEmpty q = true := by simp [queueEmpty, here, proper]
    have absent := (List.nodup_cons.mp distinct).1
    refine ⟨⟨update q.nodes q.head none, next, if next = 0 then 0 else q.tail, q.size - 1⟩, ?_,
      cells, rfl, (List.nodup_cons.mp distinct).2, rest.update (here ▸ absent), ?_, ?_⟩
    · rw [queuePop, if_neg occupied, here, stored]
      rfl
    · cases cells with
      | nil =>
        have last : next = 0 := rest
        simp [last]
      | cons other cells =>
        have more : next ≠ 0 := rest.1 ▸ rest.2.1
        simpa [more] using tail
    · simp only [List.length_cons] at size
      simp only
      omega

/-- `queuePush` appends an entry. -/
theorem queuePush_appends (holds : Holds q entries) (data : Int) (arrival : Timeval)
    (proper : address ≠ 0) (fresh : q.nodes address = none) :
    ∃ longer, queuePush q data arrival address = some (1, longer) ∧
      Holds longer (entries ++ [(data, arrival)]) := by
  obtain ⟨cells, contents, distinct, segment, tail, size⟩ := holds
  have absent : address ∉ cells.map Prod.fst := by
    intro member
    obtain ⟨cell, listed, rfl⟩ := List.mem_map.mp member
    simpa [fresh] using segment.stored listed
  rcases List.eq_nil_or_concat cells with rfl | ⟨front, last, rfl⟩
  · have first : q.head = 0 := segment
    have isNil : entries = [] := contents.symm
    subst isNil
    refine ⟨⟨update q.nodes address (some ⟨data, arrival, 0⟩), address, address, q.size + 1⟩, ?_,
      [(address, data, arrival)], rfl, List.nodup_singleton _, ⟨rfl, proper, 0, update_same, rfl⟩,
      rfl, ?_⟩
    · rw [queuePush, if_neg proper]
      exact if_pos (by simp [queueEmpty, first])
    · simp only [List.nil_append, List.length_singleton]
      simp only [List.length_nil] at size
      omega
  · rw [List.concat_eq_append] at *
    have occupied : ¬queueEmpty q = true := by
      rw [queueEmpty, beq_iff_eq, segment.start_eq]
      simp
    have isTail : q.tail = last.1 := by simpa using tail
    obtain ⟨middle, before, here, _, next, stored, finish⟩ := segment_append.mp segment
    obtain rfl : next = 0 := finish
    have differs : last.1 ≠ address := fun same => absent (by simp [same])
    have apart : last.1 ∉ front.map Prod.fst := by
      rw [List.map_append, List.nodup_append] at distinct
      exact fun member => distinct.2.2 _ member _ (by simp) rfl
    refine ⟨⟨update (update q.nodes address (some ⟨data, arrival, 0⟩)) last.1
        (some ⟨last.2.1, last.2.2, address⟩), q.head, address, q.size + 1⟩, ?_,
      front ++ [last] ++ [(address, data, arrival)], by simp [← contents], ?_, ?_, ?_, ?_⟩
    · rw [queuePush, if_neg proper]
      simp only [if_neg occupied, isTail, update_other differs, stored]
      rfl
    · rw [List.map_append, List.nodup_append]
      refine ⟨distinct, List.nodup_singleton _, ?_⟩
      simp only [List.map_cons, List.map_nil, List.mem_singleton]
      rintro a member b rfl rfl
      exact absent member
    · rw [List.append_assoc]
      have fresh' : address ∉ front.map Prod.fst := fun member => absent (by simp [member])
      refine segment_append.mpr ⟨middle, (before.update fresh').update apart, here, ‹_›, address,
        update_same, rfl, proper, 0, ?_, rfl⟩
      exact (update_other (Ne.symm differs)).trans update_same
    · simp
    · rw [List.length_append, List.length_singleton]
      push_cast
      omega

/-- `advance` reaches the node at an index. -/
theorem Segment.advance (segment : Segment nodes start (front ++ cell :: back) finish) :
    advance nodes front.length start = some cell.1 := by
  induction front generalizing start with
  | nil => exact congrArg some segment.1
  | cons other front inductionHypothesis =>
    obtain ⟨rfl, _, next, stored, rest⟩ := segment
    rw [List.length_cons, WebServer.advance, stored]
    exact inductionHypothesis rest

/-- `queueRemoveByIndex` erases the entry at an index of the queue. -/
theorem queueRemoveByIndex_erases {front back : List Entry} (holds : Holds q (front ++ entry :: back)) :
    ∃ shorter, queueRemoveByIndex q front.length = some (entry.1, shorter) ∧
      Holds shorter (front ++ back) := by
  have length := holds.length
  have inside : ¬q.size < front.length := by
    simp only [queueSize, List.length_append, List.length_cons] at length
    omega
  rcases List.eq_nil_or_concat front with rfl | ⟨more, previous, rfl⟩
  · obtain ⟨rest, popped, remains⟩ := queuePop_cons holds ⟨0, 0⟩
    refine ⟨rest, ?_, remains⟩
    rw [queueRemoveByIndex, if_neg inside]
    simp [popped]
  · rw [List.concat_eq_append] at *
    obtain ⟨cells, contents, distinct, segment, tail, size⟩ := holds
    rw [List.append_assoc] at contents
    obtain ⟨cellsMore, rest, rfl, isMore, isRest⟩ := List.map_eq_append_iff.mp contents
    obtain ⟨before, tailCells, rfl, isBefore, isTail⟩ := List.map_eq_cons_iff.mp isRest
    obtain ⟨here, after, rfl, isHere, isAfter⟩ := List.map_eq_cons_iff.mp isTail
    have reaches := segment.advance
    obtain ⟨middle, ahead, _, properBefore, next, stored, startHere, _, last, storedHere, behind⟩ :=
      segment_append.mp segment
    subst startHere isHere
    simp only [List.map_append, List.map_cons, List.nodup_append, List.nodup_cons] at distinct
    obtain ⟨distinctMore, ⟨apartBefore, apartHere, distinctAfter⟩, across⟩ := distinct
    have differs : before.1 ≠ here.1 := fun same => apartBefore (by simp [same])
    have beforeMore : before.1 ∉ cellsMore.map Prod.fst := fun member => across _ member _ (by simp) rfl
    have hereMore : here.1 ∉ cellsMore.map Prod.fst := fun member => across _ member _ (by simp) rfl
    have beforeAfter : before.1 ∉ after.map Prod.fst := fun member => apartBefore (by simp [member])
    refine ⟨⟨update (update q.nodes before.1 (some ⟨before.2.1, before.2.2, last⟩)) here.1 none,
        q.head, if last = 0 then before.1 else q.tail, q.size - 1⟩, ?_,
      cellsMore ++ before :: after, ?_, ?_, ?_, ?_, ?_⟩
    · have nonzero : (((more ++ [previous]).length : Nat) : Int) ≠ 0 := by
        simp only [List.length_append, List.length_singleton]
        omega
      have steps : ((((more ++ [previous]).length : Nat) : Int) - 1).toNat = cellsMore.length := by
        have lengths := congrArg List.length isMore
        simp only [List.length_map] at lengths
        simp only [List.length_append, List.length_singleton]
        omega
      have fits : ¬(((more ++ [previous]).length : Nat) : Int) - 1 < -2 ^ 31 := by omega
      rw [queueRemoveByIndex, if_neg inside, if_neg nonzero, if_neg fits, steps, reaches]
      simp only [Option.bind_eq_bind, Option.bind_some, stored, storedHere]
    · simp [isMore, isBefore, isAfter]
    · simp only [List.map_append, List.map_cons, List.nodup_append, List.nodup_cons]
      refine ⟨distinctMore, ⟨beforeAfter, distinctAfter⟩, fun a member b other => across a member b ?_⟩
      rcases List.mem_cons.mp other with rfl | other
      · simp
      · simp [other]
    · refine segment_append.mpr ⟨middle, (ahead.update beforeMore).update hereMore, ‹_›,
        properBefore, last, ?_, (behind.update beforeAfter).update apartHere⟩
      exact (update_other differs).trans update_same
    · cases after with
      | nil =>
        obtain rfl : last = 0 := behind
        simp
      | cons other after =>
        have more : last ≠ 0 := behind.1 ▸ behind.2.1
        simpa [more, List.getLast?_cons] using tail
    · simp only [List.length_append, List.length_cons] at size ⊢
      push_cast at size ⊢
      omega

/-- `queueRemoveByIndex` erases the entry at an index of the queue and returns it. -/
theorem queueRemoveByIndex_at {index : Nat} (holds : Holds q entries) (inside : index < entries.length) :
    ∃ shorter, queueRemoveByIndex q index = some (entries[index].1, shorter) ∧
      Holds shorter (entries.eraseIdx index) := by
  have whole : entries = entries.take index ++ entries[index] :: entries.drop (index + 1) := by
    rw [← List.drop_eq_getElem_cons inside, List.take_append_drop]
  have place : (entries.take index).length = index := List.length_take_of_le (Nat.le_of_lt inside)
  rw [whole] at holds
  have erases := queueRemoveByIndex_erases holds
  rwa [place, ← List.eraseIdx_eq_take_drop_succ] at erases

/-- The entries met along so many links. -/
def walk (nodes : Nat → Option Node) : Nat → Nat → List Entry
  | 0, _ => []
  | count + 1, start =>
    match nodes start with
    | some node => (node.data, node.arrival) :: walk nodes count node.next
    | none => []

/-- The entries of a queue, as far as its size says. -/
def contents (q : Queue) : List Entry := walk q.nodes q.size.toNat q.head

theorem Segment.walk (segment : Segment nodes start cells finish) :
    walk nodes cells.length start = cells.map Prod.snd := by
  induction cells generalizing start with
  | nil => rfl
  | cons cell cells inductionHypothesis =>
    obtain ⟨rfl, _, next, stored, rest⟩ := segment
    simp only [List.length_cons, WebServer.walk, stored, List.map_cons, inductionHypothesis rest]

/-- The entries are those the queue holds. -/
theorem Holds.contents (holds : Holds q entries) : contents q = entries := by
  obtain ⟨cells, rfl, _, segment, _, size⟩ := holds
  have count : q.size.toNat = cells.length := by
    rw [size, Int.toNat_natCast, List.length_map]
  rw [WebServer.contents, count]
  exact segment.walk

section Discard

variable {α : Type} {entryOf : α → Entry} {elements : List α}

/-- Remove so many elements, each at an index that is drawn anew: those that are
removed, in that order, and those that stay. -/
def draw (rand : Nat → Nat) : Nat → List α → List α × List α
  | 0, elements => ([], elements)
  | num + 1, elements =>
    let index := rand num % elements.length
    let rest := draw rand num (elements.eraseIdx index)
    (elements[index]?.toList ++ rest.1, rest.2)

/-- Each element is removed once or stays, and those that stay keep their order. -/
theorem draw_splits (rand : Nat → Nat) {num : Nat} (enough : num ≤ elements.length) :
    elements.Perm ((draw rand num elements).1 ++ (draw rand num elements).2) ∧
      (draw rand num elements).2.Sublist elements ∧
      (draw rand num elements).1.length = num := by
  induction num generalizing elements with
  | zero => exact ⟨List.Perm.refl _, List.Sublist.refl _, rfl⟩
  | succ num inductionHypothesis =>
    have inside : rand num % elements.length < elements.length := Nat.mod_lt _ (by omega)
    have left : num ≤ (elements.eraseIdx (rand num % elements.length)).length := by
      rw [List.length_eraseIdx_of_lt inside]
      omega
    obtain ⟨perm, sublist, count⟩ := inductionHypothesis left
    simp only [draw, List.getElem?_eq_getElem inside, Option.toList_some, List.cons_append,
      List.nil_append, List.length_cons, count]
    exact ⟨(List.getElem_cons_eraseIdx_perm inside).symm.trans (perm.cons _), sublist.trans (List.eraseIdx_sublist _ _), trivial⟩

/-- The loop of `queueDiscardX` on the list of the queue. -/
theorem discardLoop_draws (rand : Nat → Nat) {num : Nat} (holds : Holds q (elements.map entryOf))
    (enough : num ≤ elements.length) :
    ∃ shorter, discardLoop rand num q =
        some ((draw rand num elements).1.map fun x => (entryOf x).1, shorter) ∧
      Holds shorter ((draw rand num elements).2.map entryOf) := by
  induction num generalizing q elements with
  | zero => exact ⟨q, rfl, holds⟩
  | succ num inductionHypothesis =>
    have size : q.size = elements.length := by simpa [queueSize] using holds.length
    have inside : rand num % elements.length < elements.length := Nat.mod_lt _ (by omega)
    obtain ⟨shorter, removes, remains⟩ := queueRemoveByIndex_at holds
      (by simpa only [List.length_map] using inside)
    rw [List.eraseIdx_map] at remains
    obtain ⟨last, loop, final⟩ := inductionHypothesis remains (by
      rw [List.length_eraseIdx_of_lt inside]
      omega)
    refine ⟨last, ?_, final⟩
    rw [discardLoop, size, ← Int.natCast_emod, removes]
    simp [loop, draw, List.getElem?_eq_getElem inside]

/-- `queueDiscardX` on the list of the queue. -/
theorem queueDiscardX_draws (rand : Nat → Nat) (holds : Holds q (elements.map entryOf)) (num : Int) :
    ∃ shorter, queueDiscardX rand q num = some
        ((draw rand (min num elements.length).toNat elements).1.map fun x => (entryOf x).1, shorter) ∧
      Holds shorter ((draw rand (min num elements.length).toNat elements).2.map entryOf) := by
  have size : queueSize q = elements.length := by simpa using holds.length
  have count : (if num < queueSize q then num else queueSize q).toNat =
      (min num elements.length).toNat := by
    rw [size]
    split <;> omega
  unfold queueDiscardX
  rw [count]
  exact discardLoop_draws rand holds (by omega)

/-- `queueDiscardX` removes as many elements as asked for, as far as there are any. -/
theorem queueDiscardX_removes (rand : Nat → Nat) (holds : Holds q (elements.map entryOf)) (num : Int) :
    ∃ removed kept shorter,
      queueDiscardX rand q num = some (removed.map fun x => (entryOf x).1, shorter) ∧
      Holds shorter (kept.map entryOf) ∧ elements.Perm (removed ++ kept) ∧ kept.Sublist elements ∧
      removed.length = (min num elements.length).toNat := by
  obtain ⟨shorter, discards, remains⟩ := queueDiscardX_draws rand holds num
  exact ⟨_, _, shorter, discards, remains, draw_splits rand (by omega)⟩

end Discard

end OperatingSystems.WebServer
