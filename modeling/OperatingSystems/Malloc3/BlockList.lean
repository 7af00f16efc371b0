import OperatingSystems.Malloc3.Source
import OperatingSystems.RecordLinks

/-!
# The block list as a sorted doubly linked list

The records of the listed blocks are accessible, lie apart, and are joined by
their links. Under these conditions the three list functions are the list
operations their names say: `removeMetadata` erases a node, also when sizes of
linked nodes have been changed; `addMetadata` inserts a node at its place in
the order by size and address; `searchFreeBlock` finds the first free node that
is large enough. Each changes link cells only.
-/

namespace OperatingSystems.Malloc3

open Bytes Process MallocMetadata DoublyLinked

/-- The state with other bytes, another list head and a changed node count. -/
def relink (s : State) (bytes : Memory) (head : Nat) (delta : Int) : State :=
  { s with
    bytes := bytes
    globals := { s.globals with
      blockList := { s.globals.blockList with
        head := head, size := s.globals.blockList.size + delta } } }

/-- The block list as links. -/
def links (s : State) : Links Nat := ⟨s.globals.blockList.head, next s.bytes, prev s.bytes⟩

/-- These nodes are linked in this order, and their records are accessible and
do not overlap. -/
structure Linked (s : State) (nodes : List Nat) : Prop where
  chain : (links s).Represents 0 nodes
  mapped : ∀ n ∈ nodes, s.Mapped n 32
  apart : ∀ x ∈ nodes, ∀ y ∈ nodes, x ≠ y → Apart x y
  small : ∀ n ∈ nodes, n < 2 ^ 64

/-- The order of the list: by size, and by address among equal sizes. -/
def Before (bytes : Memory) (a b : Nat) : Prop :=
  size bytes a < size bytes b ∨ (size bytes a = size bytes b ∧ a < b)

theorem Before.trans {bytes : Memory} {a b c : Nat} (first : Before bytes a b)
    (second : Before bytes b c) : Before bytes a c := by
  unfold Before at *
  omega

theorem Before.asymm {bytes : Memory} {a b : Nat} (before : Before bytes a b) :
    ¬Before bytes b a := by
  unfold Before at *
  omega

/-- Distinct nodes are ordered one way or the other. -/
theorem before_total {bytes : Memory} {a b : Nat} (distinct : a ≠ b) :
    Before bytes a b ∨ Before bytes b a := by
  unfold Before
  omega

theorem countNode_returns {s : State} {delta : Int} :
    Returns (countNode delta) s () (relink s s.bytes s.globals.blockList.head delta) := rfl

theorem getHead_returns {s : State} : Returns getHead s s.globals.blockList.head s := rfl

/-- The state with another list head. -/
def withHead (s : State) (head : Nat) : State :=
  { s with globals := { s.globals with blockList := { s.globals.blockList with head := head } } }

theorem setHead_returns {s : State} {head : Nat} :
    Returns (setHead head) s () (withHead s head) := rfl

/-- A list of distinct proper addresses ends before the loop bound. -/
theorem Linked.length_lt {s : State} {nodes : List Nat} (linked : Linked s nodes) :
    nodes.length < loopBound := represents_length linked.chain linked.small

/-- Links, accessibility and addresses do not depend on the counters. -/
theorem Linked.relink_count {s : State} {nodes : List Nat} (linked : Linked s nodes) (delta : Int) :
    Linked (relink s s.bytes s.globals.blockList.head delta) nodes :=
  ⟨linked.chain, linked.mapped, linked.apart, linked.small⟩

/-- Linking a node between its neighbours puts it at their place of the list. -/
theorem Linked.splice {s t : State} {xs ys : List Nat} {a : Nat} (linked : Linked s (xs ++ ys))
    (proper : a ≠ 0) (fresh : a ∉ xs ++ ys) (apart : ∀ n ∈ xs ++ ys, Apart a n)
    (spliced : Spliced s.bytes t.bytes (xs.getLastD 0) a (ys.headD 0))
    (head : t.globals.blockList.head = if xs = [] then a else s.globals.blockList.head) :
    (links t).Represents 0 (xs ++ a :: ys) :=
  represents_splice linked.chain linked.apart proper fresh apart spliced head

/-- A record that may be linked: a proper accessible address apart from every
node. -/
structure Newcomer (s : State) (nodes : List Nat) (a : Nat) : Prop where
  proper : a ≠ 0
  small : a < 2 ^ 64
  mapped : s.Mapped a 32
  fresh : a ∉ nodes
  apart : ∀ n ∈ nodes, Apart a n

/-- The guard against runs of equal sizes, at a node that is there. -/
theorem runContinues_returns {s : State} {tested node a : Nat} (present : tested ≠ 0)
    (nodeMapped : s.Mapped node 32) (mapped : s.Mapped a 32) :
    Returns (runContinues tested node a) s
      (size s.bytes node == size s.bytes a && decide (node < a)) s := by
  unfold runContinues
  rw [if_neg present]
  exact Returns.bind (readSize_returns nodeMapped) (Returns.bind (readSize_returns mapped) Returns.pure)

/-- A list of two nodes or more has a node after its head. -/
theorem Linked.second {s : State} {nodes : List Nat} (linked : Linked s nodes)
    (two : 2 ≤ nodes.length) :
    ∃ first, s.globals.blockList.head = first ∧ first ∈ nodes ∧ next s.bytes first ≠ 0 := by
  match nodes, two with
  | first :: second :: rest, _ =>
    refine ⟨first, linked.chain.head, by simp, ?_⟩
    have follows : next s.bytes first = second := (linked.chain.around (l := [])).1
    rw [follows]
    intro same
    exact linked.chain.proper (by simp [same])

/-- Behind the last node the loop of `addMetadata` appends the new one. -/
theorem addMetadataLoop_last {s : State} {a iter : Nat} (fuel : Nat) (node : iter ≠ 0)
    (ends : next s.bytes iter = 0) (mapped : s.Mapped a 32) (iterMapped : s.Mapped iter 32) :
    Returns (addMetadataLoop a (fuel + 1) iter) s ()
      (s.withBytes (setNext (setNext (setPrev s.bytes a iter) a 0) iter a)) := by
  unfold addMetadataLoop
  rw [if_neg node]
  apply Returns.bind (readNext_returns iterMapped)
  rw [if_pos ends]
  exact Returns.bind (writePrev_returns mapped)
    (Returns.bind (writeNext_returns mapped) (writeNext_returns iterMapped))

/-- Before a successor that the new node precedes, the loop links it. -/
theorem addMetadataLoop_links {s : State} {a iter succ : Nat} (fuel : Nat) (node : iter ≠ 0)
    (follows : next s.bytes iter = succ) (succNode : succ ≠ 0) (small : succ < 2 ^ 64)
    (mapped : s.Mapped a 32) (iterMapped : s.Mapped iter 32) (succMapped : s.Mapped succ 32)
    (apart : Apart a iter) (here : Before s.bytes a succ) :
    Returns (addMetadataLoop a (fuel + 1) iter) s ()
      (s.withBytes (setPrev (setNext (setNext (setPrev s.bytes a iter) a succ) iter a) succ a)) := by
  have back : next (setPrev s.bytes a iter) iter = succ := by
    rw [next_setPrev (.inr apart.symm), follows]
  have link : next (setNext (setNext (setPrev s.bytes a iter) a succ) iter a) a = succ := by
    rw [next_setNext_apart apart, next_setNext small]
  unfold addMetadataLoop
  rw [if_neg node]
  apply Returns.bind (readNext_returns iterMapped)
  rw [follows, if_neg succNode]
  apply Returns.bind (readSize_returns mapped)
  apply Returns.bind (readSize_returns succMapped)
  rw [if_pos (by unfold Before at here; omega), if_pos (show _ ∨ _ from here)]
  apply Returns.bind (writePrev_returns mapped)
  refine Returns.bind (readNext_returns (s := s.withBytes _) iterMapped) ?_
  refine Returns.bind (writeNext_returns (s := s.withBytes _) mapped) ?_
  refine Returns.bind (writeNext_returns (s := s.withBytes _) iterMapped) ?_
  refine Returns.bind (readNext_returns (s := s.withBytes _) mapped) ?_
  simp only [Machine.withBytes, back, link]
  exact writePrev_returns (s := s.withBytes _) succMapped

/-- At a successor that precedes the new node both tests of the loop send it on: the
sizes differ, or the run of equal sizes continues. -/
theorem addMetadataLoop_passes {s : State} {a iter succ first fuel : Nat} {t : State}
    (node : iter ≠ 0) (follows : next s.bytes iter = succ) (succNode : succ ≠ 0)
    (mapped : s.Mapped a 32) (iterMapped : s.Mapped iter 32) (succMapped : s.Mapped succ 32)
    (isHead : s.globals.blockList.head = first) (firstMapped : s.Mapped first 32)
    (second : next s.bytes first ≠ 0) (precedes : Before s.bytes succ a)
    (run : Returns (addMetadataLoop a fuel succ) s () t) :
    Returns (addMetadataLoop a (fuel + 1) iter) s () t := by
  unfold addMetadataLoop
  rw [if_neg node]
  apply Returns.bind (readNext_returns iterMapped)
  rw [follows, if_neg succNode]
  apply Returns.bind (readSize_returns mapped)
  apply Returns.bind (readSize_returns succMapped)
  by_cases smaller : size s.bytes a ≤ size s.bytes succ
  · have equal : size s.bytes succ = size s.bytes a ∧ succ < a := by
      unfold Before at precedes
      omega
    have further : (size s.bytes succ == size s.bytes a && decide (succ < a)) = true := by
      simp only [equal.1, equal.2, beq_self_eq_true, decide_true, Bool.and_self]
    rw [if_pos smaller, if_neg (by omega)]
    apply Returns.bind (getHead_returns.to isHead)
    apply Returns.bind (readNext_returns firstMapped)
    apply Returns.bind (runContinues_returns second succMapped mapped)
    rw [if_pos further]
    apply Returns.bind (readNext_returns iterMapped)
    rw [follows]
    exact run
  · rw [if_neg smaller]
    apply Returns.bind (readNext_returns iterMapped)
    rw [follows]
    exact run

/-- From a node that precedes the new one, the loop of `addMetadata` walks over
the nodes that also precede it and links it before the first that does not.

The induction is on the nodes behind `iter`. -/
theorem addMetadataLoop_returns {s : State} {a : Nat} (front : List Nat) (iter : Nat)
    (back : List Nat) (fuel : Nat) (linked : Linked s (front ++ iter :: back))
    (newcomer : Newcomer s (front ++ iter :: back) a) (enough : back.length < fuel) :
    ∃ passed rest bytes, back = passed ++ rest ∧
      Returns (addMetadataLoop a fuel iter) s () (s.withBytes bytes) ∧
      (∀ n ∈ passed, Before s.bytes n a) ∧
      (∀ n, rest.head? = some n → Before s.bytes a n) ∧
      Spliced s.bytes bytes ((front ++ iter :: passed).getLastD 0) a (rest.headD 0) := by
  induction back generalizing front iter fuel with
  | nil =>
    obtain ⟨fuel, rfl⟩ : ∃ more, fuel = more + 1 := ⟨fuel - 1, by simp at enough; omega⟩
    have node : iter ≠ 0 := fun same => linked.chain.proper (by simp [same])
    have run := addMetadataLoop_last fuel node linked.chain.around.1 newcomer.mapped
      (linked.mapped iter (by simp))
    refine ⟨[], [], _, rfl, run, by simp, by simp, ?_⟩
    have last : (front ++ [iter]).getLastD 0 = iter := by simp
    rw [last]
    exact spliced_last node newcomer.small (linked.small iter (by simp))
      (newcomer.apart iter (by simp))
  | cons succ back inductionHypothesis =>
    obtain ⟨fuel, rfl⟩ : ∃ more, fuel = more + 1 := ⟨fuel - 1, by simp at enough; omega⟩
    have node : iter ≠ 0 := fun same => linked.chain.proper (by simp [same])
    have succNode : succ ≠ 0 := fun same => linked.chain.proper (by simp [same])
    have iterMapped : s.Mapped iter 32 := linked.mapped iter (by simp)
    have succMapped : s.Mapped succ 32 := linked.mapped succ (by simp)
    have follows : next s.bytes iter = succ := linked.chain.around.1
    by_cases here : Before s.bytes a succ
    · have small : succ < 2 ^ 64 := linked.small succ (by simp)
      have beside : Apart a iter := newcomer.apart iter (by simp)
      have run := addMetadataLoop_links fuel node follows succNode small newcomer.mapped
        iterMapped succMapped beside here
      refine ⟨[], succ :: back, _, rfl, run, by simp, by simpa using here, ?_⟩
      have distinct : iter ≠ succ := by
        have unique := linked.chain.distinct
        simp only [List.nodup_append, List.nodup_cons, List.mem_cons, not_or] at unique
        exact unique.2.1.1.1
      have last : (front ++ [iter]).getLastD 0 = iter := by simp
      rw [last]
      exact spliced_between node succNode newcomer.small (linked.small iter (by simp)) small beside
        (newcomer.apart succ (by simp)) (linked.apart iter (by simp) succ (by simp) distinct)
    · have differs : a ≠ succ := fun same => newcomer.fresh (by simp [same])
      have precedes : Before s.bytes succ a := (before_total differs).resolve_left here
      have regroup : front ++ iter :: succ :: back = (front ++ [iter]) ++ succ :: back := by simp
      obtain ⟨passed, rest, bytes, split, run, before, after, spliced⟩ :=
        inductionHypothesis (front ++ [iter]) succ fuel (regroup ▸ linked) (regroup ▸ newcomer)
          (by simpa using enough)
      obtain ⟨first, isHead, member, second⟩ := linked.second (by simp; omega)
      refine ⟨succ :: passed, rest, bytes, by rw [split]; rfl, ?_, ?_, after, by simpa using spliced⟩
      · exact addMetadataLoop_passes node follows succNode newcomer.mapped iterMapped succMapped isHead
          (linked.mapped first member) second precedes run
      · intro n member
        rcases List.mem_cons.mp member with rfl | member
        · exact precedes
        · exact before n member

theorem Before.le {bytes : Memory} {a b : Nat} (before : Before bytes a b) :
    size bytes a ≤ size bytes b := by
  unfold Before at before
  omega

/-- Without a node to test, no run of equal sizes continues. -/
theorem runContinues_null {s : State} {node a : Nat} :
    Returns (runContinues 0 node a) s false s := Returns.pure

/-- A run of equal sizes is only reported behind a head of the same size. -/
theorem addMetadata_loop {s : State} {a first : Nat} {rest : List Nat}
    (linked : Linked s (first :: rest)) (newcomer : Newcomer s (first :: rest) a)
    (sorted : (first :: rest).Pairwise (Before s.bytes)) (precedes : Before s.bytes first a) :
    ∃ front back bytes, first :: rest = front ++ back ∧ front ≠ [] ∧
      Returns (addMetadataLoop a loopBound first) s () (s.withBytes bytes) ∧
      (∀ n ∈ front, Before s.bytes n a) ∧ (∀ n ∈ back, Before s.bytes a n) ∧
      Spliced s.bytes bytes (front.getLastD 0) a (back.headD 0) := by
  have short : rest.length < loopBound := by
    have bound := linked.length_lt
    rw [List.length_cons] at bound
    omega
  obtain ⟨passed, back, bytes, split, run, before, after, spliced⟩ :=
    addMetadataLoop_returns [] first rest loopBound linked newcomer short
  refine ⟨first :: passed, back, bytes, by rw [split]; rfl, by simp, run, ?_, ?_, spliced⟩
  · intro n member
    rcases List.mem_cons.mp member with rfl | member
    · exact precedes
    · exact before n member
  · subst split
    have ordered := (List.pairwise_append.mp (List.pairwise_cons.mp sorted).2).2.1
    intro n member
    match back, member with
    | head :: back, member =>
      have beforeHead := after head rfl
      rcases List.mem_cons.mp member with rfl | member
      · exact beforeHead
      · exact beforeHead.trans ((List.pairwise_cons.mp ordered).1 n member)

theorem Newcomer.relink_count {s : State} {nodes : List Nat} {a : Nat} (newcomer : Newcomer s nodes a)
    (delta : Int) : Newcomer (relink s s.bytes s.globals.blockList.head delta) nodes a :=
  ⟨newcomer.proper, newcomer.small, newcomer.mapped, newcomer.fresh, newcomer.apart⟩

/-- Linking a node after another one puts it before that node's successor. -/
theorem linkAfter_returns {s : State} {a x y : Nat} (follows : next s.bytes x = y) (node : x ≠ 0)
    (smallA : a < 2 ^ 64) (smallX : x < 2 ^ 64) (mappedA : s.Mapped a 32) (mappedX : s.Mapped x 32)
    (left : Apart a x) (right : y ≠ 0 → s.Mapped y 32 ∧ Apart a y ∧ Apart x y) :
    ∃ bytes, Returns (linkAfter x a) s () (s.withBytes bytes) ∧ Spliced s.bytes bytes x a y := by
  have smallY : y < 2 ^ 64 := follows ▸ load_lt _ _ _
  have spliced := spliced_second (m := s.bytes) node smallA smallX smallY left fun proper =>
    (right proper).2
  have link : next (setNext (setPrev (setNext s.bytes a y) a x) x a) a = y := by
    rw [next_setNext_apart left, next_setPrev (.inl rfl), next_setNext smallY]
  have writes : ∀ {t : State},
      Returns (doIf (y ≠ 0) (writePrev y a))
        (s.withBytes (setNext (setPrev (setNext s.bytes a y) a x) x a)) () t →
      Returns (linkAfter x a) s () t := by
    intro t run
    apply Returns.bind ((readNext_returns mappedX).to follows)
    apply Returns.bind (writeNext_returns mappedA)
    refine Returns.bind (writePrev_returns (s := s.withBytes _) mappedA) ?_
    refine Returns.bind (writeNext_returns (s := s.withBytes _) mappedX) ?_
    exact Returns.bind (Returns.to (readNext_returns (by exact mappedA)) link) run
  by_cases last : y = 0
  · rw [if_neg (not_not.mpr last)] at spliced
    exact ⟨_, writes (doIf_neg (not_not.mpr last)), spliced⟩
  · rw [if_pos last] at spliced
    exact ⟨_, writes (doIf_pos last (writePrev_returns (s := s.withBytes _) (right last).1)), spliced⟩

/-- The state in which `addMetadata` looks for a place: the node is counted. -/
def counting (s : State) : State := relink s s.bytes s.globals.blockList.head 1

/-- `addMetadata` into an empty list. -/
theorem addMetadata_only {s : State} {a : Nat} (empty : s.globals.blockList.head = 0)
    (mapped : s.Mapped a 32) :
    Returns (addMetadata a) s () (relink s (setPrev (setNext s.bytes a 0) a 0) a 1) := by
  refine Returns.bind countNode_returns (Returns.bind (getHead_returns.to empty) ?_)
  refine Returns.ifPos rfl (Returns.bind setHead_returns ?_)
  apply Returns.bind (writeNext_returns (s := withHead (counting s) a) mapped)
  exact writePrev_returns (s := (withHead (counting s) a).withBytes _) mapped

section NonEmpty

variable {s t : State} {a first second : Nat} (isHead : s.globals.blockList.head = first)
  (node : first ≠ 0) (mapped : s.Mapped a 32) (firstMapped : s.Mapped first 32)

include isHead node mapped firstMapped

/-- `addMetadata` before the head. -/
theorem addMetadata_before (begins : prev s.bytes first = 0) (small : first < 2 ^ 64)
    (apart : Apart a first) (here : Before s.bytes a first) :
    Returns (addMetadata a) s ()
      (relink s (setPrev (setPrev (setNext s.bytes a first) a 0) first a) a 1) := by
  have stillBegins : prev (setNext s.bytes a first) first = 0 := by
    rw [prev_setNext (.inr apart.symm), begins]
  have link : next (setPrev (setNext s.bytes a first) a 0) a = first := by
    rw [next_setPrev (.inl rfl), next_setNext small]
  refine Returns.bind countNode_returns (Returns.bind (getHead_returns.to isHead) ?_)
  apply Returns.ifNeg node
  apply Returns.bind (readSize_returns (s := counting s) mapped)
  apply Returns.bind (readSize_returns (s := counting s) firstMapped)
  refine Returns.ifPos here.le (Returns.ifPos here ?_)
  apply Returns.bind (writeNext_returns (s := counting s) mapped)
  refine Returns.bind
    ((readPrev_returns (s := (counting s).withBytes _) firstMapped).to stillBegins) ?_
  apply Returns.bind (writePrev_returns (s := (counting s).withBytes _) mapped)
  apply Returns.bind ((readNext_returns (s := (counting s).withBytes _) mapped).to link)
  exact Returns.bind (writePrev_returns (s := (counting s).withBytes _) firstMapped) setHead_returns

/-- Behind a head of smaller size the loop decides. -/
theorem addMetadata_larger (larger : size s.bytes first < size s.bytes a)
    (run : Returns (addMetadataLoop a loopBound first) (counting s) () t) :
    Returns (addMetadata a) s () t := by
  refine Returns.bind countNode_returns (Returns.bind (getHead_returns.to isHead) ?_)
  apply Returns.ifNeg node
  apply Returns.bind (readSize_returns (s := counting s) mapped)
  apply Returns.bind (readSize_returns (s := counting s) firstMapped)
  exact Returns.ifNeg (Nat.not_le.mpr larger) run

/-- Behind a head of equal size the second node tells whether the run of equal sizes
continues. -/
theorem addMetadata_equal (equal : size s.bytes a = size s.bytes first)
    (behind : ¬Before s.bytes a first) (follows : next s.bytes first = second)
    (secondMapped : second ≠ 0 → s.Mapped second 32)
    (run : Returns (if second ≠ 0 ∧ size s.bytes second = size s.bytes a ∧ second < a
      then addMetadataLoop a loopBound first else linkAfter first a) (counting s) () t) :
    Returns (addMetadata a) s () t := by
  refine Returns.bind countNode_returns (Returns.bind (getHead_returns.to isHead) ?_)
  apply Returns.ifNeg node
  apply Returns.bind (readSize_returns (s := counting s) mapped)
  apply Returns.bind (readSize_returns (s := counting s) firstMapped)
  refine Returns.ifPos equal.le (Returns.ifNeg behind ?_)
  apply Returns.bind ((readNext_returns (s := counting s) firstMapped).to follows)
  by_cases last : second = 0
  · subst last
    exact Returns.bind runContinues_null (by simpa using run)
  · apply Returns.bind (runContinues_returns (s := counting s) last (secondMapped last) mapped)
    simpa [last, counting, relink] using run

end NonEmpty

/-- `addMetadata` links a new node at its place in the order: every node in
front of it precedes it, and it precedes every node behind it.

An empty list and a place before the head are handled without the loop, and so
is the place after a head of equal size. Otherwise the head precedes the new
node and the loop finds the place. -/
theorem addMetadata_place {s : State} {a : Nat} {nodes : List Nat} (linked : Linked s nodes)
    (newcomer : Newcomer s nodes a) (sorted : nodes.Pairwise (Before s.bytes)) :
    ∃ front back bytes, nodes = front ++ back ∧
      Returns (addMetadata a) s ()
        (relink s bytes (if front = [] then a else s.globals.blockList.head) 1) ∧
      (∀ n ∈ front, Before s.bytes n a) ∧ (∀ n ∈ back, Before s.bytes a n) ∧
      Spliced s.bytes bytes (front.getLastD 0) a (back.headD 0) := by
  have isHead : s.globals.blockList.head = nodes.headD 0 := linked.chain.head
  have mapped := newcomer.mapped
  match nodes, isHead with
  | [], isHead => exact ⟨[], [], _, rfl, addMetadata_only isHead mapped, by simp, by simp, spliced_only⟩
  | first :: rest, isHead =>
    have isHead : s.globals.blockList.head = first := isHead
    have node : first ≠ 0 := fun same => linked.chain.proper (by simp [same])
    have small : first < 2 ^ 64 := linked.small first (by simp)
    have firstMapped : s.Mapped first 32 := linked.mapped first (by simp)
    have differs : a ≠ first := fun same => newcomer.fresh (by simp [same])
    have apartFirst : Apart a first := newcomer.apart first (by simp)
    have ordered := List.pairwise_cons.mp sorted
    obtain ⟨follows, begins⟩ := linked.chain.around (l := [])
    by_cases here : Before s.bytes a first
    · have run := addMetadata_before isHead node mapped firstMapped begins small apartFirst here
      refine ⟨[], first :: rest, _, rfl, run, by simp, fun n member => ?_,
        spliced_first node newcomer.small small apartFirst⟩
      rcases List.mem_cons.mp member with rfl | member
      · exact here
      · exact here.trans (ordered.1 n member)
    have precedes : Before s.bytes first a := (before_total differs).resolve_left here
    obtain ⟨front, back, bytes, split, occupied, run, before, after, spliced⟩ :=
      addMetadata_loop (s := counting s) (linked.relink_count 1) (newcomer.relink_count 1) sorted precedes
    by_cases larger : size s.bytes first < size s.bytes a
    · refine ⟨front, back, bytes, split, ?_, before, after, spliced⟩
      rw [if_neg occupied]
      exact addMetadata_larger isHead node mapped firstMapped larger run
    have equal : size s.bytes a = size s.bytes first := by
      unfold Before at here precedes
      omega
    obtain ⟨second, isSecond⟩ : ∃ second, second = rest.headD 0 := ⟨_, rfl⟩
    have member : second ≠ 0 → second ∈ rest := fun proper => isSecond ▸ headD_mem (isSecond ▸ proper)
    have listed : second ≠ 0 → second ∈ first :: rest := fun proper =>
      List.mem_cons_of_mem first (member proper)
    have reaches : next s.bytes first = second := follows.trans isSecond.symm
    have opening : ∀ {u : State}, _ → Returns (addMetadata a) s () u := fun run =>
      addMetadata_equal isHead node mapped firstMapped equal here reaches
        (fun proper => linked.mapped second (listed proper)) run
    by_cases further : second ≠ 0 ∧ size s.bytes second = size s.bytes a ∧ second < a
    · refine ⟨front, back, bytes, split, ?_, before, after, spliced⟩
      rw [if_neg occupied]
      exact opening (Returns.ifPos further run)
    obtain ⟨bytes, run, spliced⟩ := linkAfter_returns (s := counting s) reaches node newcomer.small
      small mapped firstMapped apartFirst fun proper => ⟨linked.mapped second (listed proper),
        newcomer.apart second (listed proper), by
          apply linked.apart first (by simp) second (listed proper)
          rintro rfl
          exact (List.nodup_cons.mp linked.chain.distinct).1 (member proper)⟩
    refine ⟨[first], rest, bytes, rfl, opening (Returns.ifNeg further run), by simpa using precedes, ?_,
      by rw [← isSecond]; exact spliced⟩
    match rest, isSecond with
    | [], _ => simp
    | _ :: rest, rfl =>
      have beforeSecond : Before s.bytes a second := by
        have differs : a ≠ second := fun same => newcomer.fresh (by simp [same])
        have sizes := (ordered.1 second (by simp)).le
        have proper : second ≠ 0 := fun same => linked.chain.proper (by simp [same])
        unfold Before
        omega
      intro n inside
      rcases List.mem_cons.mp inside with rfl | inside
      · exact beforeSecond
      · exact beforeSecond.trans ((List.pairwise_cons.mp ordered.2).1 n inside)

/-- A change of links keeps the other fields of every record that is one of the
nodes or apart from them. -/
theorem size_links {left right : Memory} {nodes : List Nat} {a : Nat}
    (frame : Set.EqOn left right (linkCells nodes)ᶜ) (apart : ∀ n ∈ nodes, a = n ∨ Apart a n) :
    size left a = size right a :=
  size_frame frame fun x low high => by
    rintro ⟨n, member, inside⟩
    have := apart n member
    unfold Apart at this
    omega

theorem isFree_links {left right : Memory} {nodes : List Nat} {a : Nat}
    (frame : Set.EqOn left right (linkCells nodes)ᶜ) (apart : ∀ n ∈ nodes, a = n ∨ Apart a n) :
    isFree left a = isFree right a :=
  isFree_frame frame fun x low high => by
    rintro ⟨n, member, inside⟩
    have := apart n member
    unfold Apart at this
    omega

theorem Linked.beside {s : State} {nodes : List Nat} (linked : Linked s nodes) {a : Nat}
    (member : a ∈ nodes) : ∀ n ∈ nodes, a = n ∨ Apart a n := by
  intro n other
  by_cases same : a = n
  · exact Or.inl same
  · exact Or.inr (linked.apart a member n other same)

/-- The order of nodes survives a change of their links. -/
theorem sorted_links {left right : Memory} {nodes all : List Nat}
    (sorted : nodes.Pairwise (Before right)) (frame : Set.EqOn left right (linkCells all)ᶜ)
    (beside : ∀ a ∈ nodes, ∀ n ∈ all, a = n ∨ Apart a n) : nodes.Pairwise (Before left) := by
  refine sorted.imp_of_mem fun {x y} inX inY before => ?_
  unfold Before at before ⊢
  rw [size_links frame (beside x inX), size_links frame (beside y inY)]
  exact before

/-- `addMetadata` makes a sorted list of the old nodes and the new one, and
changes only their links. -/
theorem addMetadata_returns {s : State} {a : Nat} {nodes : List Nat} (linked : Linked s nodes)
    (newcomer : Newcomer s nodes a) (sorted : nodes.Pairwise (Before s.bytes)) :
    ∃ bytes head more, Returns (addMetadata a) s () (relink s bytes head 1) ∧
      more.Perm (a :: nodes) ∧ Linked (relink s bytes head 1) more ∧
      more.Pairwise (Before bytes) ∧ Set.EqOn bytes s.bytes (linkCells (a :: nodes))ᶜ := by
  obtain ⟨front, back, bytes, rfl, run, before, after, spliced⟩ :=
    addMetadata_place linked newcomer sorted
  have perm : (front ++ a :: back).Perm (a :: (front ++ back)) := List.perm_middle
  have frame : Set.EqOn bytes s.bytes (linkCells (a :: (front ++ back)))ᶜ :=
    spliced.outside (by simp)
      (fun node => List.mem_cons_of_mem a (List.mem_append_left back (getLastD_mem node)))
      (fun node => List.mem_cons_of_mem a (List.mem_append_right front (headD_mem node)))
  have apart : ∀ x ∈ a :: (front ++ back), ∀ y ∈ a :: (front ++ back), x ≠ y → Apart x y := by
    intro x inX y inY distinct
    rcases List.mem_cons.mp inX with rfl | oldX <;> rcases List.mem_cons.mp inY with rfl | oldY
    · exact absurd rfl distinct
    · exact newcomer.apart y oldY
    · exact (newcomer.apart x oldX).symm
    · exact linked.apart x oldX y oldY distinct
  refine ⟨bytes, _, front ++ a :: back, run, perm, ⟨?_, ?_, ?_, ?_⟩, ?_, frame⟩
  · exact linked.splice (t := relink s bytes _ 1) newcomer.proper newcomer.fresh newcomer.apart
      spliced rfl
  · intro n member
    rcases List.mem_cons.mp (perm.mem_iff.mp member) with rfl | member
    · exact newcomer.mapped
    · exact linked.mapped n member
  · intro x inX y inY
    exact apart x (perm.mem_iff.mp inX) y (perm.mem_iff.mp inY)
  · intro n member
    rcases List.mem_cons.mp (perm.mem_iff.mp member) with rfl | member
    · exact newcomer.small
    · exact linked.small n member
  · have placed : (front ++ a :: back).Pairwise (Before s.bytes) := by
      obtain ⟨sortedFront, sortedBack, across⟩ := List.pairwise_append.mp sorted
      refine List.pairwise_append.mpr ⟨sortedFront, List.pairwise_cons.mpr ⟨after, sortedBack⟩, ?_⟩
      intro x inFront y inBack
      rcases List.mem_cons.mp inBack with rfl | inBack
      · exact before x inFront
      · exact across x inFront y inBack
    refine sorted_links placed frame fun x inX n member => ?_
    by_cases same : x = n
    · exact Or.inl same
    · exact Or.inr (apart x (perm.mem_iff.mp inX) n member same)

/-- The bytes after the neighbours `x` and `y` of a node were joined; a null
neighbour has no record. -/
structure Bypassed (old new : Memory) (x y : Nat) : Prop where
  incoming : x ≠ 0 → next new x = y
  outgoing : y ≠ 0 → prev new y = x
  frame : ∀ z, (x ≠ 0 → z ∉ cells (x + 16) 8) → (y ≠ 0 → z ∉ cells (y + 24) 8) → new z = old z

/-- Joining two nodes changes their link cells only. -/
theorem Bypassed.outside {old new : Memory} {x y : Nat} {nodes : List Nat}
    (bypassed : Bypassed old new x y) (left : x ≠ 0 → x ∈ nodes) (right : y ≠ 0 → y ∈ nodes) :
    Set.EqOn new old (linkCells nodes)ᶜ := by
  intro z outside
  have clear : ∀ n ∈ nodes, ¬(n + 16 ≤ z ∧ z < n + 32) := fun n member inside =>
    outside ⟨n, member, inside⟩
  apply bypassed.frame
  · intro proper
    have := clear x (left proper)
    simp only [mem_cells]
    omega
  · intro proper
    have := clear y (right proper)
    simp only [mem_cells]
    omega

/-- Joining the neighbours of a node takes it off the list. -/
theorem represents_unlink {old new : Memory} {first start : Nat} {l r : List Nat} {a : Nat}
    (chain : (linksOf old first).Represents 0 (l ++ a :: r))
    (separate : ∀ x ∈ l ++ a :: r, ∀ y ∈ l ++ a :: r, x ≠ y → Apart x y)
    (bypassed : Bypassed old new (l.getLastD 0) (r.headD 0))
    (head : start = if l = [] then r.headD 0 else first) :
    (linksOf new start).Represents 0 (l ++ r) := by
  have known : ∀ n ∈ l ++ r, n ∈ l ++ a :: r := by
    intro n member
    rcases List.mem_append.mp member with front | back <;> simp [*]
  have nonzero : ∀ n ∈ l ++ r, n ≠ 0 := fun n member same =>
    chain.proper (same ▸ known n member)
  have last : l.getLastD 0 ≠ 0 → l.getLastD 0 ∈ l ++ r := fun node =>
    List.mem_append_left r (getLastD_mem node)
  have behind : r.headD 0 ≠ 0 → r.headD 0 ∈ l ++ r := fun node =>
    List.mem_append_right l (headD_mem node)
  have empty : l.getLastD 0 = 0 ↔ l = [] :=
    getLastD_eq_null fun member => chain.proper (known 0 (List.mem_append_left r member))
  have apart : ∀ x ∈ l ++ r, ∀ y ∈ l ++ r, x ≠ y → Apart x y := fun x inX y inY =>
    separate x (known x inX) y (known y inY)
  refine chain.unlink ?_ ?_ ?_
  · intro z inside distinct
    rcases List.mem_cons.mp inside with rfl | inside
    · have occupied : l ≠ [] := fun none => distinct (empty.mpr none).symm
      simp [Links.succ, linksOf, head, occupied]
    · simp only [Links.succ, linksOf, nonzero z inside, ↓reduceIte]
      refine load_congr fun x cell => ?_
      have clear := next_untouched apart inside last behind distinct cell
      exact bypassed.frame x clear.1 clear.2
  · intro z inside distinct
    refine load_congr fun x cell => ?_
    have clear := prev_untouched apart inside last behind distinct cell
    exact bypassed.frame x clear.1 clear.2
  · refine ⟨?_, bypassed.outgoing⟩
    by_cases none : l = []
    · simp [Links.succ, linksOf, none, head]
    · have node : l.getLastD 0 ≠ 0 := fun zero => none (empty.mp zero)
      simpa only [Links.succ, linksOf, node, ↓reduceIte] using bypassed.incoming node

theorem Linked.unlink {s t : State} {l r : List Nat} {a : Nat} (linked : Linked s (l ++ a :: r))
    (bypassed : Bypassed s.bytes t.bytes (l.getLastD 0) (r.headD 0))
    (head : t.globals.blockList.head = if l = [] then r.headD 0 else s.globals.blockList.head) :
    (links t).Represents 0 (l ++ r) :=
  represents_unlink linked.chain linked.apart bypassed head

/-- The write that takes off the first node, if another one follows. -/
theorem bypassed_first {m : Memory} {y : Nat} : Bypassed m (if y ≠ 0 then setPrev m y 0 else m) 0 y := by
  by_cases last : y = 0
  · rw [if_neg (not_not.mpr last)]
    exact ⟨fun node => absurd rfl node, fun node => absurd last node, fun _ _ _ => rfl⟩
  · rw [if_pos last]
    refine ⟨fun node => absurd rfl node, fun _ => prev_setPrev (by decide), fun z _ after => ?_⟩
    have after := after last
    simp only [mem_cells] at after
    exact setPrev_cell (by omega)

/-- The program of that write. -/
theorem unlinkFirst_returns {Globals : Type} {s : Machine Globals} {y : Nat} (mapped : y ≠ 0 → s.Mapped y 32) :
    Returns (doIf (y ≠ 0) (writePrev y 0)) s ()
      (s.withBytes (if y ≠ 0 then setPrev s.bytes y 0 else s.bytes)) := by
  by_cases last : y = 0
  · rw [if_neg (not_not.mpr last)]
    exact doIf_neg (not_not.mpr last)
  · rw [if_pos last]
    exact doIf_pos last (writePrev_returns (mapped last))

/-- The writes that join two neighbours. -/
theorem bypassed_of_writes {m : Memory} {x y : Nat} (node : x ≠ 0) (smallX : x < 2 ^ 64)
    (smallY : y < 2 ^ 64) (across : y ≠ 0 → Apart x y) :
    Bypassed m (if y ≠ 0 then setPrev (setNext m x y) y x else setNext m x y) x y := by
  by_cases last : y = 0
  · rw [if_neg (not_not.mpr last)]
    refine ⟨fun _ => next_setNext smallY, fun proper => absurd last proper, fun z left _ => ?_⟩
    have left := left node
    simp only [mem_cells] at left
    rw [setNext_cell (by omega)]
  · rw [if_pos last]
    refine ⟨fun _ => ?_, fun _ => prev_setPrev smallX, fun z left right => ?_⟩
    · rw [next_setPrev (.inr (across last)), next_setNext smallY]
    · have left := left node
      have right := right last
      simp only [mem_cells] at left right
      rw [setPrev_cell (by omega), setNext_cell (by omega)]

/-- At the node that it looks for, which is not the head, the loop of `removeMetadata`
joins the neighbours. -/
theorem removeMetadataLoop_joins {s : State} {a x y : Nat} (fuel : Nat) (node : a ≠ 0)
    (follows : next s.bytes a = y) (precedes : prev s.bytes a = x) (mapped : s.Mapped a 32)
    (mappedX : s.Mapped x 32) (mappedY : y ≠ 0 → s.Mapped y 32) (apart : Apart a x) :
    Returns (removeMetadataLoop a (fuel + 1) a) s ()
      (s.withBytes (if y ≠ 0 then setPrev (setNext s.bytes x y) y x else setNext s.bytes x y)) := by
  have still : next (setNext s.bytes x y) a = y := by
    rw [next_setNext_apart apart, follows]
  have kept : prev (setNext s.bytes x y) a = x := by
    rw [prev_setNext (.inr apart), precedes]
  unfold removeMetadataLoop
  refine Returns.ifNeg node (Returns.ifPos rfl ?_)
  apply Returns.bind ((readPrev_returns mapped).to precedes)
  apply Returns.bind ((readNext_returns mapped).to follows)
  apply Returns.bind (writeNext_returns mappedX)
  apply Returns.bind (Returns.to (readNext_returns (by exact mapped)) still)
  by_cases last : y = 0
  · rw [if_neg (not_not.mpr last)]
    exact doIf_neg (not_not.mpr last)
  · rw [if_pos last]
    refine doIf_pos last (Returns.bind (Returns.to (readPrev_returns (by exact mapped)) kept) ?_)
    exact writePrev_returns (s := s.withBytes _) (mappedY last)

/-- The loop of `removeMetadata` walks over the nodes in front of the one it
looks for, and joins the neighbours of that one.

The induction is on the nodes still to pass. The node found has a predecessor,
because the head is handled before the loop. -/
theorem removeMetadataLoop_returns {s : State} {a : Nat} (front passed back : List Nat) (fuel : Nat)
    (occupied : front ≠ []) (linked : Linked s (front ++ (passed ++ a :: back)))
    (enough : passed.length < fuel) :
    ∃ bytes, Returns (removeMetadataLoop a fuel ((passed ++ a :: back).headD 0)) s ()
        (s.withBytes bytes) ∧
      Bypassed s.bytes bytes ((front ++ passed).getLastD 0) (back.headD 0) := by
  induction passed generalizing front fuel with
  | nil =>
    obtain ⟨fuel, rfl⟩ : ∃ more, fuel = more + 1 := ⟨fuel - 1, by simp at enough; omega⟩
    obtain ⟨follows, precedes⟩ := linked.chain.around (l := front) (r := back) (a := a)
    obtain ⟨x, isLast⟩ : ∃ x, x = front.getLastD 0 := ⟨_, rfl⟩
    obtain ⟨y, isFirst⟩ : ∃ y, y = back.headD 0 := ⟨_, rfl⟩
    rw [← isFirst] at follows
    rw [← isLast] at precedes
    rw [List.append_nil, ← isLast, ← isFirst]
    have inFront : x ∈ front := by
      rcases List.eq_nil_or_concat front with rfl | ⟨more, last, rfl⟩
      · exact absurd rfl occupied
      · simp [isLast]
    have inBack : y ≠ 0 → y ∈ back := fun proper => isFirst ▸ headD_mem (isFirst ▸ proper)
    have unique := List.nodup_append.mp linked.chain.distinct
    have beside : Apart a x := linked.apart a (by simp) x (by simp [inFront])
      (fun same => unique.2.2 x inFront a (by simp) same.symm)
    have right : y ≠ 0 → Apart x y := fun proper =>
      linked.apart x (by simp [inFront]) y (by simp [inBack proper])
        (unique.2.2 x inFront y (by simp [inBack proper]))
    have run := removeMetadataLoop_joins fuel (fun same => linked.chain.proper (by simp [same])) follows
      precedes (linked.mapped a (by simp)) (linked.mapped x (by simp [inFront]))
      (fun proper => linked.mapped y (by simp [inBack proper])) beside
    refine ⟨_, run, bypassed_of_writes (fun same => linked.chain.proper (by simp [← same, inFront]))
      (linked.small x (by simp [inFront])) ?_ right⟩
    exact follows ▸ load_lt _ _ _
  | cons p passed inductionHypothesis =>
    obtain ⟨fuel, rfl⟩ : ∃ more, fuel = more + 1 := ⟨fuel - 1, by simp at enough; omega⟩
    have node : p ≠ 0 := fun same => linked.chain.proper (by simp [same])
    have differs : p ≠ a := by
      have unique := (List.nodup_append.mp linked.chain.distinct).2.1
      simp only [List.cons_append, List.nodup_cons, List.mem_append, List.mem_cons, not_or] at unique
      exact unique.1.2.1
    have follows : next s.bytes p = (passed ++ a :: back).headD 0 := linked.chain.around.1
    obtain ⟨bytes, run, bypassed⟩ := inductionHypothesis (front ++ [p]) fuel (by simp)
      (by simpa using linked) (by simpa using enough)
    refine ⟨bytes, ?_, by simpa using bypassed⟩
    unfold removeMetadataLoop
    refine Returns.ifNeg node (Returns.ifNeg differs ?_)
    exact Returns.bind ((readNext_returns (linked.mapped p (by simp))).to follows) run

/-- `removeMetadata` takes one node off the list and changes only the links of
the others. -/
theorem removeMetadata_returns {s : State} {a : Nat} {nodes : List Nat} (linked : Linked s nodes)
    (member : a ∈ nodes) :
    ∃ bytes head, Returns (removeMetadata a) s () (relink s bytes head (-1)) ∧
      Linked (relink s bytes head (-1)) (nodes.erase a) ∧
      Set.EqOn bytes s.bytes (linkCells (nodes.erase a))ᶜ := by
  obtain ⟨front, back, rfl⟩ := List.append_of_mem member
  have unique := linked.chain.distinct
  have absent : a ∉ front := fun inFront =>
    (List.nodup_append.mp unique).2.2 a inFront a (by simp) rfl
  have erased : (front ++ a :: back).erase a = front ++ back := by
    rw [List.erase_append_right _ absent, List.erase_cons_head]
  have left : front.getLastD 0 ≠ 0 → front.getLastD 0 ∈ front ++ back := fun node =>
    List.mem_append_left back (getLastD_mem node)
  have right : back.headD 0 ≠ 0 → back.headD 0 ∈ front ++ back := fun node =>
    List.mem_append_right front (headD_mem node)
  have isHead : s.globals.blockList.head = (front ++ a :: back).headD 0 := linked.chain.head
  have follows : next s.bytes a = back.headD 0 := linked.chain.around.1
  have keep : ∀ {t : State}, t.heapStart = s.heapStart → t.brk = s.brk → t.maps = s.maps →
      (links t).Represents 0 (front ++ back) → Linked t (front ++ back) := by
    intro t start brk maps chain
    have known : ∀ n ∈ front ++ back, n ∈ front ++ a :: back := by
      intro n inside
      rcases List.mem_append.mp inside with inFront | inBack <;> simp [*]
    refine ⟨chain, fun n inside => ?_, fun x inX y inY => linked.apart x (known x inX) y (known y inY),
      fun n inside => linked.small n (known n inside)⟩
    have mapped := linked.mapped n (known n inside)
    simpa only [Machine.Mapped, start, brk, maps] using mapped
  rw [erased]
  have mappedA : s.Mapped a 32 := linked.mapped a (by simp)
  have counted : Returns (countNode (-1)) s () _ := countNode_returns
  match front, isHead with
  | [], isHead =>
    have isHead : s.globals.blockList.head = a := isHead
    obtain ⟨y, isFirst⟩ : ∃ y, y = back.headD 0 := ⟨_, rfl⟩
    have inBack : y ≠ 0 → y ∈ back := fun proper => isFirst ▸ headD_mem (isFirst ▸ proper)
    have begin : ∀ {t : State},
        Returns (doIf (y ≠ 0) (writePrev y 0)) (relink s s.bytes y (-1)) () t →
        Returns (removeMetadata a) s () t := by
      intro t run
      refine Returns.bind counted (Returns.bind (getHead_returns.to isHead) (Returns.ifPos rfl ?_))
      refine Returns.bind (Returns.to (readNext_returns (by exact mappedA))
        (follows.trans isFirst.symm)) ?_
      exact Returns.bind setHead_returns run
    have finish : ∀ bytes, Bypassed s.bytes bytes 0 y →
        Linked (relink s bytes y (-1)) ([] ++ back) ∧
          Set.EqOn bytes s.bytes (linkCells ([] ++ back))ᶜ := by
      intro bytes bypassed
      refine ⟨keep rfl rfl rfl (linked.unlink (l := []) (t := relink s bytes y (-1)) ?_ ?_), ?_⟩
      · exact isFirst ▸ bypassed
      · simpa [relink] using isFirst
      · exact bypassed.outside (fun node => absurd rfl node) inBack
    have mappedY : y ≠ 0 → (relink s s.bytes y (-1)).Mapped y 32 := fun node =>
      linked.mapped y (by simp [inBack node])
    exact ⟨_, y, begin (unlinkFirst_returns mappedY), finish _ bypassed_first⟩
  | first :: front, isHead =>
    have isHead : s.globals.blockList.head = first := isHead
    have node : first ≠ a := fun same => absent (by simp [same])
    have reached : next s.bytes first = (front ++ a :: back).headD 0 :=
      (linked.chain.around (l := [])).1
    have regroup : [first] ++ (front ++ a :: back) = first :: front ++ a :: back := by simp
    have linkedNow := linked.relink_count (-1)
    have enough : front.length < loopBound := by
      have := linked.length_lt
      simp only [List.length_append, List.length_cons] at this
      omega
    obtain ⟨bytes, run, bypassed⟩ := removeMetadataLoop_returns [first] front back loopBound
      (by simp) (regroup ▸ linkedNow) enough
    have bypassed : Bypassed s.bytes bytes ((first :: front).getLastD 0) (back.headD 0) := bypassed
    refine ⟨bytes, s.globals.blockList.head, ?_, keep rfl rfl rfl ?_,
      bypassed.outside left right⟩
    · refine Returns.bind counted (Returns.bind (getHead_returns.to isHead) (Returns.ifNeg node ?_))
      refine Returns.bind (Returns.to (readNext_returns ?_) reached) run
      exact linked.mapped first (by simp)
    · exact linked.unlink (t := relink s bytes _ (-1)) bypassed rfl

/-- The nodes `searchFreeBlock` looks for. -/
def suits (bytes : Memory) (n a : Nat) : Bool := isFree bytes a && decide (n ≤ size bytes a)

/-- The loop of `searchFreeBlock` stops at the first node of the rest that
suits. -/
theorem searchFreeBlockLoop_returns {s : State} (passed rest : List Nat) (n fuel : Nat)
    (linked : Linked s (passed ++ rest)) (enough : rest.length < fuel) :
    Returns (searchFreeBlockLoop n fuel (rest.headD 0)) s
      ((rest.find? (suits s.bytes n)).getD 0) s := by
  induction rest generalizing passed fuel with
  | nil =>
    obtain ⟨fuel, rfl⟩ : ∃ more, fuel = more + 1 := ⟨fuel - 1, by simp at enough; omega⟩
    unfold searchFreeBlockLoop
    exact Returns.ifPos rfl Returns.pure
  | cons a rest inductionHypothesis =>
    obtain ⟨fuel, rfl⟩ : ∃ more, fuel = more + 1 := ⟨fuel - 1, by simp at enough; omega⟩
    have node : a ≠ 0 := fun same => linked.chain.proper (by simp [same])
    have mapped : s.Mapped a 32 := linked.mapped a (by simp)
    have follows : next s.bytes a = rest.headD 0 := linked.chain.around.1
    have later := inductionHypothesis (passed ++ [a]) fuel (by simpa using linked)
      (by simpa using enough)
    unfold searchFreeBlockLoop
    apply Returns.ifNeg node
    refine Returns.bind (readFree_returns mapped) (Returns.bind (readSize_returns mapped) ?_)
    by_cases found : suits s.bytes n a = true
    · rw [List.find?_cons_of_pos found]
      exact Returns.ifPos (by simpa [suits] using found) Returns.pure
    · rw [List.find?_cons_of_neg found]
      apply Returns.ifNeg (by simpa [suits] using found)
      exact Returns.bind ((readNext_returns mapped).to follows) later

/-- `searchFreeBlock` returns the first node that suits, null if there is
none, and changes nothing. -/
theorem searchFreeBlock_returns {s : State} {nodes : List Nat} (linked : Linked s nodes) (n : Nat) :
    Returns (searchFreeBlock n) s ((nodes.find? (suits s.bytes n)).getD 0) s := by
  unfold searchFreeBlock
  apply Returns.bind (getHead_returns.to linked.chain.head)
  exact searchFreeBlockLoop_returns [] nodes n loopBound linked linked.length_lt

/-- What a search for `n` bytes among these nodes comes to: null when no free node is
large enough, else the smallest one, of the lowest address among equals. -/
inductive Chosen (bytes : Memory) (nodes : List Nat) (n p : Nat) : Prop
  | none (null : p = 0) (short : ∀ x ∈ nodes, isFree bytes x = true → size bytes x < n)
  | some (proper : p ≠ 0) (member : p ∈ nodes) (free : isFree bytes p = true)
      (fits : n ≤ size bytes p)
      (least : ∀ x ∈ nodes, isFree bytes x = true → n ≤ size bytes x → x = p ∨ Before bytes p x)

/-- In a sorted list the first node that suits is the best fit. -/
theorem searchFreeBlock_chosen {s : State} {nodes : List Nat} (linked : Linked s nodes)
    (sorted : nodes.Pairwise (Before s.bytes)) (n : Nat) :
    ∃ p, Returns (searchFreeBlock n) s p s ∧ Chosen s.bytes nodes n p := by
  refine ⟨_, searchFreeBlock_returns linked n, ?_⟩
  cases found : nodes.find? (suits s.bytes n) with
  | none =>
    refine .none rfl fun x member free => ?_
    have unfit := List.find?_eq_none.mp found x member
    simpa [suits, free] using unfit
  | some p =>
    obtain ⟨fit, passed, rest, rfl, unfit⟩ := List.find?_eq_some_iff_append.mp found
    simp only [suits, Bool.and_eq_true, decide_eq_true_eq] at fit
    have proper : p ≠ 0 := fun same => linked.chain.proper (by simp [same])
    refine .some proper (by simp) fit.1 fit.2 fun x member free fits => ?_
    rcases List.mem_append.mp member with before | after
    · have rejected := unfit x before
      simp [suits, free, fits] at rejected
    · refine (List.mem_cons.mp after).imp_right fun behind => ?_
      exact (List.pairwise_cons.mp (List.pairwise_append.mp sorted).2.1).1 x behind

/-- The list survives a change of the bytes outside its links. -/
theorem Linked.congr {s t : State} {nodes : List Nat} {changed : Set Nat} (linked : Linked s nodes)
    (head : t.globals.blockList.head = s.globals.blockList.head)
    (frame : Set.EqOn t.bytes s.bytes changedᶜ)
    (clear : ∀ n ∈ nodes, ∀ x, n + 16 ≤ x → x < n + 32 → x ∉ changed)
    (mapped : ∀ n ∈ nodes, t.Mapped n 32) : Linked t nodes := by
  refine ⟨linked.chain.congr head ?_ ?_, mapped, linked.apart, linked.small⟩
  · intro n member
    exact next_frame frame fun x low high => clear n member x low (by omega)
  · intro n member
    exact prev_frame frame fun x low high => clear n member x (by omega) high

end OperatingSystems.Malloc3
