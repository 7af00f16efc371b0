import Mathlib.Data.List.Chain
import Mathlib.Data.List.Nodup

/-!
# Doubly linked lists as observed through their links

A list is a head and two link functions on an arbitrary type of nodes with a
null value. Its null position stands before the first node, so that taking the
head and following a `next` link are one operation, and the first and the last
node need no cases of their own: a represented sequence is a chain of joined
neighbours from null to null.

Two edits are enough for every list operation. `unlink` joins the neighbours of
a node to each other; `splice` puts a new node between two neighbours. Both
are stated by the links they require, not by the order of the writes that
produce them.
-/

namespace OperatingSystems.DoublyLinked

universe u
variable {α : Type u}

/-- A head and the two links of every node. -/
structure Links (α : Type u) where
  head : α
  next : α → α
  prev : α → α

variable [DecidableEq α] (null : α)

/-- The node after a position; the null position precedes the head. -/
def Links.succ (links : Links α) (x : α) : α := if x = null then links.head else links.next x

/-- Neighbours know each other. Null is never asked for its predecessor. -/
def Links.Joined (links : Links α) (x y : α) : Prop :=
  links.succ null x = y ∧ (y ≠ null → links.prev y = x)

/-- The nodes met from `x` on, at most so many. -/
def Links.walk (links : Links α) : Nat → α → List α
  | 0, _ => []
  | fuel + 1, x => if x = null then [] else x :: links.walk fuel (links.next x)

/-- The links hold exactly this sequence of distinct proper nodes. -/
structure Links.Represents (links : Links α) (nodes : List α) : Prop where
  proper : null ∉ nodes
  distinct : nodes.Nodup
  joined : (null :: (nodes ++ [null])).IsChain (links.Joined null)

variable {null} {old new : Links α} {xs ys : List α} {a : α}

omit [DecidableEq α] in
/-- A chain from null to null splits at any place into what lies before it,
the join across it, and what lies after it. -/
theorem chain_split (relation : α → α → Prop) (xs ys : List α) :
    (null :: (xs ++ ys ++ [null])).IsChain relation ↔
      (null :: xs).IsChain relation ∧ (ys ++ [null]).IsChain relation ∧
        relation (xs.getLastD null) (ys.headD null) := by
  have regroup : null :: (xs ++ ys ++ [null]) = (null :: xs) ++ (ys ++ [null]) := by simp
  have last : (null :: xs).getLast? = some (xs.getLastD null) := by
    cases xs <;> simp [List.getLast?_cons]
  have first : (ys ++ [null]).head? = some (ys.headD null) := by
    cases ys <;> simp
  rw [regroup, List.isChain_append, last, first]
  simp

omit [DecidableEq α] in
/-- A chain without repetition keeps its joins when the relation is only asked
of pairs whose left member is not the last and whose right member is not the
first. -/
theorem chain_imp {relation other : α → α → Prop} {nodes : List α} (distinct : nodes.Nodup)
    (chain : nodes.IsChain relation)
    (imp : ∀ x ∈ nodes, ∀ y ∈ nodes, nodes.getLast? ≠ some x → nodes.head? ≠ some y →
      relation x y → other x y) : nodes.IsChain other := by
  rw [List.isChain_iff_getElem] at chain ⊢
  intro i inside
  refine imp _ (List.getElem_mem _) _ (List.getElem_mem _) ?_ ?_ (chain i inside)
  · rw [List.getLast?_eq_getElem?, List.getElem?_eq_getElem (by omega)]
    intro same
    have index := (distinct.getElem_inj_iff).mp (Option.some.inj same)
    omega
  · rw [List.head?_eq_getElem?, List.getElem?_eq_getElem (by omega)]
    intro same
    have index := (distinct.getElem_inj_iff).mp (Option.some.inj same)
    omega

/-- The joins before a place survive an edit of the links across it. -/
theorem front_kept (proper : null ∉ xs) (distinct : xs.Nodup)
    (chain : (null :: xs).IsChain (old.Joined null))
    (succ : ∀ z ∈ null :: xs, z ≠ xs.getLastD null → new.succ null z = old.succ null z)
    (prev : ∀ z ∈ xs, new.prev z = old.prev z) :
    (null :: xs).IsChain (new.Joined null) := by
  apply chain_imp (List.nodup_cons.mpr ⟨proper, distinct⟩) chain
  rintro x inside y member notLast notFirst ⟨forward, backward⟩
  have notLast' : x ≠ xs.getLastD null := by
    intro same
    apply notLast
    cases xs <;> simp_all [List.getLast?_cons]
  have inTail : y ∈ xs := by
    rcases List.mem_cons.mp member with same | inTail
    · simp [same] at notFirst
    · exact inTail
  exact ⟨(succ x inside notLast').trans forward, fun isNode => (prev y inTail).trans (backward isNode)⟩

/-- The joins after a place survive an edit of the links across it. -/
theorem back_kept (proper : null ∉ ys) (distinct : ys.Nodup)
    (chain : (ys ++ [null]).IsChain (old.Joined null))
    (succ : ∀ z ∈ ys, new.succ null z = old.succ null z)
    (prev : ∀ z ∈ ys, z ≠ ys.headD null → new.prev z = old.prev z) :
    (ys ++ [null]).IsChain (new.Joined null) := by
  have unique : (ys ++ [null]).Nodup := by
    rw [List.nodup_append]
    refine ⟨distinct, by simp, ?_⟩
    rintro x inside y same rfl
    exact proper (List.mem_singleton.mp same ▸ inside)
  apply chain_imp unique chain
  rintro x inside y member notLast notFirst ⟨forward, backward⟩
  have inFront : x ∈ ys := by
    rcases List.mem_append.mp inside with inFront | same
    · exact inFront
    · simp [List.mem_singleton.mp same] at notLast
  refine ⟨(succ x inFront).trans forward, fun isNode => ?_⟩
  have inTail : y ∈ ys := by
    rcases List.mem_append.mp member with inTail | same
    · exact inTail
    · exact absurd (List.mem_singleton.mp same) isNode
  have notFirst' : y ≠ ys.headD null := by
    intro same
    apply notFirst
    cases ys <;> simp_all
  exact (prev y inTail notFirst').trans (backward isNode)

omit [DecidableEq α] in
/-- The first node behind a place is no node in front of it. -/
theorem front_not_head (proper : null ∉ xs) (disjoint : ∀ z ∈ xs, z ∉ ys) :
    ∀ z ∈ xs, z ≠ ys.headD null := by
  rintro z inside rfl
  cases ys with
  | nil => exact proper inside
  | cons y ys => exact disjoint y inside (by simp)

omit [DecidableEq α] in
/-- The last node in front of a place is no node behind it. -/
theorem back_not_last (proper : null ∉ ys) (disjoint : ∀ z ∈ xs, z ∉ ys) :
    ∀ z ∈ ys, z ≠ xs.getLastD null := by
  rintro z inside rfl
  rcases List.eq_nil_or_concat xs with rfl | ⟨front, last, rfl⟩
  · exact proper inside
  · exact disjoint last (by simp) (by simpa using inside)

omit [DecidableEq α] in
/-- A proper last position is a node. -/
theorem getLastD_mem (node : xs.getLastD null ≠ null) : xs.getLastD null ∈ xs := by
  rcases List.eq_nil_or_concat xs with rfl | ⟨front, last, rfl⟩
  · exact absurd rfl node
  · simp

omit [DecidableEq α] in
/-- The last position in front of a place is null when no node is there. -/
theorem getLastD_eq_null (proper : null ∉ xs) : xs.getLastD null = null ↔ xs = [] := by
  constructor
  · intro last
    rcases List.eq_nil_or_concat xs with rfl | ⟨front, final, rfl⟩
    · rfl
    · obtain rfl : final = null := by simpa using last
      exact absurd proper (by simp)
  · rintro rfl
    rfl

omit [DecidableEq α] in
/-- A proper first position is a node. -/
theorem headD_mem (node : ys.headD null ≠ null) : ys.headD null ∈ ys := by
  cases ys with
  | nil => exact absurd rfl node
  | cons y ys => simp

/-- A list of no nodes is a null head. -/
theorem represents_nil : old.Represents null [] ↔ old.head = null := by
  constructor
  · rintro ⟨_, _, joined⟩
    have join := List.isChain_pair.mp joined
    simpa [Links.succ] using join.1
  · intro empty
    refine ⟨by simp, List.nodup_nil, ?_⟩
    simpa [Links.Joined, Links.succ] using empty

/-- The neighbours of a represented node. -/
theorem Links.Represents.around {l r : List α} (represents : old.Represents null (l ++ a :: r)) :
    old.next a = r.headD null ∧ old.prev a = l.getLastD null := by
  obtain ⟨proper, _, joined⟩ := represents
  have node : a ≠ null := by
    intro same
    exact proper (by simp [same])
  have incoming := ((chain_split (old.Joined null) l (a :: r)).mp joined).2.2
  have outgoing : old.Joined null a (r.headD null) := by
    have regroup : l ++ a :: r = l ++ [a] ++ r := by simp
    rw [regroup] at joined
    simpa using ((chain_split (old.Joined null) (l ++ [a]) r).mp joined).2.2
  exact ⟨by simpa [Links.Joined, Links.succ, node] using outgoing.1, incoming.2 node⟩

/-- Following the links from a node meets the rest of its chain. -/
theorem walk_chain {links : Links α} (proper : null ∉ ys) (x : α)
    (joined : (x :: (ys ++ [null])).IsChain (links.Joined null)) :
    links.walk null ys.length (links.succ null x) = ys := by
  induction ys generalizing x with
  | nil => rfl
  | cons y ys inductionHypothesis =>
    obtain ⟨first, rest⟩ := List.isChain_cons_cons.mp joined
    obtain ⟨node, proper⟩ := not_or.mp (mt List.mem_cons.mpr proper)
    have step : links.succ null y = links.next y := if_neg (Ne.symm node)
    rw [first.1, List.length_cons, Links.walk, if_neg (Ne.symm node), ← step,
      inductionHypothesis proper y rest]

/-- Following the links from the head meets every node in order. -/
theorem Links.Represents.walk (represents : old.Represents null ys) :
    old.walk null ys.length old.head = ys := by
  have start : old.succ null null = old.head := if_pos rfl
  rw [← start]
  exact walk_chain represents.proper null represents.joined

/-- The head is the first node, and null when there is none. -/
theorem Links.Represents.head (represents : old.Represents null ys) : old.head = ys.headD null := by
  have joined := ((chain_split (old.Joined null) [] ys).mp (by simpa using represents.joined)).2.2
  simpa [Links.succ] using joined.1

/-- The links of a represented node stay in the list. -/
theorem Links.Represents.closed (represents : old.Represents null ys) (member : a ∈ ys) :
    (old.next a = null ∨ old.next a ∈ ys) ∧ (old.prev a = null ∨ old.prev a ∈ ys) := by
  obtain ⟨front, back, rfl⟩ := List.append_of_mem member
  obtain ⟨next, prev⟩ := represents.around
  rw [next, prev]
  constructor
  · by_cases last : back.headD null = null
    · exact Or.inl last
    · exact Or.inr (List.mem_append_right front (List.mem_cons_of_mem a (headD_mem last)))
  · by_cases first : front.getLastD null = null
    · exact Or.inl first
    · exact Or.inr (List.mem_append_left _ (getLastD_mem first))

/-- Links that agree on the nodes represent the same list. -/
theorem Links.Represents.congr (represents : old.Represents null ys) (head : new.head = old.head)
    (next : ∀ z ∈ ys, new.next z = old.next z) (prev : ∀ z ∈ ys, new.prev z = old.prev z) :
    new.Represents null ys := by
  obtain ⟨proper, distinct, joined⟩ := represents
  refine ⟨proper, distinct, ?_⟩
  have pieces := (chain_split (old.Joined null) [] ys).mp (by simpa using joined)
  have succ : ∀ z ∈ ys, new.succ null z = old.succ null z := by
    intro z inside
    have node : z ≠ null := fun same => proper (same ▸ inside)
    simpa [Links.succ, node] using next z inside
  have rest := back_kept proper distinct pieces.2.1 succ (fun z inside _ => prev z inside)
  have across : new.Joined null null (ys.headD null) := by
    have first := pieces.2.2
    refine ⟨by simpa [Links.succ, head] using first.1, fun node => ?_⟩
    rw [prev _ (headD_mem node)]
    simpa using first.2 node
  simpa using (chain_split (new.Joined null) [] ys).mpr ⟨by simp, rest, by simpa using across⟩

/-- Joining the neighbours of a node to each other removes it. -/
theorem Links.Represents.unlink (represents : old.Represents null (xs ++ a :: ys))
    (succ : ∀ z ∈ null :: (xs ++ ys), z ≠ xs.getLastD null → new.succ null z = old.succ null z)
    (prev : ∀ z ∈ xs ++ ys, z ≠ ys.headD null → new.prev z = old.prev z)
    (across : new.Joined null (xs.getLastD null) (ys.headD null)) :
    new.Represents null (xs ++ ys) := by
  obtain ⟨proper, distinct, joined⟩ := represents
  have regroup : xs ++ a :: ys = xs ++ [a] ++ ys := by simp
  have before := ((chain_split (old.Joined null) xs (a :: ys)).mp joined).1
  have after := ((chain_split (old.Joined null) (xs ++ [a]) ys).mp (regroup ▸ joined)).2.1
  simp only [List.mem_append, List.mem_cons, not_or] at proper
  obtain ⟨distinctFront, distinctBack, disjoint⟩ := List.nodup_append.mp distinct
  have apart : ∀ z ∈ xs, z ∉ ys := fun z front back =>
    disjoint z front z (List.mem_cons_of_mem a back) rfl
  have headBack := front_not_head proper.1 apart
  have lastFront := back_not_last proper.2.2 apart
  refine ⟨by simp [proper], ?_, ?_⟩
  · refine List.nodup_append.mpr ⟨distinctFront, (List.nodup_cons.mp distinctBack).2, ?_⟩
    intro x inFront y inBack
    exact disjoint x inFront y (List.mem_cons_of_mem a inBack)
  · refine (chain_split (new.Joined null) xs ys).mpr ⟨?_, ?_, across⟩
    · refine front_kept proper.1 distinctFront before ?_ ?_
      · intro z inside
        exact succ z (List.cons_subset_cons null (List.subset_append_left xs ys) inside)
      · intro z inside
        exact prev z (List.mem_append_left _ inside) (headBack z inside)
    · refine back_kept proper.2.2 (List.nodup_cons.mp distinctBack).2 after ?_ ?_
      · intro z inside
        exact succ z (by simp [inside]) (lastFront z inside)
      · intro z inside
        exact prev z (List.mem_append_right _ inside)

/-- Putting a new node between two neighbours inserts it there. -/
theorem Links.Represents.splice (represents : old.Represents null (xs ++ ys)) (node : a ≠ null)
    (fresh : a ∉ xs ++ ys)
    (succ : ∀ z ∈ null :: (xs ++ ys), z ≠ xs.getLastD null → new.succ null z = old.succ null z)
    (prev : ∀ z ∈ xs ++ ys, z ≠ ys.headD null → new.prev z = old.prev z)
    (incoming : new.Joined null (xs.getLastD null) a)
    (outgoing : new.Joined null a (ys.headD null)) :
    new.Represents null (xs ++ a :: ys) := by
  obtain ⟨proper, distinct, joined⟩ := represents
  obtain ⟨before, after, _⟩ := (chain_split (old.Joined null) xs ys).mp joined
  simp only [List.mem_append, not_or] at proper fresh
  obtain ⟨distinctFront, distinctBack, disjoint⟩ := List.nodup_append.mp distinct
  have apart : ∀ z ∈ xs, z ∉ ys := fun z front back => disjoint z front z back rfl
  have headBack := front_not_head proper.1 apart
  have lastFront := back_not_last proper.2 apart
  refine ⟨by simp [proper, node.symm], ?_, ?_⟩
  · refine List.nodup_append.mpr ⟨distinctFront, List.nodup_cons.mpr ⟨fresh.2, distinctBack⟩, ?_⟩
    intro x inFront y inBack
    rcases List.mem_cons.mp inBack with rfl | inBack
    · intro same
      exact fresh.1 (same ▸ inFront)
    · exact disjoint x inFront y inBack
  · have back : (ys ++ [null]).IsChain (new.Joined null) := by
      refine back_kept proper.2 distinctBack after ?_ ?_
      · intro z inside
        exact succ z (by simp [inside]) (lastFront z inside)
      · intro z inside
        exact prev z (List.mem_append_right _ inside)
    have tail : ((a :: ys) ++ [null]).IsChain (new.Joined null) := by
      cases ys with
      | nil => simpa using outgoing
      | cons y ys => simpa using ⟨by simpa using outgoing, by simpa using back⟩
    refine (chain_split (new.Joined null) xs (a :: ys)).mpr ⟨?_, tail, by simpa using incoming⟩
    refine front_kept proper.1 distinctFront before ?_ ?_
    · intro z inside
      exact succ z (List.cons_subset_cons null (List.subset_append_left xs ys) inside)
    · intro z inside
      exact prev z (List.mem_append_left _ inside) (headBack z inside)

end OperatingSystems.DoublyLinked
