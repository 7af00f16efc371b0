import OperatingSystems.MallocMetadata

/-!
# Records joined by their links

The records of an allocator form a doubly linked list through their own link
fields. Linking a record writes the fields of at most three records; when the
records lie apart, this inserts one node into the list and leaves every other
link as it was.
-/

namespace OperatingSystems.MallocMetadata

open Bytes DoublyLinked

/-! Fields under a change of another field, or of a record apart. -/

section Fields

variable {bytes : Memory} {a b value : Nat}

theorem next_setNext_apart (apart : Apart a b) : next (setNext bytes b value) a = next bytes a :=
  next_frame setNext_outside fun x low high => by
    rcases apart with below | above <;> simp only [mem_cells] <;> omega

theorem next_setPrev (beside : a = b ∨ Apart a b) :
    next (setPrev bytes b value) a = next bytes a :=
  next_frame setPrev_outside fun x low high => by
    rcases beside with rfl | below | above <;> simp only [mem_cells] <;> omega

theorem prev_setPrev_apart (apart : Apart a b) : prev (setPrev bytes b value) a = prev bytes a :=
  prev_frame setPrev_outside fun x low high => by
    rcases apart with below | above <;> simp only [mem_cells] <;> omega

theorem prev_setNext (beside : a = b ∨ Apart a b) :
    prev (setNext bytes b value) a = prev bytes a :=
  prev_frame setNext_outside fun x low high => by
    rcases beside with rfl | below | above <;> simp only [mem_cells] <;> omega

end Fields

/-- The records as links, from this head on. -/
def linksOf (bytes : Memory) (head : Nat) : Links Nat := ⟨head, next bytes, prev bytes⟩

/-- A list of distinct proper addresses is shorter than the address space. -/
theorem represents_length {bytes : Memory} {head : Nat} {nodes : List Nat}
    (chain : (linksOf bytes head).Represents 0 nodes) (small : ∀ n ∈ nodes, n < 2 ^ 64) :
    nodes.length < 2 ^ 64 := by
  have proper : (0 :: nodes).Nodup := List.nodup_cons.mpr ⟨chain.proper, chain.distinct⟩
  have within : 0 :: nodes ⊆ List.range (2 ^ 64) := by
    intro n member
    rcases List.mem_cons.mp member with rfl | member
    · simp
    · exact List.mem_range.mpr (small n member)
  have bound := proper.length_le_of_subset within
  simp only [List.length_cons, List.length_range] at bound
  exact bound

/-- The bytes after a new node `a` was linked between `x` and `y`; a null
neighbour has no record. -/
structure Spliced (old new : Memory) (x a y : Nat) : Prop where
  next : next new a = y
  prev : prev new a = x
  incoming : x ≠ 0 → MallocMetadata.next new x = a
  outgoing : y ≠ 0 → MallocMetadata.prev new y = a
  frame : ∀ z, z ∉ cells (a + 16) 16 → (x ≠ 0 → z ∉ cells (x + 16) 8) →
    (y ≠ 0 → z ∉ cells (y + 24) 8) → new z = old z

/-- A splice changes link cells of its three nodes only. -/
theorem Spliced.outside {old new : Memory} {x a y : Nat} {nodes : List Nat}
    (spliced : Spliced old new x a y) (here : a ∈ nodes) (left : x ≠ 0 → x ∈ nodes)
    (right : y ≠ 0 → y ∈ nodes) : Set.EqOn new old (linkCells nodes)ᶜ := by
  intro z outside
  have clear : ∀ n ∈ nodes, ¬(n + 16 ≤ z ∧ z < n + 32) := fun n member inside =>
    outside ⟨n, member, inside⟩
  apply spliced.frame
  · have := clear a here
    simp only [mem_cells]
    omega
  · intro proper
    have := clear x (left proper)
    simp only [mem_cells]
    omega
  · intro proper
    have := clear y (right proper)
    simp only [mem_cells]
    omega

/-- The link cells of two neighbours that are written hold no `next` of another node
than the first. -/
theorem next_untouched {nodes : List Nat} {x y z cell : Nat}
    (separate : ∀ a ∈ nodes, ∀ b ∈ nodes, a ≠ b → Apart a b) (inside : z ∈ nodes)
    (left : x ≠ 0 → x ∈ nodes) (right : y ≠ 0 → y ∈ nodes) (distinct : z ≠ x)
    (here : z + 16 ≤ cell ∧ cell < z + 16 + 8) :
    (x ≠ 0 → cell ∉ cells (x + 16) 8) ∧ (y ≠ 0 → cell ∉ cells (y + 24) 8) := by
  simp only [mem_cells]
  constructor
  · intro node
    have apart := separate z inside x (left node) distinct
    unfold Apart at apart
    omega
  · intro node
    by_cases same : z = y
    · omega
    · have apart := separate z inside y (right node) same
      unfold Apart at apart
      omega

/-- They hold no `prev` of another node than the second. -/
theorem prev_untouched {nodes : List Nat} {x y z cell : Nat}
    (separate : ∀ a ∈ nodes, ∀ b ∈ nodes, a ≠ b → Apart a b) (inside : z ∈ nodes)
    (left : x ≠ 0 → x ∈ nodes) (right : y ≠ 0 → y ∈ nodes) (distinct : z ≠ y)
    (here : z + 24 ≤ cell ∧ cell < z + 24 + 8) :
    (x ≠ 0 → cell ∉ cells (x + 16) 8) ∧ (y ≠ 0 → cell ∉ cells (y + 24) 8) := by
  simp only [mem_cells]
  constructor
  · intro node
    by_cases same : z = x
    · omega
    · have apart := separate z inside x (left node) same
      unfold Apart at apart
      omega
  · intro node
    have apart := separate z inside y (right node) distinct
    unfold Apart at apart
    omega

/-- Linking a node between its neighbours puts it at their place of the list.
Records apart from the three keep their links because no written cell is theirs.
-/
theorem represents_splice {old new : Memory} {first start : Nat} {xs ys : List Nat} {a : Nat}
    (chain : (linksOf old first).Represents 0 (xs ++ ys))
    (separate : ∀ x ∈ xs ++ ys, ∀ y ∈ xs ++ ys, x ≠ y → Apart x y)
    (proper : a ≠ 0) (fresh : a ∉ xs ++ ys) (apart : ∀ n ∈ xs ++ ys, Apart a n)
    (spliced : Spliced old new (xs.getLastD 0) a (ys.headD 0))
    (head : start = if xs = [] then a else first) :
    (linksOf new start).Represents 0 (xs ++ a :: ys) := by
  have nonzero : ∀ n ∈ xs ++ ys, n ≠ 0 := fun n member same => chain.proper (same ▸ member)
  have last : xs.getLastD 0 ≠ 0 → xs.getLastD 0 ∈ xs ++ ys := fun node =>
    List.mem_append_left ys (getLastD_mem node)
  have first : ys.headD 0 ≠ 0 → ys.headD 0 ∈ xs ++ ys := fun node =>
    List.mem_append_right xs (headD_mem node)
  have empty : xs.getLastD 0 = 0 ↔ xs = [] :=
    getLastD_eq_null fun member => chain.proper (List.mem_append_left ys member)
  refine chain.splice proper fresh ?_ ?_ ?_ ?_
  · intro z inside distinct
    rcases List.mem_cons.mp inside with rfl | inside
    · have occupied : xs ≠ [] := fun none => distinct (empty.mpr none).symm
      simp [Links.succ, linksOf, head, occupied]
    · simp only [Links.succ, linksOf, nonzero z inside, ↓reduceIte]
      refine load_congr fun x cell => ?_
      have clear := next_untouched separate inside last first distinct cell
      refine spliced.frame x ?_ clear.1 clear.2
      have beside := apart z inside
      simp only [mem_cells, Apart] at *
      omega
  · intro z inside distinct
    refine load_congr fun x cell => ?_
    have clear := prev_untouched separate inside last first distinct cell
    refine spliced.frame x ?_ clear.1 clear.2
    have beside := apart z inside
    simp only [mem_cells, Apart] at *
    omega
  · refine ⟨?_, fun _ => spliced.prev⟩
    by_cases none : xs = []
    · simp [Links.succ, linksOf, none, head]
    · have node : xs.getLastD 0 ≠ 0 := fun zero => none (empty.mp zero)
      simpa only [Links.succ, linksOf, node, ↓reduceIte] using spliced.incoming node
  · refine ⟨?_, spliced.outgoing⟩
    simpa only [Links.succ, linksOf, proper, ↓reduceIte] using spliced.next

section Splices

variable {m : Memory} {x a y : Nat}

theorem setNext_cell {bytes : Memory} {b value z : Nat} (outside : ¬(b + 16 ≤ z ∧ z < b + 24)) :
    setNext bytes b value z = bytes z := setNext_outside outside

theorem setPrev_cell {bytes : Memory} {b value z : Nat} (outside : ¬(b + 24 ≤ z ∧ z < b + 32)) :
    setPrev bytes b value z = bytes z := setPrev_outside outside

/-- The writes that append after the last node. -/
theorem spliced_last (node : x ≠ 0) (smallA : a < 2 ^ 64) (smallX : x < 2 ^ 64)
    (left : Apart a x) :
    Spliced m (setNext (setNext (setPrev m a x) a 0) x a) x a 0 where
  next := by rw [next_setNext_apart left, next_setNext (by decide)]
  prev := by rw [prev_setNext (.inr left), prev_setNext (.inl rfl), prev_setPrev smallX]
  incoming := fun _ => next_setNext smallA
  outgoing := fun proper => absurd rfl proper
  frame := fun z here before _ => by
    have before := before node
    simp only [mem_cells] at here before
    rw [setNext_cell (by omega), setNext_cell (by omega), setPrev_cell (by omega)]

/-- The writes that insert between two nodes. -/
theorem spliced_between (node : x ≠ 0) (next : y ≠ 0) (smallA : a < 2 ^ 64) (smallX : x < 2 ^ 64)
    (smallY : y < 2 ^ 64) (left : Apart a x) (right : Apart a y) (across : Apart x y) :
    Spliced m (setPrev (setNext (setNext (setPrev m a x) a y) x a) y a) x a y where
  next := by
    rw [next_setPrev (.inr right), next_setNext_apart left, next_setNext smallY]
  prev := by
    rw [prev_setPrev_apart right, prev_setNext (.inr left), prev_setNext (.inl rfl),
      prev_setPrev smallX]
  incoming := fun _ => by rw [next_setPrev (.inr across), next_setNext smallA]
  outgoing := fun _ => prev_setPrev smallA
  frame := fun z here before after => by
    have before := before node
    have after := after next
    simp only [mem_cells] at here before after
    rw [setPrev_cell (by omega), setNext_cell (by omega), setNext_cell (by omega),
      setPrev_cell (by omega)]

/-- The writes that insert after the first node, before the node `y` if there
is one. -/
theorem spliced_second (node : x ≠ 0) (smallA : a < 2 ^ 64) (smallX : x < 2 ^ 64)
    (smallY : y < 2 ^ 64) (left : Apart a x) (right : y ≠ 0 → Apart a y ∧ Apart x y) :
    Spliced m
      (if y ≠ 0 then setPrev (setNext (setPrev (setNext m a y) a x) x a) y a
        else setNext (setPrev (setNext m a y) a x) x a) x a y := by
  by_cases next : y = 0
  · rw [if_neg (by simpa using next)]
    refine ⟨?_, ?_, fun _ => next_setNext smallA, fun proper => absurd next proper, ?_⟩
    · rw [next_setNext_apart left, next_setPrev (.inl rfl), next_setNext smallY]
    · rw [prev_setNext (.inr left), prev_setPrev smallX]
    · intro z here before _
      have before := before node
      simp only [mem_cells] at here before
      rw [setNext_cell (by omega), setPrev_cell (by omega), setNext_cell (by omega)]
  · obtain ⟨right, across⟩ := right next
    rw [if_pos next]
    refine ⟨?_, ?_, fun _ => ?_, fun _ => prev_setPrev smallA, ?_⟩
    · rw [next_setPrev (.inr right), next_setNext_apart left, next_setPrev (.inl rfl),
        next_setNext smallY]
    · rw [prev_setPrev_apart right, prev_setNext (.inr left), prev_setPrev smallX]
    · rw [next_setPrev (.inr across), next_setNext smallA]
    · intro z here before after
      have before := before node
      have after := after next
      simp only [mem_cells] at here before after
      rw [setPrev_cell (by omega), setNext_cell (by omega), setPrev_cell (by omega),
        setNext_cell (by omega)]

/-- The writes of the first node of an empty list. -/
theorem spliced_only : Spliced m (setPrev (setNext m a 0) a 0) 0 a 0 where
  next := by rw [next_setPrev (.inl rfl), next_setNext (by decide)]
  prev := prev_setPrev (by decide)
  incoming := fun proper => absurd rfl proper
  outgoing := fun proper => absurd rfl proper
  frame := fun z here _ _ => by
    simp only [mem_cells] at here
    rw [setPrev_cell (by omega), setNext_cell (by omega)]

/-- The writes that insert before the first node. -/
theorem spliced_first (next : y ≠ 0) (smallA : a < 2 ^ 64) (smallY : y < 2 ^ 64)
    (right : Apart a y) :
    Spliced m (setPrev (setPrev (setNext m a y) a 0) y a) 0 a y where
  next := by rw [next_setPrev (.inr right), next_setPrev (.inl rfl), next_setNext smallY]
  prev := by rw [prev_setPrev_apart right, prev_setPrev (by decide)]
  incoming := fun proper => absurd rfl proper
  outgoing := fun _ => prev_setPrev smallA
  frame := fun z here _ after => by
    have after := after next
    simp only [mem_cells] at here after
    rw [setPrev_cell (by omega), setPrev_cell (by omega), setNext_cell (by omega)]

/-- The same writes in another order, as a list does that always inserts there. -/
theorem spliced_pushed (next : y ≠ 0) (smallA : a < 2 ^ 64) (smallY : y < 2 ^ 64) (right : Apart a y) :
    Spliced m (setPrev (setNext (setPrev m y a) a y) a 0) 0 a y where
  next := by rw [next_setPrev (.inl rfl), next_setNext smallY]
  prev := prev_setPrev (by decide)
  incoming := fun proper => absurd rfl proper
  outgoing := fun _ => by
    rw [prev_setPrev_apart right.symm, prev_setNext (.inr right.symm), prev_setPrev smallA]
  frame := fun z here _ after => by
    have after := after next
    simp only [mem_cells] at here after
    rw [setPrev_cell (by omega), setNext_cell (by omega), setPrev_cell (by omega)]

end Splices

end OperatingSystems.MallocMetadata
