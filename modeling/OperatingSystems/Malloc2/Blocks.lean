import OperatingSystems.Malloc2.Heap

/-!
# Reusing, releasing and carving blocks

The three things that happen to a block: its flag is cleared or set, with the
free counters, and a new block is put above all others at the end of the list.
Bytes of payloads play no part in the invariant.
-/

namespace OperatingSystems.Malloc2

open Bytes Process MallocMetadata DoublyLinked

variable {s t : State} {blocks front back : List Block} {b : Block} {a n : Nat} {m : Memory}

/-- The block with this flag. -/
def Block.mark (b : Block) (flag : Bool) : Block := { b with free := flag }

@[simp] theorem mark_address (b : Block) (flag : Bool) : (b.mark flag).address = b.address := rfl

@[simp] theorem mark_size (b : Block) (flag : Bool) : (b.mark flag).size = b.size := rfl

@[simp] theorem mark_free (b : Block) (flag : Bool) : (b.mark flag).free = flag := rfl

/-- The state after the flag of a block and the list's fields were written. -/
def marked (s : State) (a : Nat) (flag : Bool) (list : BlockList) : State :=
  { s with
    bytes := setFree s.bytes a flag
    globals := { s.globals with blockList := list } }

/-- The counters follow a block that is reused. -/
theorem tally_reuse (used : b.free = true) (sound : Sound s (front ++ b :: back)) :
    (tally (front ++ b :: back)).update 0 (wrapSub 0 1) 0 (wrapSub 0 b.size) 0 =
      tally (front ++ b.mark false :: back) := by
  have total := sound.total
  have part := free_le (front ++ b :: back)
  have few : (front ++ b :: back).countP Block.free ≤ (front ++ b :: back).length :=
    List.countP_le_length
  simp only [List.countP_append, List.countP_cons, List.filter_append, List.filter_cons, List.map_append,
    List.map_cons, List.sum_append, List.sum_cons, List.length_append, List.length_cons, used, if_true]
    at total part few
  simp only [tally, BlockList.update, wrap, wrapSub, List.countP_append, List.countP_cons,
    List.filter_append, List.filter_cons, List.map_append, List.map_cons, List.sum_append,
    List.sum_cons, List.length_append, List.length_cons, used, mark_free, mark_size, mark_address, if_true,
    Bool.false_eq_true, if_false, BlockList.mk.injEq]
  refine ⟨trivial, ?_, ?_, ?_, ?_, ?_⟩ <;> omega

/-- The counters follow a block that is released. -/
theorem tally_release (used : b.free = false) (sound : Sound s (front ++ b :: back)) :
    (tally (front ++ b :: back)).update 0 1 0 b.size 0 = tally (front ++ b.mark true :: back) := by
  have total := sound.total
  have before := free_le front
  have behind := free_le back
  have few : front.countP Block.free ≤ front.length := List.countP_le_length
  have more : back.countP Block.free ≤ back.length := List.countP_le_length
  simp only [List.map_append, List.map_cons, List.sum_append, List.sum_cons, List.length_append,
    List.length_cons] at total
  simp only [tally, BlockList.update, wrap, List.countP_append, List.countP_cons,
    List.filter_append, List.filter_cons, List.map_append, List.map_cons, List.sum_append,
    List.sum_cons, List.length_append, List.length_cons, used, mark_free, mark_size, mark_address, if_true,
    Bool.false_eq_true, if_false, BlockList.mk.injEq]
  refine ⟨trivial, ?_, ?_, ?_, ?_, ?_⟩ <;> omega

/-- The counters follow a block that is carved. -/
theorem tally_carve {list : BlockList} (b : Block) (used : b.free = false)
    (small : 32 * blocks.length + 32 + (blocks.map Block.size).sum + b.size < 2 ^ 64)
    (counted : { list with head := (blocks.map Block.address).headD 0 } = tally blocks)
    (head : list.head = ((blocks ++ [b]).map Block.address).headD 0) :
    list.update 1 0 b.size 0 32 = tally (blocks ++ [b]) := by
  have part := free_le blocks
  have few : blocks.countP Block.free ≤ blocks.length := List.countP_le_length
  simp only [tally, BlockList.mk.injEq] at counted
  obtain ⟨_, all, free, bytes, freeBytes, records⟩ := counted
  simp only [tally, BlockList.update, wrap, all, free, bytes, freeBytes, records, head,
    List.countP_append, List.countP_singleton, List.filter_append, List.map_append, List.sum_append,
    List.length_append, List.length_singleton, List.filter_singleton, used, BlockList.mk.injEq]
  simp only [cond_false, List.map_nil, List.sum_nil, List.map_cons, List.sum_cons, Bool.false_eq_true,
    if_false]
  refine ⟨trivial, ?_, ?_, ?_, ?_, ?_⟩ <;> omega

/-- The flag is all that changes when it is written. -/
theorem setFree_fields {flag : Bool} {x : Nat} (beside : x = a ∨ Apart x a) :
    next (setFree m a flag) x = next m x ∧ prev (setFree m a flag) x = prev m x ∧
      size (setFree m a flag) x = size m x := by
  refine ⟨next_frame setFree_outside fun y low high => ?_,
    prev_frame setFree_outside fun y low high => ?_, size_frame setFree_outside fun y low high => ?_⟩
  all_goals
    rcases beside with rfl | below | above <;> simp only [mem_cells] <;> omega

theorem isFree_apart {flag : Bool} {x : Nat} (apart : Apart x a) :
    isFree (setFree m a flag) x = isFree m x :=
  isFree_frame setFree_outside fun y low high => by
    rcases apart with below | above <;> simp only [mem_cells] <;> omega

namespace Sound

/-- A header of one block is apart from those of the others. -/
theorem beside (sound : Sound s (front ++ b :: back)) {x : Nat}
    (member : x ∈ (front ++ b :: back).map Block.address) : x = b.address ∨ Apart x b.address := by
  by_cases same : x = b.address
  · exact Or.inl same
  · exact Or.inr (sound.separate x member b.address (by simp) same)

/-- Writing the flag of a block and the counters with it. -/
theorem mark (sound : Sound s (front ++ b :: back)) {flag : Bool} {list : BlockList}
    (counters : list = tally (front ++ b.mark flag :: back)) :
    Sound (marked s b.address flag list) (front ++ b.mark flag :: back) := by
  have addresses : (front ++ b.mark flag :: back).map Block.address =
      (front ++ b :: back).map Block.address := by simp
  have old : ∀ c ∈ front ++ back, c ∈ front ++ b :: back ∧ Apart c.address b.address := by
    intro c member
    have listed : c ∈ front ++ b :: back := by
      rcases List.mem_append.mp member with inFront | inBack <;> simp [*]
    refine ⟨listed, (sound.beside (List.mem_map_of_mem listed)).resolve_left fun same => ?_⟩
    have distinct := sound.chain.distinct
    rw [List.map_append, List.map_cons, List.nodup_middle, List.nodup_cons, ← List.map_append,
      ← same] at distinct
    exact distinct.1 (List.mem_map_of_mem member)
  have cases : ∀ c ∈ front ++ b.mark flag :: back, c = b.mark flag ∨ c ∈ front ++ back := by
    intro c member
    rcases List.mem_append.mp member with inFront | inBack
    · exact Or.inr (List.mem_append_left _ inFront)
    · rcases List.mem_cons.mp inBack with same | inBack
      · exact Or.inl same
      · exact Or.inr (List.mem_append_right _ inBack)
  have first : list.head = s.globals.blockList.head := by
    rw [counters, sound.counters]
    simp [tally]
  constructor
  · rw [addresses]
    refine sound.chain.congr first (fun x member => ?_) (fun x member => ?_)
    · exact (setFree_fields (sound.beside member)).1
    · exact (setFree_fields (sound.beside member)).2.1
  · intro c member
    rcases cases c member with rfl | other
    · exact ⟨(setFree_fields (Or.inl rfl)).2.2.trans (sound.stored b (by simp)).1, isFree_setFree⟩
    · obtain ⟨listed, apart⟩ := old c other
      exact ⟨(setFree_fields (Or.inr apart)).2.2.trans (sound.stored c listed).1,
        (isFree_apart apart).trans (sound.stored c listed).2⟩
  · have ordered := sound.ordered
    simp only [List.pairwise_append, List.pairwise_cons, List.mem_cons] at ordered ⊢
    refine ⟨ordered.1, ordered.2.1, ?_⟩
    rintro c inFront d (rfl | inBack)
    · exact ordered.2.2 c inFront b (Or.inl rfl)
    · exact ordered.2.2 c inFront d (Or.inr inBack)
  · intro c member
    rcases cases c member with rfl | other
    · exact sound.within b (by simp)
    · exact sound.within c (old c other).1
  · exact sound.proper
  · exact counters
  · simpa [marked] using sound.carved

/-- Only the headers matter. -/
theorem frame (sound : Sound s blocks) (same : Set.EqOn m s.bytes (headers blocks)) :
    Sound (s.withBytes m) blocks := by
  have kept : Set.EqOn m s.bytes (headers blocks)ᶜᶜ := by rwa [compl_compl]
  have inside : ∀ b ∈ blocks, ∀ x, b.address ≤ x → x < b.address + 32 → x ∉ (headers blocks)ᶜ :=
    fun b member x low high out => out ⟨b, member, low, high⟩
  constructor
  · refine sound.chain.congr rfl (fun x member => ?_) (fun x member => ?_)
    · obtain ⟨b, listed, rfl⟩ := List.mem_map.mp member
      exact next_frame kept fun x low high => inside b listed x (by omega) (by omega)
    · obtain ⟨b, listed, rfl⟩ := List.mem_map.mp member
      exact prev_frame kept fun x low high => inside b listed x (by omega) (by omega)
  · intro b member
    have sized := size_frame (a := b.address) kept fun x low high => inside b member x low (by omega)
    have flag := isFree_frame (a := b.address) kept fun x low high => inside b member x (by omega) (by omega)
    exact ⟨sized.trans (sound.stored b member).1, flag.trans (sound.stored b member).2⟩
  · exact sound.ordered
  · exact sound.within
  · exact sound.proper
  · exact sound.counters
  · exact sound.carved

/-- A call that only uses up an answer leaves the heap as it was. -/
theorem answered (sound : Sound s blocks) {replies : List Reply} :
    Sound { s with replies := replies } blocks :=
  ⟨sound.chain, sound.stored, sound.ordered, sound.within, sound.proper, sound.counters, sound.carved⟩

end Sound

/-- Behind a node below the new one the loop walks to the end of the list. -/
theorem addMetadataLoop_appends (before : List Nat) (iter : Nat) (behind : List Nat) (fuel : Nat)
    (chain : (linksOf s.bytes s.globals.blockList.head).Represents 0 (before ++ iter :: behind))
    (mapped : ∀ x ∈ before ++ iter :: behind, s.Mapped x 32) (here : s.Mapped a 32)
    (below : ∀ x ∈ before ++ iter :: behind, x + 32 ≤ a) (enough : behind.length < fuel) :
    Returns (addMetadataLoop a fuel iter) s () (s.withBytes (setNext
      (setNext (setPrev s.bytes a ((iter :: behind).getLastD 0)) a 0)
      ((iter :: behind).getLastD 0) a)) := by
  induction behind generalizing before iter fuel with
  | nil =>
    obtain ⟨fuel, rfl⟩ : ∃ more, fuel = more + 1 := ⟨fuel - 1, by simp at enough; omega⟩
    have node : iter ≠ 0 := fun same => chain.proper (by simp [same])
    have there : s.Mapped iter 32 := mapped iter (by simp)
    have ends : next s.bytes iter = 0 := chain.around.1
    refine Returns.ifNeg node (Returns.bind ((readNext_returns there).to ends) (Returns.ifPos rfl ?_))
    exact Returns.bind (writePrev_returns here) (Returns.bind (writeNext_returns (s := s.withBytes _) here)
      (writeNext_returns (s := s.withBytes _) there))
  | cons succ behind inductionHypothesis =>
    obtain ⟨fuel, rfl⟩ : ∃ more, fuel = more + 1 := ⟨fuel - 1, by simp at enough; omega⟩
    have node : iter ≠ 0 := fun same => chain.proper (by simp [same])
    have other : succ ≠ 0 := fun same => chain.proper (by simp [same])
    have there : s.Mapped iter 32 := mapped iter (by simp)
    have follows : next s.bytes iter = succ := chain.around.1
    have lower := below succ (by simp)
    have regroup : before ++ iter :: succ :: behind = (before ++ [iter]) ++ succ :: behind := by simp
    have rest := inductionHypothesis (before ++ [iter]) succ fuel (regroup ▸ chain) (regroup ▸ mapped)
      (regroup ▸ below) (by simpa using enough)
    refine Returns.ifNeg node (Returns.bind ((readNext_returns there).to follows) ?_)
    refine Returns.ifNeg other (Returns.ifNeg (by omega) ?_)
    apply Returns.bind ((readNext_returns there).to follows)
    simpa using rest

/-- The state with other bytes and another list head. -/
def relinked (s : State) (bytes : Memory) (head : Nat) : State :=
  { s with
    bytes := bytes
    globals := { s.globals with blockList := { s.globals.blockList with head := head } } }

/-- A new block above all others is linked behind them. The first block keeps
the null links it has from the system. -/
theorem addMetadata_appends {nodes : List Nat}
    (chain : (linksOf s.bytes s.globals.blockList.head).Represents 0 nodes)
    (mapped : ∀ x ∈ nodes, s.Mapped x 32) (here : s.Mapped a 32) (below : ∀ x ∈ nodes, x + 32 ≤ a)
    (small : a < 2 ^ 64) (noNext : next s.bytes a = 0) (noPrev : prev s.bytes a = 0) :
    ∃ bytes, Returns (addMetadata a) s ()
        (relinked s bytes (if nodes = [] then a else s.globals.blockList.head)) ∧
      Spliced s.bytes bytes (nodes.getLastD 0) a 0 := by
  have head : s.globals.blockList.head = nodes.headD 0 := chain.head
  have reads : Returns getHead s (nodes.headD 0) s := head ▸ rfl
  cases nodes with
  | nil =>
    refine ⟨s.bytes, Returns.bind reads (Returns.ifPos rfl rfl), ?_⟩
    exact ⟨noNext, noPrev, fun node => absurd rfl node, fun node => absurd rfl node,
      fun _ _ _ _ => rfl⟩
  | cons first rest =>
    have node : first ≠ 0 := fun same => chain.proper (by simp [same])
    have lower := below first (by simp)
    have long := represents_length chain fun x member => by
      have := below x member
      omega
    obtain ⟨last, isLast⟩ : ∃ last, last = (first :: rest).getLastD 0 := ⟨_, rfl⟩
    have member : last ∈ first :: rest := by
      rw [isLast, List.getLastD_eq_getLast?, List.getLast?_eq_getLast_of_ne_nil (List.cons_ne_nil _ _)]
      exact List.getLast_mem _
    have under := below last member
    have loop := addMetadataLoop_appends [] first rest loopBound chain mapped here below
      (by simp only [List.length_cons] at long; unfold loopBound; omega)
    rw [← isLast] at loop ⊢
    refine ⟨_, ?_, spliced_last (fun null => chain.proper (null ▸ member)) small (by omega)
      (Or.inr under)⟩
    refine Returns.bind reads (Returns.ifNeg node (Returns.ifNeg (by simp only [List.headD_cons]; omega) ?_))
    exact loop

/-- The next answer lets `sbrk` return a region of this length. -/
def Grants (s : State) (increment : Nat) : Prop :=
  match s.replies with
  | .grant address _ :: _ => CanReturn s address increment
  | _ => False

instance (s : State) (increment : Nat) : Decidable (Grants s increment) := by
  unfold Grants
  rcases s.replies with _ | ⟨_ | _, _⟩ <;> exact inferInstance

/-- `sbrk` fails, or returns zeroed memory above the break. -/
theorem sbrk_cases (s : State) (increment : Nat) :
    (¬Grants s increment ∧ Returns (sbrk increment) s mapFailed { s with replies := s.replies.tail }) ∨
    Grants s increment ∧ ∃ a, CanReturn s a increment ∧ Returns (sbrk increment) s a { s with
      brk := a + increment
      bytes := fill s.bytes a increment 0
      replies := s.replies.tail
      globals := { s.globals with carved := s.globals.carved ++ [(a, increment)] } } := by
  unfold Returns sbrk Grants
  rcases answers : s.replies with _ | ⟨_ | ⟨address, contents⟩, rest⟩
  · exact Or.inl ⟨id, rfl⟩
  · exact Or.inl ⟨id, rfl⟩
  · by_cases can : CanReturn s address increment
    · right
      exact ⟨can, address, can, by simp only [if_pos can, List.tail_cons]⟩
    · left
      exact ⟨can, by simp only [if_neg can, List.tail_cons]⟩

end OperatingSystems.Malloc2
