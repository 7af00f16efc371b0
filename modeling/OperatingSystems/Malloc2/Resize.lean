import OperatingSystems.Malloc2.Calls

/-!
# Writing to payloads, freeing and resizing

Bytes written to a payload reach no header. `sfree` sets a flag, which has no
effect when it is set already; `srealloc` keeps a block that is large enough
and otherwise copies it to one that is, before it frees it.
-/

namespace OperatingSystems.Malloc2

open Bytes Process MallocMetadata Payloads

variable {s t : State} {old new blocks front back : List Block} {b c : Block} {n p : Nat} {m : Memory}

namespace Sound

/-- Payloads do not overlap. -/
theorem payloads (sound : Sound s blocks) : (owned blocks).Pairwise
    fun x y => x.1 + x.2 ≤ y.1 ∨ y.1 + y.2 ≤ x.1 := by
  refine List.pairwise_map.mpr ((sound.ordered.filter _).imp fun {x y} above => ?_)
  simp only
  omega

/-- A payload is known by its address. -/
theorem distinct (sound : Sound s blocks) : ((owned blocks).map Prod.fst).Nodup := by
  unfold owned
  rw [List.map_map]
  refine List.pairwise_map.mpr ((sound.ordered.filter _).imp fun {x y} above => ?_)
  simp only [Function.comp_apply]
  omega

/-- Payloads and headers do not overlap. -/
theorem clear (sound : Sound s blocks) : Disjoint (payloadCells (owned blocks)) (headers blocks) := by
  apply Set.disjoint_left.mpr
  rintro x ⟨o, listed, low, high⟩ record
  obtain ⟨b, member, _, rfl⟩ := mem_owned.mp listed
  exact sound.payload_clear member low (by simpa using high) (Or.inl record)

/-- Writing to the payload of a block leaves the heap as it was. -/
theorem write (sound : Sound s blocks) (member : b ∈ blocks)
    (outside : Set.EqOn m s.bytes (cells (b.address + 32) b.size)ᶜ) : Sound (s.withBytes m) blocks := by
  refine sound.frame fun x header => outside fun cell => ?_
  simp only [mem_cells] at cell
  exact sound.payload_clear member cell.1 cell.2 (Or.inl header)

/-- A payload is accessible. -/
theorem payload (sound : Sound s blocks) (member : b ∈ blocks) {length : Nat} (inside : length ≤ b.size) :
    s.Mapped (b.address + 32) length := by
  have place := sound.within b member
  exact Machine.mapped_heap (by omega) (by omega)

end Sound

/-- Writing to the payload that was handed out touches no other. -/
theorem Grant.write (grant : Grant s old n p t new) (sound : Sound s old) (member : c ∈ new)
    (here : p = c.address + 32) (outside : Set.EqOn m t.bytes (cells p c.size)ᶜ) :
    Sound (t.withBytes m) new ∧ Exchange s.bytes m (owned old) (owned new) [] [(p, c.size)] := by
  obtain ⟨d, listed, same, _, _, ledger⟩ := grant.block
  have after := grant.evolves.sound
  obtain rfl : d = c := after.unique listed member (by omega)
  constructor
  · exact after.write member (here ▸ outside)
  · refine ⟨owned old, List.Perm.refl _, ledger, ?_⟩
    rintro x ⟨o, known, low, high⟩
    have differs : o.1 ≠ p := by
      intro same
      have nodup := (ledger.map Prod.fst).nodup_iff.mp after.distinct
      have again := List.mem_map_of_mem (f := Prod.fst) known
      rw [same] at again
      exact (List.nodup_cons.mp nodup).1 again
    obtain ⟨e, inOld, _, isPayload⟩ := mem_owned.mp known
    obtain ⟨f, inNew, _, isListed⟩ := mem_owned.mp (ledger.mem_iff.mpr (List.mem_cons_of_mem _ known))
    rw [outside fun cell => ?_]
    · rw [isPayload] at low high
      exact grant.evolves.frame (sound.payload_clear inOld low (by simpa using high))
    · rw [isListed] at low high differs
      have := after.apart inNew member fun same => differs (by rw [same]; exact here.symm)
      simp only [mem_cells] at cell
      simp only at low high
      omega

/-- `sfree` sets the flag of a block. -/
theorem sfree_cases (sound : Sound s (front ++ b :: back)) :
    ∃ t, Returns (sfree (b.address + 32)) s () t ∧
      Evolves s (front ++ b :: back) t (front ++ b.mark true :: back) := by
  have member : b ∈ front ++ b :: back := by simp
  have mapped := sound.header member
  obtain ⟨sized, flag⟩ := sound.stored b member
  have block : b.address + 32 - SOM = b.address := Nat.add_sub_cancel _ _
  unfold sfree
  cases used : b.free with
  | true =>
    have same : b.mark true = b := by
      cases b
      simp_all [Block.mark]
    refine ⟨s, Returns.ifNeg (by omega) ?_, ?_⟩
    · rw [block]
      exact Returns.bind ((readFree_returns mapped).to (flag.trans used)) (Returns.ifPos rfl Returns.pure)
    · rw [same]
      exact ⟨sound, rfl, fun x out => rfl⟩
  | false =>
    have counters := tally_release used sound
    rw [← sound.counters] at counters
    have still : size (setFree s.bytes b.address true) b.address = b.size :=
      (setFree_fields (Or.inl rfl)).2.2.trans sized
    refine ⟨_, Returns.ifNeg (by omega) ?_, sound.mark counters, rfl, ?_⟩
    · rw [block]
      refine Returns.bind ((readFree_returns mapped).to (flag.trans used)) (Returns.ifNeg (by simp) ?_)
      apply Returns.bind (writeFree_returns mapped)
      exact Returns.bind ((readSize_returns
        (s := s.withBytes (setFree s.bytes b.address true)) mapped).to still) rfl
    · intro x out
      refine setFree_outside fun cell => out (Or.inl ⟨b, member, ?_⟩)
      simp only [mem_cells] at cell
      omega

/-- Freeing a block in use takes its payload back. -/
theorem owned_release (used : b.free = false) : (owned (front ++ b :: back)).Perm
    ((b.address + 32, b.size) :: owned (front ++ b.mark true :: back)) := by
  simp only [owned, List.filter_append, List.filter_cons, List.map_append, used, mark_free,
    Bool.not_true, Bool.not_false, Bool.false_eq_true, if_false, if_true, List.map_cons]
  exact List.perm_middle

/-- A block that grows is moved to a larger one. -/
structure Relocation (s : State) (old : List Block) (b : Block) (n p : Nat) (t : State)
    (new : List Block) : Prop where
  sound : Sound t new
  extends_ : Extends old new
  block : ∃ c ∈ new, p = c.address + 32 ∧ c.free = false ∧ n ≤ c.size ∧
    (b.free = false → Exchange s.bytes t.bytes (owned old) (owned new) [(b.address + 32, b.size)]
      [(p, c.size)]) ∧
    ∀ i, i < b.size → t.bytes (p + i) = s.bytes (b.address + 32 + i)

/-- `srealloc` of a block that is too small, once a larger one was handed out. -/
theorem relocates (sound : Sound s old) (member : b ∈ old) (grows : b.size < n)
    (grant : Grant s old n p t new) :
    ∃ u later, Returns (do
        let blockSize ← readSize b.address
        memmove p (b.address + 32) blockSize
        sfree (b.address + 32)) t () u ∧ Relocation s old b n p u later := by
  obtain ⟨c, listed, here, used, fits, ledger⟩ := grant.block
  have after := grant.evolves.sound
  have stays : b ∈ new := grant.others b member fun fit => absurd fit.2 (by omega)
  have other : c ≠ b := by
    rintro rfl
    omega
  obtain ⟨m, isCopy⟩ : ∃ m, m = copy t.bytes p (b.address + 32) b.size := ⟨_, rfl⟩
  have outside : Set.EqOn m t.bytes (cells p c.size)ᶜ := by
    intro x out
    rw [isCopy]
    refine copy_outside _ _ _ _ fun cell => out ?_
    simp only [mem_cells] at cell ⊢
    omega
  obtain ⟨moved, given⟩ := grant.write sound listed here outside
  obtain ⟨front, back, rfl⟩ := List.append_of_mem stays
  obtain ⟨u, frees, evolves⟩ := sfree_cases moved
  refine ⟨u, _, ?_, evolves.sound, grant.extends_.trans (Extends.mark front b back true), c, ?_, here,
    used, fits, fun live => ?_, fun i inside => ?_⟩
  · apply Returns.bind ((readSize_returns (after.header stays)).to (after.stored b stays).1)
    refine Returns.bind (memmove_returns (after.payload stays (Nat.le_refl _))
      (here ▸ after.payload listed (by omega))) ?_
    rw [← isCopy]
    exact frees
  · rcases List.mem_append.mp listed with inFront | inRest
    · exact List.mem_append_left _ inFront
    · rcases List.mem_cons.mp inRest with same | inBack
      · exact absurd same other
      · simp [inBack]
  · refine given.replace ?_ (mem_owned.mpr ⟨b, member, live, rfl⟩)
    exact evolves.exchange moved (owned_release live) (List.Perm.refl _)
  · have toOld := grant.evolves.frame (sound.payload_clear member (x := b.address + 32 + i) (by omega)
      (by omega))
    have toNew := evolves.frame (moved.payload_clear listed (x := p + i) (by omega) (by omega))
    rw [toNew]
    simp only [Machine.withBytes]
    rw [isCopy, copy_inside _ _ _ _ _ inside, toOld]

/-- What `srealloc` does to a block: nothing, when it is refused or the block is
large enough, or a relocation. -/
theorem srealloc_cases (sound : Sound s blocks) (member : b ∈ blocks) (n : Nat) :
    ((n = 0 ∨ 100000000 < n ∨ Denied s blocks n) ∧
        ∃ replies, Returns (srealloc (b.address + 32) n) s 0 { s with replies := replies }) ∨
      (n ≠ 0 ∧ n ≤ b.size ∧ Returns (srealloc (b.address + 32) n) s (b.address + 32) s) ∨
      b.size < n ∧ ∃ p t new, Returns (srealloc (b.address + 32) n) s p t ∧
        Relocation s blocks b n p t new := by
  have mapped := sound.header member
  obtain ⟨sized, _⟩ := sound.stored b member
  have block : b.address + 32 - SOM = b.address := Nat.add_sub_cancel _ _
  unfold srealloc
  by_cases odd : n = 0 ∨ 100000000 < n
  · left
    exact ⟨odd.imp_right Or.inl, s.replies, Returns.ifPos odd Returns.pure⟩
  have proper : n ≠ 0 := fun zero => odd (Or.inl zero)
  rw [block]
  by_cases fits : n ≤ b.size
  · right
    left
    refine ⟨proper, fits, Returns.ifNeg odd (Returns.ifNeg (by omega) ?_)⟩
    exact Returns.bind ((readSize_returns mapped).to sized) (Returns.ifPos fits Returns.pure)
  have opening : ∀ {p : Nat} {t u : State}, Returns (smalloc n) s p t →
      Returns (doIf (p ≠ 0) do
        let blockSize ← readSize b.address
        memmove p (b.address + 32) blockSize
        sfree (b.address + 32)) t () u →
      Returns (if n = 0 ∨ 100000000 < n then Pure.pure 0
        else if b.address + 32 = 0 then smalloc n
        else do
          let blockSize ← readSize b.address
          if n ≤ blockSize then Pure.pure (b.address + 32)
          else do
            let newp ← smalloc n
            doIf (newp ≠ 0) do
              let blockSize ← readSize b.address
              memmove newp (b.address + 32) blockSize
              sfree (b.address + 32)
            Pure.pure newp) s p u := by
    intro p t u serves moves
    refine Returns.ifNeg odd (Returns.ifNeg (by omega) ?_)
    refine Returns.bind ((readSize_returns mapped).to sized) (Returns.ifNeg fits ?_)
    exact Returns.bind serves (Returns.bind moves Returns.pure)
  rcases smalloc_cases sound n with ⟨denied, replies, run⟩ | ⟨p, t, new, run, grant, _⟩
  · left
    exact ⟨Or.inr (Or.inr denied), replies, opening run (doIf_neg (by simp))⟩
  · right
    right
    obtain ⟨u, later, moves, relocation⟩ := relocates sound member (by omega) grant
    obtain ⟨c, _, here, _⟩ := grant.block
    exact ⟨by omega, p, u, later, opening run (doIf_pos (by omega) moves), relocation⟩

/-- `scalloc` is refused the wrapped product, or granted it and zeroes it. -/
theorem scalloc_outcome (sound : Sound s blocks) (num size : Nat) :
    (Denied s blocks (wrap (num * size)) ∧
      ∃ replies, Returns (scalloc num size) s 0 { s with replies := replies }) ∨
    ∃ p t new c, ¬Denied s blocks (wrap (num * size)) ∧ Returns (scalloc num size) s p t ∧
      Sound t new ∧ Extends blocks new ∧ c ∈ new ∧ p = c.address + 32 ∧ wrap (num * size) ≤ c.size ∧
      Exchange s.bytes t.bytes (owned blocks) (owned new) [] [(p, c.size)] ∧
      ∀ x, p ≤ x → x < p + wrap (num * size) → t.bytes x = 0 := by
  rcases smalloc_cases sound (wrap (num * size)) with ⟨denied, replies, run⟩ | ⟨p, t, new, run, grant, _⟩
  · left
    exact ⟨denied, replies, Returns.bind run (Returns.ifPos rfl Returns.pure)⟩
  right
  obtain ⟨c, listed, here, _, fits, _⟩ := grant.block
  obtain ⟨after, given⟩ := grant.write sound (m := fill t.bytes p (wrap (size * num)) 0) listed here
    fun x out => fill_outside _ _ _ _ fun cell => out (by
      rw [Nat.mul_comm] at cell
      simp only [mem_cells] at cell ⊢
      omega)
  refine ⟨p, _, new, c, fun denied => ?_, ?_, after, grant.extends_, listed, here, fits, given,
    fun x low high => ?_⟩
  · obtain ⟨_, null⟩ := smalloc_denied sound denied
    have := (run.unique null).1
    omega
  · refine Returns.bind run (Returns.ifNeg (by omega) ?_)
    refine Returns.bind (memset_returns ?_) Returns.pure
    rw [Nat.mul_comm, here]
    exact grant.evolves.sound.payload listed fits
  · have place : x = p + (x - p) := by omega
    rw [place]
    apply fill_inside _ _ _ _ _
    rw [Nat.mul_comm]
    omega

/-- `scalloc` zeroes what it was granted. -/
theorem scalloc_cases (sound : Sound s blocks) (num size : Nat) :
    (∃ replies, Returns (scalloc num size) s 0 { s with replies := replies }) ∨
    ∃ p t new c, Returns (scalloc num size) s p t ∧ Sound t new ∧ Extends blocks new ∧ c ∈ new ∧
      p = c.address + 32 ∧ wrap (num * size) ≤ c.size ∧
      Exchange s.bytes t.bytes (owned blocks) (owned new) [] [(p, c.size)] := by
  rcases scalloc_outcome sound num size with ⟨_, run⟩ |
    ⟨p, t, new, c, _, run, after, wider, listed, here, fits, exchange, _⟩
  · exact Or.inl run
  · exact Or.inr ⟨p, t, new, c, run, after, wider, listed, here, fits, exchange⟩

end OperatingSystems.Malloc2
