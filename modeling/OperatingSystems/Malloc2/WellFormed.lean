import OperatingSystems.Malloc2.Client

/-!
# Well-formed heaps

What holds after every run of a client that passes null or any pointer it ever
got, also one it has freed, whatever the system answers: the list holds all
blocks that were carved by address, the counters are exact, and requests are
served by first fit.
-/

namespace OperatingSystems.Malloc2

open Bytes Process MallocMetadata Payloads Runs

/-- The list holds these blocks, which are all that were carved, each once and
by address, and the counters are theirs. -/
structure WellFormed (s : State) (blocks : List Block) : Prop where
  chain : (linksOf s.bytes s.globals.blockList.head).Represents 0 (blocks.map Block.address)
  stored : ∀ b ∈ blocks, size s.bytes b.address = b.size ∧ isFree s.bytes b.address = b.free
  ascending : blocks.Pairwise fun x y => x.address < y.address
  carved : s.globals.carved = blocks.map fun b => (b.address, b.size + 32)
  counters : s.globals.blockList = tally blocks

/-- Every request is served by first fit. -/
def ServesFirst (s : State) (blocks : List Block) : Prop :=
  ∀ n, 1 ≤ n → n ≤ 100000000 → ∃ p t, Returns (smalloc n) s p t ∧ FirstFit s blocks n p t

variable {s t : State} {sys next : System} {old new blocks : List Block} {call : Call} {b : Block}
  {p n : Nat}

theorem Sound.well_formed (sound : Sound s blocks) : WellFormed s blocks where
  chain := sound.chain
  stored := sound.stored
  ascending := sound.ordered.imp fun {x y} above => by omega
  carved := sound.carved
  counters := sound.counters

theorem Sound.serves_first (sound : Sound s blocks) : ServesFirst s blocks := by
  intro n positive small
  rcases smalloc_cases sound n with ⟨denied, replies, run⟩ | ⟨p, t, new, run, _, first⟩
  · have none : ∀ b ∈ blocks, ¬Fits n b := by
      rcases denied with zero | large | ⟨none, _⟩
      · omega
      · omega
      · exact none
    exact ⟨0, _, run, fun b member fits => absurd fits (none b member), fun _ => none⟩
  · exact ⟨p, t, run, first⟩

/-- What any call does to the blocks: it returns, keeps them with their sizes,
and returns null or a pointer to a block with room for what was asked for. -/
theorem call_cases {pointers : List (Nat × Nat)} (sound : Sound s blocks)
    (placed : Placed pointers blocks) (among : call.Among pointers) :
    ∃ p t new, Returns call.program s p t ∧ Sound t new ∧ Extends blocks new ∧
      (p ≠ 0 → ∃ c ∈ new, p = c.address + 32 ∧ call.requests ≤ c.size) := by
  have requested : ∀ n, ∃ p t new, Returns (smalloc n) s p t ∧ Sound t new ∧ Extends blocks new ∧
      (p ≠ 0 → ∃ c ∈ new, p = c.address + 32 ∧ n ≤ c.size) := by
    intro n
    rcases smalloc_cases sound n with ⟨_, replies, run⟩ | ⟨p, t, new, run, grant, _⟩
    · exact ⟨0, _, blocks, run, sound.answered, Extends.refl blocks, fun proper => absurd rfl proper⟩
    · obtain ⟨c, listed, here, _, fits, _⟩ := grant.block
      exact ⟨p, t, new, run, grant.evolves.sound, grant.extends_, fun _ => ⟨c, listed, here, fits⟩⟩
  cases call with
  | smalloc n => exact requested n
  | scalloc num size =>
    rcases scalloc_cases sound num size with ⟨replies, run⟩ |
      ⟨p, t, new, c, run, after, more, listed, here, fits, _⟩
    · exact ⟨0, _, blocks, run, sound.answered, Extends.refl blocks, fun proper => absurd rfl proper⟩
    · exact ⟨p, t, new, run, after, more, fun _ => ⟨c, listed, here, fits⟩⟩
  | sfree q =>
    rcases among with rfl | held
    · exact ⟨0, s, blocks, rfl, sound, Extends.refl blocks, fun proper => absurd rfl proper⟩
    · obtain ⟨b, member, rfl⟩ := placed.pointer held
      obtain ⟨front, back, rfl⟩ := List.append_of_mem member
      obtain ⟨t, frees, evolves⟩ := sfree_cases sound
      exact ⟨0, t, _, Returns.bind frees Returns.pure, evolves.sound, Extends.mark front b back true,
        fun proper => absurd rfl proper⟩
  | srealloc q n =>
    rcases among with rfl | held
    · by_cases odd : n = 0 ∨ 100000000 < n
      · exact ⟨0, s, blocks, Returns.ifPos odd Returns.pure, sound, Extends.refl blocks,
          fun proper => absurd rfl proper⟩
      · obtain ⟨p, t, new, run, rest⟩ := requested n
        exact ⟨p, t, new, Returns.ifNeg odd (Returns.ifPos rfl run), rest⟩
    · obtain ⟨b, member, rfl⟩ := placed.pointer held
      rcases srealloc_cases sound member n with ⟨_, replies, run⟩ | ⟨_, fits, run⟩ |
        ⟨_, p, t, new, run, relocation⟩
      · exact ⟨0, _, blocks, run, sound.answered, Extends.refl blocks, fun proper => absurd rfl proper⟩
      · exact ⟨_, s, blocks, run, sound, Extends.refl blocks, fun _ => ⟨b, member, rfl, fits⟩⟩
      · obtain ⟨c, listed, here, _, fits, _⟩ := relocation.block
        exact ⟨p, t, new, run, relocation.sound, relocation.extends_, fun _ => ⟨c, listed, here, fits⟩⟩
  | store a byte =>
    obtain ⟨run, after⟩ := store_cases sound placed byte among
    exact ⟨0, _, blocks, run, after, Extends.refl blocks, fun proper => absurd rfl proper⟩

/-- A run of a client that uses pointers it got at some time. -/
theorem known_run (launch : Launch) {calls : List Call} (known : During launch Known calls) :
    ∃ sys, run launch calls = .ok sys ∧ ∃ blocks, Sound sys.state blocks ∧ Placed sys.returned blocks := by
  refine (execute_ends (I := fun sys => ∃ blocks, Sound sys.state blocks ∧ Placed sys.returned blocks)
    (fun call sys invariant allowed => ?_) ⟨[], launch.sound, by simp [Placed, Launch.system]⟩
    known).reaches
  obtain ⟨blocks, sound, placed⟩ := invariant
  obtain ⟨p, t, new, run, after, more, result⟩ := call_cases sound placed allowed
  rw [perform_returns _ run]
  refine ⟨new, after, ?_⟩
  intro e member
  by_cases null : p = 0
  · rw [if_pos null] at member
    exact placed.extend more e member
  · rw [if_neg null] at member
    rcases List.mem_cons.mp member with rfl | earlier
    · exact result null
    · exact placed.extend more e earlier

/-- A launch with these answers to come. -/
def launchWith (replies : List Reply) : Launch := ⟨4096, fun _ => 0, replies, by decide, by decide⟩

end OperatingSystems.Malloc2
