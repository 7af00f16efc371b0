import OperatingSystems.Malloc3.Client

/-!
# Well-formed heaps and isolated payloads

What holds after every call of a run of requests, frees and shrinking resizes
in which no block of the heap that reaches `sfree` is as large as the
threshold, whatever the system answers. The heap is well formed: tiling,
footers, coalescing, list, wilderness and counters all agree. The payloads of
the client are isolated: they overlap neither each other nor any record, and no
call changes what the client keeps in them.
-/

namespace OperatingSystems.Malloc3

open Bytes Process MallocMetadata Tiling Payloads Runs

/-- The heap is well formed and consists of these blocks. -/
structure WellFormed (s : State) (blocks : List Block) : Prop where
  tiles : Tile s.globals.sbrkStart blocks s.brk
  stored : ∀ b ∈ blocks, Stored s.bytes b
  agree : ∀ b ∈ blocks, b.foot = b.free
  coalesced : blocks.IsChain fun x y => ¬(x.free = true ∧ y.free = true)
  listed : ∃ nodes, nodes.Perm (blocks.map Block.address) ∧ Linked s nodes ∧
    nodes.Pairwise (Before s.bytes)
  counted : s.globals.blockList.size = blocks.length
  wilderness : s.globals.blockList.wilderness = lastAddress blocks
  counters : s.globals.statistics = tally blocks s.maps

/-- The payloads of the client are long enough, clear of each other and clear
of every header and footer. -/
structure Isolated (sys : System) (blocks : List Block) : Prop where
  tiled : Tiled sys.state blocks
  backed : Backed sys.live (owned blocks sys.state.maps)
  separate : (owned blocks sys.state.maps).Pairwise
    fun x y => x.1 + x.2 ≤ y.1 ∨ y.1 + y.2 ≤ x.1
  clear : Disjoint (payloadCells (owned blocks sys.state.maps)) (metadata blocks sys.state.maps)

/-- The bytes asked for under a pointer that became live are zero. -/
def Zeroed (sys next : System) : Prop :=
  ∀ e ∈ next.live, e.1 ∉ sys.live.map Prod.fst → ∀ x, e.1 ≤ x → x < e.1 + e.2 →
    next.state.bytes x = 0

/-- The calls of these runs. -/
def Modest (call : Call) (sys : System) : Prop :=
  Legal call sys ∧ Shrinks call sys ∧ SmallBlocks call sys

instance (call : Call) (sys : System) : Decidable (Modest call sys) :=
  inferInstanceAs (Decidable (_ ∧ _ ∧ _))

variable {sys next : System} {blocks new : List Block} {call : Call}

/-- A tiled heap that is coalesced and counted is well formed. -/
theorem Tiled.well_formed {s : State} (tiled : Tiled s blocks) (coalesced : Coalesced blocks)
    (wilderness : s.globals.blockList.wilderness = lastAddress blocks)
    (counters : s.globals.statistics = tally blocks s.maps) : WellFormed s blocks where
  tiles := tiled.origin ▸ tiled.tiles
  stored := tiled.stored
  agree := coalesced.agree
  coalesced := coalesced.apart.imp fun x y either both => by
    rcases either with used | used <;> simp [used] at both
  listed := tiled.listed
  counted := tiled.counted
  wilderness := wilderness
  counters := counters

/-- A well-formed heap in an address space is tiled. -/
theorem WellFormed.tiled {s : State} (formed : WellFormed s blocks) (grounded : Grounded s) :
    Tiled s blocks :=
  { grounded with
    tiles := grounded.origin ▸ formed.tiles
    stored := formed.stored
    listed := formed.listed
    counted := formed.counted }

/-- A well-formed heap is coalesced. -/
theorem WellFormed.whole {s : State} (formed : WellFormed s blocks) : Coalesced blocks where
  agree := formed.agree
  apart := formed.coalesced.imp fun x y both => by
    cases first : x.free
    · exact Or.inl rfl
    · exact Or.inr (by simpa [first] using both)

/-- A sound and exact state is well formed. -/
theorem Held.well_formed (held : Held sys blocks) (exact : Exact sys.state blocks) :
    WellFormed sys.state blocks :=
  held.tiled.well_formed exact.coalesced held.wilderness exact.counters

/-- In a sound state the client's payloads are isolated. -/
theorem Held.isolated (held : Held sys blocks) : Isolated sys blocks where
  tiled := held.tiled
  backed := held.backed
  separate := held.toSound.separate.imp fun {x y} clear => by omega
  clear := held.toSound.clear

/-- `scalloc` zeroes the payload it returns. -/
theorem Held.zeroed (held : Held sys blocks) {num n : Nat}
    (step : perform (.scalloc num n) sys = .ok next) : Zeroed sys next := by
  obtain ⟨p, t, after, run, _, zero, _⟩ := scalloc_served held.toSound num n
  obtain rfl := Except.ok.inj
    ((show perform (.scalloc num n) sys = _ from perform_returns run).symm.trans step)
  intro e member newcomer x low high
  simp only [Call.holding] at member
  by_cases null : p = 0
  · rw [if_pos null] at member
    exact absurd (List.mem_map_of_mem member) newcomer
  · rw [if_neg null] at member
    rcases List.mem_cons.mp member with rfl | member
    · exact zero null x low high
    · exact absurd (List.mem_map_of_mem member) newcomer

/-- One call of such a run. -/
theorem modest_step (held : Held sys blocks) (exact : Exact sys.state blocks)
    (modest : Modest call sys) : ∃ next new, perform call sys = .ok next ∧
      Advances call sys next new ∧ Exact next.state new := by
  obtain ⟨legal, shrinks, small⟩ := modest
  obtain ⟨next, new, step, advances, exactly⟩ := perform_advances held legal shrinks
  exact ⟨next, new, step, advances, (exactly small).exact exact⟩

/-- A whole such run. -/
theorem modest_run (launch : Launch) (aligned : launch.brk % 8 = 0) {calls : List Call}
    (modest : During launch Modest calls) : ∃ sys, run launch calls = .ok sys ∧
      ∃ blocks, Held sys blocks ∧ Exact sys.state blocks := by
  refine (execute_ends (I := fun sys => ∃ blocks, Held sys blocks ∧ Exact sys.state blocks)
    (fun call sys invariant allowed => ?_) ⟨[], launch.held aligned, launch.exact⟩ modest).reaches
  obtain ⟨blocks, held, exact⟩ := invariant
  obtain ⟨next, new, step, advances, exactly⟩ := modest_step held exact allowed
  rw [step]
  exact ⟨new, advances.held, exactly⟩

/-- Every such run returns, in a well-formed heap. -/
theorem runs_well_formed (launch : Launch) (aligned : launch.brk % 8 = 0) (calls : List Call)
    (modest : During launch Modest calls) :
    ∃ sys blocks, run launch calls = .ok sys ∧ WellFormed sys.state blocks := by
  obtain ⟨sys, reached, blocks, held, exact⟩ := modest_run launch aligned modest
  exact ⟨sys, blocks, reached, held.well_formed exact⟩

/-- A launch at a page, with zeroed memory and these answers to come. -/
def pageLaunch (replies : List Reply) : Launch :=
  ⟨4096, fun _ => 0, replies, by decide, by decide⟩

/-- A run with a split, a merge, a refused request, a mapping and a resize. -/
theorem runs_well_formed_sample : ∃ sys blocks,
    run (pageLaunch [.grant 0 (fun _ => 1), .grant 0 (fun _ => 2), .refuse, .grant 8192 (fun _ => 0)])
      [.smalloc 1000, .smalloc 20, .sfree 4128, .smalloc 100, .scalloc 3 1000, .smalloc 200000,
        .srealloc 4128 8, .sfree 4128, .sfree 8224] = .ok sys ∧ WellFormed sys.state blocks :=
  runs_well_formed _ (by decide) _ (by decide +kernel)

end OperatingSystems.Malloc3
