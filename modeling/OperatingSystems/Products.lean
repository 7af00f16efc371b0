import OperatingSystems.Malloc2.Isolation
import OperatingSystems.Malloc3.SafeRuns

/-!
# Products that wrap around

`scalloc` checks its product after the multiplication, in both allocators. The
product is a 64-bit value, so one that is too large by far may come back as a
small request, which is then served. Below 2^64 nothing is lost, and the result
is a zeroed payload for all elements.
-/

namespace OperatingSystems

open Process Payloads MallocMetadata

/-- The payload at `p` has room for `n` bytes, all of them zero, and these other payloads
are as they were. -/
structure Cleared {G : Type} (others : List (Nat × Nat)) (n p : Nat) (s t : Machine G) : Prop where
  positive : 1 ≤ n
  bounded : n ≤ 10 ^ 8
  room : n ≤ size t.bytes (p - SOM)
  mapped : t.Mapped p n
  zero : ∀ x, p ≤ x → x < p + n → t.bytes x = 0
  kept : ∀ o ∈ others, ∀ x, o.1 ≤ x → x < o.1 + o.2 → t.bytes x = s.bytes x

/-- A request for the wrapped product comes to one for the product exactly when nothing
is lost, or when it is refused. -/
theorem cleared_iff {G : Type} {others : List (Nat × Nat)} {n p : Nat} {s t : Machine G} {can : Prop}
    (result : p = 0 ∧ ¬can ∨ p ≠ 0 ∧ can ∧ Cleared others (wrap n) p s t) :
    (p ≠ 0 → Cleared others n p s t) ↔ n < 2 ^ 64 ∨ ¬can := by
  rcases result with ⟨null, cannot⟩ | ⟨handed, able, cleared⟩
  · exact iff_of_true (fun handed => absurd null handed) (Or.inr cannot)
  constructor
  · intro claimed
    have := (claimed handed).bounded
    exact Or.inl (by omega)
  · rintro (small | cannot) _
    · rwa [wrap_eq small] at cleared
    · exact absurd able cannot

namespace Malloc3

variable {s : State} {blocks : List Block}

/-- What `scalloc` of `malloc_3` returns. -/
theorem scalloc_clears (sound : Sound s blocks) (num size : Nat) :
    ∃ p t, Returns (scalloc num size) s p t ∧
      (SmallRequest s (wrap (num * size)) → t.strayUnmaps = s.strayUnmaps) ∧
      (p = 0 ∧ ¬Satisfiable s blocks (wrap (num * size)) ∨
        p ≠ 0 ∧ Satisfiable s blocks (wrap (num * size)) ∧
          Cleared (owned blocks s.maps) (wrap (num * size)) p s t) := by
  obtain ⟨p, t, new, run, served, zero, exactly, _⟩ := scalloc_served sound num size
  refine ⟨p, t, run, fun small => (exactly small).strays, ?_⟩
  cases served with
  | refused denied null => exact Or.inl ⟨null, denied⟩
  | granted satisfied capacity fits transfer =>
    obtain ⟨rest, _, after, _⟩ := transfer.ledger
    have handed : (p, capacity) ∈ owned new t.maps := after.mem_iff.mpr (by simp)
    refine Or.inr ⟨owned_proper handed, satisfied,
      { positive := satisfied.1
        bounded := satisfied.2.1
        room := (transfer.sound.capacity handed).2.2 ▸ fits
        mapped := (transfer.sound.payload_mapped handed).sub (Nat.le_refl _) (by simp only; omega)
        zero := zero (owned_proper handed)
        kept := fun o member => (Exchange.others transfer.ledger member (by simp)).2 }⟩

/-- In this state `scalloc` returns and gives no pages of the heap to `munmap`, and what
it returns is as it should be exactly when the product does not wrap around to a
request that can be satisfied. -/
def ClearsUnlessWrapped (sys : System) (num size : Nat) : Prop :=
  ∃ blocks p t, Isolated sys blocks ∧ Returns (scalloc num size) sys.state p t ∧ t.strayUnmaps = [] ∧
    ((p ≠ 0 → Cleared (owned blocks sys.state.maps) (num * size) p sys.state t) ↔
      num * size < 2 ^ 64 ∨ ¬Satisfiable sys.state blocks (wrap (num * size)))

theorem Held.clears {sys : System} (held : Held sys blocks) (none : sys.state.strayUnmaps = [])
    {num size : Nat} (small : SmallRequest sys.state (wrap (num * size))) :
    ClearsUnlessWrapped sys num size := by
  obtain ⟨p, t, run, strays, result⟩ := scalloc_clears held.toSound num size
  exact ⟨blocks, p, t, held.isolated, run, (strays small).trans none, cleared_iff result⟩

end Malloc3

namespace Malloc2

variable {s : State} {blocks : List Block}

/-- What `scalloc` of `malloc_2` returns. -/
theorem scalloc_clears (sound : Sound s blocks) (num size : Nat) :
    ∃ p t, Returns (scalloc num size) s p t ∧
      (p = 0 ∧ ¬¬Denied s blocks (wrap (num * size)) ∨
        p ≠ 0 ∧ ¬Denied s blocks (wrap (num * size)) ∧
          Cleared (owned blocks) (wrap (num * size)) p s t) := by
  rcases scalloc_outcome sound num size with ⟨denied, replies, run⟩ |
    ⟨p, t, new, c, granted, run, after, _, listed, rfl, fits, exchange, zero⟩
  · exact ⟨0, _, run, Or.inl ⟨rfl, not_not.mpr denied⟩⟩
  · have within : wrap (num * size) ≠ 0 ∧ wrap (num * size) ≤ 100000000 := by
      by_contra outside
      apply granted
      unfold Denied
      omega
    refine ⟨c.address + 32, t, run, Or.inr ⟨by omega, granted,
      { positive := by omega
        bounded := within.2
        room := ?_
        mapped := after.payload listed fits
        zero := zero
        kept := fun o member => (exchange.others member (by simp)).2 }⟩⟩
    rw [SOM, Nat.add_sub_cancel, (after.stored c listed).1]
    exact fits

/-- In this state `scalloc` returns, and what it returns is as it should be exactly when
the product does not wrap around to a request that is granted. -/
def ClearsUnlessWrapped (sys : System) (num size : Nat) : Prop :=
  ∃ blocks p t, Isolated sys blocks ∧ Returns (scalloc num size) sys.state p t ∧
    ((p ≠ 0 → Cleared (owned blocks) (num * size) p sys.state t) ↔
      num * size < 2 ^ 64 ∨ Denied sys.state blocks (wrap (num * size)))

theorem Held.clears {sys : System} (held : Held sys blocks) (num size : Nat) :
    ClearsUnlessWrapped sys num size := by
  obtain ⟨p, t, run, result⟩ := scalloc_clears held.toSound num size
  refine ⟨blocks, p, t, held.isolated, run, (cleared_iff result).trans ?_⟩
  rw [not_not]

end Malloc2

/-- In every state that a run reaches, `scalloc` clears what it was asked for exactly when
the exact product is below 2^64, or wraps around to a request that is refused. In
`malloc_3` the run is clean, and so is the call; in `malloc_2` all are. -/
theorem runs_clear_iff (launch : Malloc3.Launch) (aligned : launch.brk % 8 = 0)
    (calls : List Malloc3.Call) (clean : Malloc3.During launch Malloc3.Clean calls)
    (other : Malloc2.Launch) (others : List Malloc2.Call)
    (legal : Malloc2.During other Malloc2.Legal others) (num size : Nat) :
    Runs.Ends (fun sys => Malloc3.SmallRequest sys.state (wrap (num * size)) →
          Malloc3.ClearsUnlessWrapped sys num size)
        (fun _ => True) (Malloc3.run launch calls) ∧
      ∃ sys, Malloc2.run other others = .ok sys ∧ Malloc2.ClearsUnlessWrapped sys num size := by
  constructor
  · exact (Malloc3.clean_run launch aligned clean).mono fun _ ⟨⟨_, occupied⟩, clear⟩ small =>
      occupied.toHeld.clears clear small
  · obtain ⟨sys, reached, _, held⟩ := Malloc2.legal_run other legal
    exact ⟨sys, reached, held.clears num size⟩

/-- After a small block and a large one, in either allocator. -/
theorem runs_clear_iff_sample :
    Runs.Ends (fun sys => Malloc3.SmallRequest sys.state (wrap ((2 ^ 62 + 1) * 4)) →
          Malloc3.ClearsUnlessWrapped sys (2 ^ 62 + 1) 4)
        (fun _ => True) (Malloc3.run Malloc3.amply [.smalloc 8, .scalloc 100 2000]) ∧
      ∃ sys, Malloc2.run (Malloc2.launchWith [.grant 4096 (fun _ => 0), .grant 8192 (fun _ => 0)])
        [.smalloc 8, .scalloc 100 2000] = .ok sys ∧
        Malloc2.ClearsUnlessWrapped sys (2 ^ 62 + 1) 4 :=
  runs_clear_iff Malloc3.amply (by decide) [.smalloc 8, .scalloc 100 2000] (by decide +kernel)
    (Malloc2.launchWith [.grant 4096 (fun _ => 0), .grant 8192 (fun _ => 0)])
    [.smalloc 8, .scalloc 100 2000] (by decide +kernel) (2 ^ 62 + 1) 4

/-- The product of 2^62 + 1 and 4 wraps around to 4, which a new heap serves. -/
theorem product_wraps :
    (¬∀ (launch : Malloc3.Launch) (calls : List Malloc3.Call) (sys : Malloc3.System)
      (num size p : Nat) (t : Malloc3.State), launch.brk % 8 = 0 →
      Malloc3.During launch Malloc3.Legal calls → Malloc3.run launch calls = .ok sys →
      num < 2 ^ 64 → size < 2 ^ 64 → Returns (Malloc3.scalloc num size) sys.state p t → p ≠ 0 →
      ∃ blocks, Malloc3.Isolated sys blocks ∧
        Cleared (Malloc3.owned blocks sys.state.maps) (num * size) p sys.state t) ∧
    ¬∀ (launch : Malloc2.Launch) (calls : List Malloc2.Call) (sys : Malloc2.System)
      (num size p : Nat) (t : Malloc2.State), Malloc2.During launch Malloc2.Legal calls →
      Malloc2.run launch calls = .ok sys → num < 2 ^ 64 → size < 2 ^ 64 →
      Returns (Malloc2.scalloc num size) sys.state p t → p ≠ 0 →
      ∃ blocks, Malloc2.Isolated sys blocks ∧
        Cleared (Malloc2.owned blocks) (num * size) p sys.state t := by
  refine ⟨fun always => ?_, fun always => ?_⟩
  · obtain ⟨p, t, run, _, ⟨_, cannot⟩ | ⟨handed, _⟩⟩ :=
      Malloc3.scalloc_clears (Malloc3.amply.held (by decide)).toSound (2 ^ 62 + 1) 4
    · exact cannot (by decide +kernel)
    · obtain ⟨_, _, cleared⟩ := always Malloc3.amply [] _ _ _ p t (by decide) trivial rfl
        (by decide) (by decide) run handed
      exact absurd cleared.bounded (by decide)
  · obtain ⟨launch, isLaunch⟩ : ∃ launch, launch = Malloc2.launchWith [.grant 4096 (fun _ => 0)] :=
      ⟨_, rfl⟩
    obtain ⟨p, t, run, ⟨_, cannot⟩ | ⟨handed, _⟩⟩ :=
      Malloc2.scalloc_clears launch.sound (2 ^ 62 + 1) 4
    · subst isLaunch
      exact cannot (by decide +kernel)
    · obtain ⟨_, _, cleared⟩ := always launch [] _ _ _ p t trivial rfl (by decide) (by decide) run handed
      exact absurd cleared.bounded (by decide)

end OperatingSystems
