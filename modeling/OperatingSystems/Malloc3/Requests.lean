import OperatingSystems.Malloc3.WellFormed

/-!
# What the client asked for

`scalloc` multiplies in 64 bits and passes the product on, so a payload may be
there for less than the client asked for. Here the client goes by the exact
product. Its payloads are isolated as long as no product wraps around to a request
that can be satisfied, and no longer.
-/

namespace OperatingSystems.Malloc3

open Bytes Process MallocMetadata Tiling Payloads Runs

variable {sys next : System} {blocks new : List Block} {call : Call} {p : Nat} {t : State}

/-- What the client holds once the call has returned `p`, with the sizes that it
asked for itself. -/
def Call.asking (p : Nat) (live : List (Nat × Nat)) : Call → List (Nat × Nat)
  | .scalloc num size => if p = 0 then live else (p, num * size) :: live
  | call => call.holding p live

/-- Perform one call of a client that goes by what it asked for. -/
def ask (call : Call) (sys : System) : Except Fault System :=
  match call.program sys.state with
  | .ok (p, state) => .ok ⟨state, call.asking p sys.live⟩
  | .error fault => .error fault

/-- The blocks of a heap, read from their headers and footers. -/
def survey (bytes : Memory) : Nat → Nat → Nat → List Block
  | 0, _, _ => []
  | fuel + 1, low, high =>
    if low < high then
      ⟨low, size bytes low, isFree bytes low, isFree bytes (low + size bytes low + 32)⟩ ::
        survey bytes fuel (low + size bytes low + 64) high
    else []

/-- A tiled interval consists of the blocks that its headers tell. -/
theorem survey_tile {bytes : Memory} {fuel low high : Nat} (tiles : Tile low blocks high)
    (stored : ∀ b ∈ blocks, Stored bytes b) (enough : high ≤ low + fuel) :
    survey bytes fuel low high = blocks := by
  induction blocks generalizing low fuel with
  | nil =>
    obtain rfl : low = high := tiles
    cases fuel <;> simp [survey]
  | cons b more inductionHypothesis =>
    obtain ⟨start, rest⟩ := tiles_cons.mp tiles
    have above := Tiles.le rest
    rw [b.extent_eq] at rest above
    obtain ⟨fuel, rfl⟩ : ∃ smaller, fuel = smaller + 1 := ⟨fuel - 1, by omega⟩
    have own := stored b (by simp)
    subst start
    rw [survey, if_pos (by omega), own.size, own.free, own.foot,
      inductionHypothesis (by rwa [Nat.add_assoc]) (fun c member => stored c (by simp [member])) (by omega)]

/-- The blocks of the heap, by their headers and footers. -/
def surveyed (s : State) : List Block := survey s.bytes (s.brk - s.heapStart) s.heapStart s.brk

theorem Tiled.surveyed {s : State} (tiled : Tiled s blocks) : Malloc3.surveyed s = blocks :=
  survey_tile tiled.tiles tiled.stored (by omega)

/-- The product of a call is a 64-bit value, or what is left of it cannot be
satisfied. -/
def Unwrapped (call : Call) (sys : System) : Prop :=
  match call with
  | .scalloc num n =>
    num * n < 2 ^ 64 ∨ ¬Satisfiable sys.state (surveyed sys.state) (wrap (num * n))
  | _ => True

instance : (call : Call) → (sys : System) → Decidable (Unwrapped call sys)
  | .scalloc _ _, _ => inferInstanceAs (Decidable (_ ∨ _))
  | .smalloc _, _ | .sfree _, _ | .srealloc _ _, _ | .store _ _, _ => inferInstanceAs (Decidable True)

theorem ask_returns (run : Returns call.program sys.state p t) :
    ask call sys = .ok ⟨t, call.asking p sys.live⟩ := by
  unfold ask
  rw [show call.program sys.state = _ from run]

/-- Without a wrapped product `scalloc` serves the one asked for. -/
theorem Held.product (held : Held sys blocks) {num n : Nat} (unwrapped : Unwrapped (.scalloc num n) sys)
    (run : Returns (Malloc3.scalloc num n) sys.state p t) (handed : p ≠ 0) :
    wrap (num * n) = num * n := by
  rcases unwrapped with exact | cannot
  · exact wrap_eq exact
  · obtain ⟨q, u, new, returns, served, _⟩ := scalloc_served held.toSound num n
    obtain ⟨rfl, rfl⟩ := run.unique returns
    cases served with
    | refused _ null => exact absurd null handed
    | granted satisfied => exact absurd (held.tiled.surveyed ▸ satisfied) cannot

/-- Then the client got what it asked for. -/
theorem Held.asks (held : Held sys blocks) (unwrapped : Unwrapped call sys) :
    ask call sys = perform call sys := by
  cases call with
  | scalloc num n =>
    obtain ⟨p, t, new, run, _⟩ := scalloc_served held.toSound num n
    have returns : Returns (Call.scalloc num n).program sys.state p t := run
    rw [ask_returns returns, perform_returns returns]
    simp only [Call.asking, Call.holding]
    by_cases null : p = 0
    · rw [if_pos null, if_pos null]
    · rw [held.product unwrapped run null]
  | smalloc _ | sfree _ | srealloc _ _ | store _ _ => rfl

/-- A client whose payloads are isolated has asked for 64-bit sizes. -/
theorem Isolated.bounded (isolated : Isolated sys blocks) (mappings : Mappings sys.state)
    {e : Nat × Nat} (member : e ∈ sys.live) : e.2 < 2 ^ 64 := by
  obtain ⟨o, listed, _, fits⟩ := isolated.backed.payload member
  rcases mem_owned.mp listed with ⟨b, known, _, rfl⟩ | ⟨region, known, rfl⟩
  · have := isolated.tiled.within known
    have := isolated.tiled.small
    simp only at fits
    omega
  · have := (mappings.holds region known).bounded
    simp only at fits
    omega

/-- The call returns, the payloads are isolated before and after it, and it leaves alone
what the client keeps; `scalloc` zeroes what it returns. -/
def Isolating (call : Call) (sys : System) : Prop :=
  ∃ next blocks new, ask call sys = .ok next ∧ Isolated sys blocks ∧ Isolated next new ∧
    Untouched call sys next ∧ ∀ num n, call = .scalloc num n → Zeroed sys next

/-- Without a wrapped product the call isolates the payloads. -/
theorem Held.isolates (held : Held sys blocks) (exact : Exact sys.state blocks)
    (modest : Modest call sys) (unwrapped : Unwrapped call sys) : Isolating call sys := by
  obtain ⟨next, new, step, advances, _⟩ := modest_step held exact modest
  refine ⟨next, blocks, new, (held.asks unwrapped).trans step, held.isolated, advances.held.isolated,
    advances.untouched, ?_⟩
  rintro num n rfl
  exact held.zeroed step

/-- A product that wraps around leaves a payload that is not isolated. -/
theorem Held.unwrapped (held : Held sys blocks) (isolating : Isolating call sys) :
    Unwrapped call sys := by
  cases call with
  | smalloc _ | sfree _ | srealloc _ _ | store _ _ => trivial
  | scalloc num n =>
    obtain ⟨p, t, new, run, served, _⟩ := scalloc_served held.toSound num n
    have returns : Returns (Call.scalloc num n).program sys.state p t := run
    obtain ⟨next, _, after, step, _, isolated, _⟩ := isolating
    obtain rfl := Except.ok.inj ((ask_returns returns).symm.trans step)
    cases served with
    | refused denied => exact Or.inr (held.tiled.surveyed.symm ▸ denied)
    | granted _ capacity _ transfer =>
      obtain ⟨rest, _, given, _⟩ := transfer.ledger
      have handed : p ≠ 0 := owned_proper (given.mem_iff.mpr (List.mem_cons_self))
      have asked : (p, num * n) ∈ (Call.scalloc num n).asking p sys.live := by
        simp only [Call.asking, if_neg handed, List.mem_cons_self]
      exact Or.inl (isolated.bounded transfer.sound.mappings asked)

/-- The calls of a run of small blocks isolate the payloads that the client asked for
exactly when no product wraps around to a request that can be satisfied. -/
theorem runs_isolate_iff (launch : Launch) (aligned : launch.brk % 8 = 0) (calls : List Call)
    (modest : Obeys ask Modest calls launch.system) :
    Obeys ask Isolating calls launch.system ↔ Obeys ask Unwrapped calls launch.system := by
  refine (obeys_agree_given (I := fun sys => ∃ blocks, Held sys blocks ∧ Exact sys.state blocks) ?_ ?_
    ⟨[], launch.held aligned, launch.exact⟩ modest).symm
  · rintro call sys next ⟨blocks, held, exact⟩ allowed unwrapped step
    obtain ⟨reached, new, same, advances, exactly⟩ := modest_step held exact allowed
    obtain rfl := Except.ok.inj (step.symm.trans ((held.asks unwrapped).trans same))
    exact ⟨new, advances.held, exactly⟩
  · rintro call sys ⟨blocks, held, exact⟩ allowed
    exact ⟨held.isolates exact allowed, held.unwrapped⟩

/-- The client writes to one block, another one is split and merged, one request is
zeroed, and of two products that wrap around one comes to nothing and one is refused. -/
theorem runs_isolate_iff_sample :
    Obeys ask Isolating
      [.smalloc 1000, .smalloc 20, .store 5200 7, .sfree 4128, .smalloc 100, .scalloc 3 10,
        .scalloc (2 ^ 63) 2, .scalloc (2 ^ 62 + 500) 4]
      (pageLaunch [.grant 0 (fun _ => 1), .grant 0 (fun _ => 2), .refuse]).system :=
  (runs_isolate_iff _ (by decide) _ (by decide +kernel)).mpr (by decide +kernel)

/-- The product of 2^62 + 1 and 4 wraps around to 4, and the client gets 8 bytes. -/
theorem run_wraps_product : ¬∀ (launch : Launch) (calls : List Call), launch.brk % 8 = 0 →
    Obeys ask Modest calls launch.system → Obeys ask Isolating calls launch.system := by
  intro always
  obtain ⟨launch, isLaunch⟩ : ∃ launch, launch = pageLaunch [.grant 0 (fun _ => 1)] := ⟨_, rfl⟩
  have aligned : launch.brk % 8 = 0 := by
    subst isLaunch
    decide
  have modest : Obeys ask Modest [.scalloc (2 ^ 62 + 1) 4] launch.system := by
    subst isLaunch
    decide +kernel
  have wrapped : ¬Unwrapped (.scalloc (2 ^ 62 + 1) 4) launch.system := by
    subst isLaunch
    decide +kernel
  exact wrapped ((launch.held aligned).unwrapped (always launch _ aligned modest).1)

end OperatingSystems.Malloc3
