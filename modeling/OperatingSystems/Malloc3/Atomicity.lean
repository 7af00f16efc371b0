import OperatingSystems.Malloc3.SafeRuns

/-!
# Requests that cannot be satisfied

A request fails cleanly when it returns null and leaves everything as it was.
`smalloc` always does. `scalloc` does unless the product it computes wraps around
to a request that can be satisfied. A growing `srealloc` never does: it copies
the old payload to the null it was given.
-/

namespace OperatingSystems.Malloc3

open Bytes Process MallocMetadata Tiling Payloads Runs

variable {sys : System} {blocks : List Block} {call : Call} {p n : Nat} {s t : State}
  {o : Nat × Nat}

/-- The call returns null and only uses up answers of the system. -/
def FailsCleanly (call : Call) (s : State) : Prop :=
  ∃ replies, Returns call.program s 0 { s with replies := replies }

/-- The request of a call can be satisfied. A block that is to grow may do so in
place, or be freed for a new one. -/
def CanServe (s : State) (blocks : List Block) : Call → Prop
  | .smalloc n => Satisfiable s blocks n
  | .scalloc num n => Satisfiable s blocks (num * n)
  | .srealloc p n =>
    if p = 0 then Satisfiable s blocks n else Resizable s blocks (p, blockSize s p) n
  | .sfree _ | .store _ _ => True

/-- A call that asks for memory and, when there is none, does not come back with
null: a growing resize, or a product that wraps around to a request that can be
satisfied. -/
def Stranded (s : State) (blocks : List Block) : Call → Prop
  | .scalloc num n => ¬Satisfiable s blocks (num * n) ∧ Satisfiable s blocks (wrap (num * n))
  | .srealloc p n => p ≠ 0 ∧ 0 < n ∧ n ≤ 100000000 ∧ blockSize s p < n ∧
      ¬Resizable s blocks (p, blockSize s p) n
  | .smalloc _ | .sfree _ | .store _ _ => False

/-- Growing into the last block, when it suffices, needs no more memory. -/
theorem LosesWilderness.grows {a : Nat} (loses : LosesWilderness s a n) : Grows s a n := by
  obtain ⟨way, _⟩ := loses
  have fits : n ≤ joined s a (growth s a n) := by
    revert way
    unfold growth
    split_ifs <;> simp only [joined, or_self, false_implies, or_true, true_or,
      true_implies] <;> omega
  refine ⟨?_, Or.inl ?_⟩
  · rcases way with way | way <;> simp [way]
  · unfold extension
    omega

/-- A resize that cannot be satisfied is safe. -/
theorem Sound.safe_unsatisfied (sound : Sound s blocks) (member : o ∈ owned blocks s.maps)
    (cannot : ¬Resizable s blocks o n) : SafeResize s o.1 n := by
  intro low high
  have sized : blockSize s o.1 = o.2 := (sound.capacity member).2.2
  have larger : o.2 < n := by
    by_contra fits
    exact cannot ⟨low, high, fun larger => absurd larger fits⟩
  rw [sized, if_neg (Nat.not_le.mpr larger)]
  intro small
  have idle : ¬Grows s (o.1 - 32) (roundUp n) := by
    intro grows
    refine cannot ⟨low, high, fun _ => ?_⟩
    rw [if_pos small]
    rcases mem_owned.mp member with ⟨b, listed, _, rfl⟩ | ⟨region, listed, rfl⟩
    · obtain ⟨pre, post, rfl⟩ := List.append_of_mem listed
      exact ⟨pre, b, post, rfl, rfl, Or.inl (by simpa using grows)⟩
    · have := sound.mappings.length listed
      simp only at small
      omega
  exact ⟨fun overlaps => idle overlaps.1, fun loses => idle loses.grows⟩

/-- A resize that cannot be satisfied is refused as invalid, or it asked for more and
stops the program. -/
theorem srealloc_unsatisfied (sound : Sound s blocks) (member : o ∈ owned blocks s.maps)
    (positive : 0 < o.2) (cannot : ¬Resizable s blocks o n) :
    (n = 0 ∨ 100000000 < n) ∧ Returns (srealloc o.1 n) s 0 s ∨
      (0 < n ∧ n ≤ 100000000 ∧ o.2 < n) ∧ ∃ fault, Faults (srealloc o.1 n) s fault := by
  by_cases outside : n = 0 ∨ 100000000 < n
  · exact Or.inl ⟨outside, Returns.ifPos outside Returns.pure⟩
  have larger : o.2 < n := by
    by_contra fits
    exact cannot ⟨by omega, by omega, fun larger => absurd larger fits⟩
  refine Or.inr ⟨⟨by omega, by omega, larger⟩, ?_⟩
  have grew := (srealloc_outcome sound member positive
    (sound.safe_unsatisfied member cannot)).resolve_left fun invalid => outside invalid.1
  cases grew with
  | stranded _ run => exact ⟨_, run⟩
  | failed _ run => exact ⟨_, run⟩
  | moved able => exact absurd able cannot

/-- A request for a new block that cannot be satisfied fails cleanly. -/
theorem smalloc_unsatisfied (sound : Sound s blocks) (cannot : ¬Satisfiable s blocks n) :
    ∃ replies, Returns (smalloc n) s 0 { s with replies := replies } := by
  obtain ⟨p, t, new, run, served, _⟩ := smalloc_served sound n
  cases served with
  | granted satisfied => exact absurd satisfied cannot
  | refused _ null _ after =>
    subst null
    rcases after with rfl | rfl
    · exact ⟨_, run⟩
    · exact ⟨_, run⟩

/-- Exactly when a call fails cleanly if its request cannot be satisfied. -/
theorem Occupied.fails_cleanly_iff (occupied : Occupied sys blocks) (legal : Legal call sys) :
    (¬CanServe sys.state blocks call → FailsCleanly call sys.state) ↔
      ¬Stranded sys.state blocks call := by
  have sound := occupied.toSound
  cases call with
  | sfree p => simp [CanServe, Stranded]
  | store a byte => simp [CanServe, Stranded]
  | smalloc n =>
    simp only [Stranded, not_false_iff, iff_true]
    exact fun cannot => smalloc_unsatisfied sound cannot
  | scalloc num n =>
    obtain ⟨q, t, new, run, served, _⟩ := scalloc_served sound num n
    simp only [Stranded, CanServe, not_and]
    refine forall_congr' fun cannot => ?_
    cases served with
    | refused denied null same after =>
      subst null
      refine iff_of_true ?_ denied
      rcases after with rfl | rfl
      · exact ⟨_, run⟩
      · exact ⟨_, run⟩
    | granted satisfied capacity fits transfer =>
      refine iff_of_false ?_ fun denied => denied satisfied
      rintro ⟨replies, null⟩
      obtain ⟨rest, _, after, _⟩ := transfer.ledger
      have handed : q ≠ 0 := owned_proper (after.mem_iff.mpr (List.mem_cons_self))
      exact handed (run.unique null).1
  | srealloc p n =>
    by_cases null : p = 0
    · subst null
      simp only [Stranded, CanServe, if_true, ne_eq, not_true_eq_false, false_and, not_false_iff, iff_true]
      intro cannot
      obtain ⟨replies, run⟩ := smalloc_unsatisfied sound cannot
      rw [← Malloc3.srealloc_null] at run
      exact ⟨replies, run⟩
    obtain ⟨o, listed, rfl, positive⟩ := occupied.payload (legal.resolve_left null)
    have whole : (o.1, blockSize sys.state o.1) = o := by
      rw [show blockSize sys.state o.1 = o.2 from (sound.capacity listed).2.2]
    simp only [Stranded, CanServe, if_neg null, whole]
    constructor
    · rintro clean ⟨_, low, high, _, cannot⟩
      obtain ⟨replies, returned⟩ := clean cannot
      rcases srealloc_unsatisfied sound listed positive cannot with
        ⟨invalid, _⟩ | ⟨_, fault, run⟩
      · omega
      · exact run.not_returns returned
    · intro clear cannot
      rcases srealloc_unsatisfied sound listed positive cannot with
        ⟨_, run⟩ | ⟨⟨low, high, larger⟩, _⟩
      · exact ⟨_, run⟩
      · refine absurd ⟨null, low, high, ?_, cannot⟩ clear
        rwa [show blockSize sys.state o.1 = o.2 from (sound.capacity listed).2.2]

/-- Every request that cannot be satisfied fails cleanly. -/
def Atomic (sys : System) (blocks : List Block) : Prop :=
  ∀ call, Legal call sys → ¬CanServe sys.state blocks call → FailsCleanly call sys.state

/-- In every state that a clean run reaches, a call fails cleanly when its request
cannot be satisfied exactly when it is not stranded. -/
theorem runs_fail_cleanly_iff (launch : Launch) (aligned : launch.brk % 8 = 0) (calls : List Call)
    (clean : During launch Clean calls) :
    Ends (fun sys => sys.state.strayUnmaps = [] ∧ ∃ blocks, Isolated sys blocks ∧
        ∀ call, Legal call sys →
          ((¬CanServe sys.state blocks call → FailsCleanly call sys.state) ↔
            ¬Stranded sys.state blocks call))
      (fun _ => True) (run launch calls) :=
  (clean_run launch aligned clean).mono fun _ ⟨⟨blocks, occupied⟩, clear⟩ =>
    ⟨clear, blocks, occupied.toHeld.isolated, fun _ legal => occupied.fails_cleanly_iff legal⟩

theorem runs_fail_cleanly_iff_sample : (run amply resizes).toOption.isSome = true ∧
    Ends (fun sys => sys.state.strayUnmaps = [] ∧ ∃ blocks, Isolated sys blocks ∧
        ∀ call, Legal call sys →
          ((¬CanServe sys.state blocks call → FailsCleanly call sys.state) ↔
            ¬Stranded sys.state blocks call))
      (fun _ => True) (run amply resizes) :=
  ⟨by decide +kernel, runs_fail_cleanly_iff amply (by decide) resizes (by decide +kernel)⟩

/-- A block of 8 bytes fills the heap, the system has no more memory, and a resize
to 1000 bytes does not return. -/
def cornered (sys : System) : Bool :=
  decide (sys.live = [(4128, 8)] ∧ sys.state.heapStart = 4096 ∧ sys.state.brk = 4168 ∧
    sys.state.replies.length = 0 ∧ blockSize sys.state 4128 = 8 ∧ ¬Grows sys.state 4096 1000) &&
    (perform (.srealloc 4128 1000) sys).toOption.isNone

/-- Such a resize is not clean. -/
theorem Isolated.not_atomic (isolated : Isolated sys blocks) (here : cornered sys = true) :
    ¬Atomic sys blocks := by
  intro atomic
  obtain ⟨facts, stops⟩ := Bool.and_eq_true_iff.mp here
  obtain ⟨live, heapStart, brk, answers, sized, idle⟩ := of_decide_eq_true facts
  have exhausted : sys.state.replies = [] := List.length_eq_zero_iff.mp answers
  have cannot : ¬CanServe sys.state blocks (.srealloc 4128 1000) := by
    rintro ⟨_, _, larger⟩
    rw [sized, if_pos (by decide)] at larger
    obtain ⟨pre, b, post, same, place, can⟩ := larger (by decide)
    have address : b.address = 4096 := by
      have := (Prod.mk.inj place).1
      omega
    rcases can with grows | ⟨_, _, replaced⟩
    · rw [address] at grows
      exact idle grows
    rw [if_pos (by decide)] at replaced
    rcases replaced with ⟨c, member, _, fits⟩ | granted
    · have := isolated.tiled.within (same ▸ member)
      have : roundUp 1000 = 1000 := by decide
      omega
    · have none : (if growth sys.state b.address (roundUp 1000) = .nowhere then sys.state
          else answered sys.state).replies = [] := by
        split <;> simp [answered, exhausted]
      simp [Machine.Grants, none] at granted
  obtain ⟨replies, returned⟩ := atomic (.srealloc 4128 1000) (Or.inr (by simp [live])) cannot
  rw [perform_returns returned] at stops
  exact absurd stops (by simp [Except.toOption])

/-- A block cannot grow and there is no room for another one: the program ends. -/
theorem run_fails_hard : ¬∀ (launch : Launch) (calls : List Call),
    launch.brk % 8 = 0 → During launch Legal calls →
      Ends (fun sys => ∃ blocks, Isolated sys blocks ∧ Atomic sys blocks) (fun _ => True)
        (run launch calls) := by
  intro always
  have within : During (pageLaunch [.grant 0 (fun _ => 1)]) Legal [.smalloc 8] := by
    decide +kernel
  refine not_ends (fun sys => !cornered sys) (fun sys ⟨_, isolated, atomic⟩ => ?_) ?_
    (always _ _ (by decide) within)
  · decide +kernel
  · cases here : cornered sys with
    | false => rfl
    | true => exact absurd atomic (isolated.not_atomic here)

end OperatingSystems.Malloc3
