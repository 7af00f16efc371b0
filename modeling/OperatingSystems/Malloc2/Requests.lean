import OperatingSystems.Malloc2.Isolation

/-!
# What the client asked for

Here too `scalloc` passes on a product of 64 bits. The payloads of a client that
goes by the exact product are isolated as long as no product wraps around to a
request that is granted, and no longer.
-/

namespace OperatingSystems.Malloc2

open Bytes Process MallocMetadata Payloads Runs

variable {sys next : System} {blocks new : List Block} {call : Call} {p : Nat} {s t : State}

/-- The size that the client asks for itself. -/
def Call.asks : Call → Nat
  | .scalloc num size => num * size
  | call => call.requests

/-- What the client holds once the call has returned `p`, with the sizes that it
asked for itself. -/
def Call.asking (p : Nat) (live : List (Nat × Nat)) (call : Call) : List (Nat × Nat) :=
  match call with
  | .scalloc _ _ => if p = 0 then live else (p, call.asks) :: live
  | call => call.holding p live

/-- Perform one call of a client that goes by what it asked for. -/
def ask (call : Call) (sys : System) : Except Fault System :=
  match call.program sys.state with
  | .ok (p, state) => .ok
    { state := state
      live := call.asking p sys.live
      returned := if p = 0 then sys.returned else (p, call.asks) :: sys.returned }
  | .error fault => .error fault

/-- The blocks of the heap, by the record of `sbrk` and their flags. -/
def surveyed (s : State) : List Block :=
  s.globals.carved.map fun region => ⟨region.1, region.2 - 32, isFree s.bytes region.1⟩

theorem Sound.surveyed (sound : Sound s blocks) : Malloc2.surveyed s = blocks := by
  unfold Malloc2.surveyed
  rw [sound.carved, List.map_map]
  conv_rhs => rw [← List.map_id blocks]
  refine List.map_congr_left fun b member => ?_
  simp only [Function.comp_apply, Nat.add_sub_cancel, id_eq]
  rw [(sound.stored b member).2]

/-- The product of a call is a 64-bit value, or what is left of it is denied. -/
def Unwrapped (call : Call) (sys : System) : Prop :=
  match call with
  | .scalloc num n => num * n < 2 ^ 64 ∨ Denied sys.state (surveyed sys.state) (wrap (num * n))
  | _ => True

instance : (call : Call) → (sys : System) → Decidable (Unwrapped call sys)
  | .scalloc _ _, _ => inferInstanceAs (Decidable (_ ∨ _))
  | .smalloc _, _ | .sfree _, _ | .srealloc _ _, _ | .store _ _, _ => inferInstanceAs (Decidable True)

theorem ask_returns (run : Returns call.program sys.state p t) :
    ask call sys = .ok ⟨t, call.asking p sys.live,
      if p = 0 then sys.returned else (p, call.asks) :: sys.returned⟩ := by
  unfold ask
  rw [show call.program sys.state = _ from run]

/-- Without a wrapped product `scalloc` serves the one asked for. -/
theorem Sound.product {num n : Nat} (sound : Sound sys.state blocks)
    (unwrapped : Unwrapped (.scalloc num n) sys) (run : Returns (scalloc num n) sys.state p t)
    (handed : p ≠ 0) : wrap (num * n) = num * n := by
  rcases unwrapped with exact | denied
  · exact wrap_eq exact
  · rcases scalloc_outcome sound num n with ⟨_, replies, null⟩ | ⟨_, _, _, _, granted, _⟩
    · exact absurd (run.unique null).1 handed
    · exact absurd (sound.surveyed ▸ denied) granted

/-- Then the client got what it asked for. -/
theorem Held.asks (held : Held sys blocks) (unwrapped : Unwrapped call sys) :
    ask call sys = perform call sys := by
  cases call with
  | scalloc num n =>
    obtain ⟨p, t, run⟩ : ∃ p t, Returns (Malloc2.scalloc num n) sys.state p t := by
      rcases scalloc_outcome held.toSound num n with ⟨_, _, run⟩ | ⟨_, _, _, _, _, run, _⟩
      · exact ⟨_, _, run⟩
      · exact ⟨_, _, run⟩
    have returns : Returns (Call.scalloc num n).program sys.state p t := run
    rw [ask_returns returns, perform_returns _ returns]
    simp only [Call.asking, Call.holding, Call.asks, Call.requests]
    by_cases null : p = 0
    · simp only [if_pos null]
    · rw [held.toSound.product unwrapped run null]
  | smalloc _ | sfree _ | srealloc _ _ | store _ _ => rfl

/-- A client whose payloads are isolated has asked for 64-bit sizes. -/
theorem Isolated.bounded (isolated : Isolated sys blocks) {e : Nat × Nat} (member : e ∈ sys.live) :
    e.2 < 2 ^ 64 := by
  obtain ⟨o, listed, _, fits⟩ := isolated.backed.payload member
  obtain ⟨b, known, _, rfl⟩ := mem_owned.mp listed
  have small : size sys.state.bytes b.address < 2 ^ 64 := load_lt _ _ _
  rw [(isolated.listed.stored b known).1] at small
  simp only at fits
  omega

/-- The call returns, the payloads are isolated before and after it, and it leaves alone
what the client keeps; a resize does what it should. -/
def Isolating (call : Call) (sys : System) : Prop :=
  ∃ next blocks new, ask call sys = .ok next ∧ Isolated sys blocks ∧ Isolated next new ∧
    Untouched call sys next ∧ ∀ p n, call = .srealloc p n → ∃ r, Resizes p n sys blocks r next new

/-- Without a wrapped product the call isolates the payloads. -/
theorem Held.isolates (held : Held sys blocks) (legal : Legal call sys)
    (unwrapped : Unwrapped call sys) : Isolating call sys := by
  obtain ⟨next, new, step, advances, resizes⟩ := held.step legal
  exact ⟨next, blocks, new, (held.asks unwrapped).trans step, held.isolated, advances.held.isolated,
    advances.untouched, resizes⟩

/-- A product that wraps around leaves a payload that is not isolated. -/
theorem Held.unwrapped (held : Held sys blocks) (isolating : Isolating call sys) :
    Unwrapped call sys := by
  cases call with
  | smalloc _ | sfree _ | srealloc _ _ | store _ _ => trivial
  | scalloc num n =>
    rcases scalloc_outcome held.toSound num n with ⟨denied, _⟩ |
      ⟨p, t, new, c, _, run, _, _, _, here, _⟩
    · exact Or.inr (held.toSound.surveyed.symm ▸ denied)
    · have returns : Returns (Call.scalloc num n).program sys.state p t := run
      obtain ⟨next, _, after, step, _, isolated, _⟩ := isolating
      obtain rfl := Except.ok.inj ((ask_returns returns).symm.trans step)
      have asked : (p, num * n) ∈ (Call.scalloc num n).asking p sys.live := by
        simp only [Call.asking, Call.asks, if_neg (show p ≠ 0 by omega), List.mem_cons_self]
      exact Or.inl (isolated.bounded asked)

/-- The calls of a client that uses the pointers it holds isolate the payloads that it
asked for exactly when no product wraps around to a request that is granted. -/
theorem calls_isolate_iff (launch : Launch) (calls : List Call)
    (legal : Obeys ask Legal calls launch.system) :
    Obeys ask Isolating calls launch.system ↔ Obeys ask Unwrapped calls launch.system := by
  refine (obeys_agree_given (I := fun sys => ∃ blocks, Held sys blocks) ?_ ?_
    ⟨[], launch.sound, List.Perm.refl _, by simp [Launch.system]⟩ legal).symm
  · rintro call sys next ⟨blocks, held⟩ allowed unwrapped step
    obtain ⟨reached, new, same, advances, _⟩ := held.step allowed
    obtain rfl := Except.ok.inj (step.symm.trans ((held.asks unwrapped).trans same))
    exact ⟨new, advances.held⟩
  · rintro call sys ⟨blocks, held⟩ allowed
    exact ⟨held.isolates allowed, held.unwrapped⟩

/-- A block is zeroed, written and moved into a freed one by a resize, and of two
products that wrap around one comes to nothing and one is refused. -/
theorem calls_isolate_iff_sample :
    Obeys ask Isolating
      [.smalloc 100, .scalloc 2 15, .store 8224 7, .sfree 4128, .srealloc 8224 80, .scalloc (2 ^ 63) 2,
        .scalloc (2 ^ 62 + 500) 4]
      (launchWith [.grant 4096 (fun _ => 0), .grant 8192 (fun _ => 0), .refuse]).system :=
  (calls_isolate_iff _ _ (by decide +kernel)).mpr (by decide +kernel)

/-- The product of 2^62 + 1 and 4 wraps around to 4, and the client gets 4 bytes. -/
theorem call_wraps_product : ¬∀ (launch : Launch) (calls : List Call),
    Obeys ask Legal calls launch.system → Obeys ask Isolating calls launch.system := by
  intro always
  obtain ⟨launch, isLaunch⟩ : ∃ launch, launch = launchWith [.grant 4096 (fun _ => 0)] := ⟨_, rfl⟩
  have legal : Obeys ask Legal [.scalloc (2 ^ 62 + 1) 4] launch.system := by
    subst isLaunch
    decide +kernel
  have wrapped : ¬Unwrapped (.scalloc (2 ^ 62 + 1) 4) launch.system := by
    subst isLaunch
    decide +kernel
  have held : Held launch.system [] := ⟨launch.sound, List.Perm.refl _, by simp [Launch.system]⟩
  exact wrapped (held.unwrapped (always launch _ legal).1)

end OperatingSystems.Malloc2
