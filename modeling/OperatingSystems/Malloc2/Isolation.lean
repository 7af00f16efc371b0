import OperatingSystems.Malloc2.WellFormed

/-!
# Isolated payloads and resizing

What a client that uses only the pointers it holds may rely on: its payloads
overlap neither each other nor any header, no call changes what it keeps, and a
resize either gives it a payload with the old bytes or leaves all as it was.
-/

namespace OperatingSystems.Malloc2

open Bytes Process MallocMetadata Payloads Runs

/-- The payloads of the client are long enough, clear of each other and clear of
every header. -/
structure Isolated (sys : System) (blocks : List Block) : Prop where
  listed : WellFormed sys.state blocks
  backed : Backed sys.live (owned blocks)
  separate : (owned blocks).Pairwise fun x y => x.1 + x.2 ≤ y.1 ∨ y.1 + y.2 ≤ x.1
  clear : Disjoint (payloadCells (owned blocks)) (headers blocks)

/-- The cells a client writes itself. -/
def Call.written : Call → Set Nat
  | .store a _ => {a}
  | _ => ∅

/-- The bytes asked for under a pointer that stays live are those before the
call, apart from a write of the client itself. -/
def Untouched (call : Call) (sys next : System) : Prop :=
  Unchanged sys.state.bytes next.state.bytes sys.live next.live call.written

/-- What `srealloc(p, n)` has done when it returned `r`: all other payloads are
as they were; a pointer is that of a live payload of `n` bytes or more with the
bytes of the old one; null leaves everything as it was. -/
structure Resizes (p n : Nat) (sys : System) (blocks : List Block) (r : Nat) (next : System)
    (new : List Block) : Prop where
  returns : Returns (srealloc p n) sys.state r next.state
  others : ∀ o ∈ owned blocks, o.1 ≠ p →
    o ∈ owned new ∧ ∀ x, o.1 ≤ x → x < o.1 + o.2 → next.state.bytes x = sys.state.bytes x
  moved : r ≠ 0 → (r, n) ∈ next.live ∧ ∃ c ∈ new, c.free = false ∧ r = c.address + 32 ∧ n ≤ c.size ∧
    ∀ b ∈ blocks, p = b.address + 32 →
      ∀ i, i < min b.size n → next.state.bytes (r + i) = sys.state.bytes (p + i)
  failed : r = 0 → new = blocks ∧ next.live = sys.live ∧
    next.state.globals = sys.state.globals ∧ next.state.bytes = sys.state.bytes
  fails : r = 0 → n = 0 ∨ 100000000 < n ∨ Denied sys.state blocks n

/-- The heap is sound and the client holds what was handed out. -/
structure Held (sys : System) (blocks : List Block) : Prop extends Sound sys.state blocks where
  backed : Backed sys.live (owned blocks)

variable {s t : State} {sys next : System} {old new blocks : List Block} {call : Call} {b c : Block}
  {p n : Nat}

theorem Held.isolated (held : Held sys blocks) : Isolated sys blocks where
  listed := held.toSound.well_formed
  backed := held.backed
  separate := held.payloads
  clear := held.clear

/-- A pointer of the client is that of a block in use. -/
theorem Held.pointer (held : Held sys blocks) (member : p ∈ sys.live.map Prod.fst) :
    ∃ b ∈ blocks, b.free = false ∧ p = b.address + 32 := by
  obtain ⟨o, listed, rfl⟩ := List.mem_map.mp (held.backed.pointers.mem_iff.mp member)
  obtain ⟨b, inBlocks, used, rfl⟩ := mem_owned.mp listed
  exact ⟨b, inBlocks, used, rfl⟩

/-- What one call has done: it returned, what the client then holds is backed,
and what it keeps is not touched. -/
structure Advances (call : Call) (sys : System) (next : System) (new : List Block) : Prop where
  held : Held next new
  untouched : Untouched call sys next

/-- A call that leaves blocks and bytes as they were, and what the client holds. -/
theorem Held.rests (held : Held sys blocks) {replies : List Reply} {returned : List (Nat × Nat)} :
    Advances call sys ⟨{ sys.state with replies := replies }, sys.live, returned⟩ blocks :=
  ⟨⟨held.answered, held.backed⟩, fun _ _ _ _ _ _ _ _ _ _ => rfl⟩

/-- A payload was handed out. -/
theorem Held.gains (held : Held sys old) (sound : Sound t new) {capacity : Nat}
    (exchange : Exchange sys.state.bytes t.bytes (owned old) (owned new) [] [(p, capacity)])
    (fits : n ≤ capacity) {returned : List (Nat × Nat)} :
    Advances call sys ⟨t, (p, n) :: sys.live, returned⟩ new := by
  obtain ⟨backed, untouched⟩ := exchange.given call.written fits sound.distinct held.backed
  exact ⟨⟨sound, backed⟩, untouched⟩

/-- The exchange of a request that was granted. -/
theorem Grant.exchange (grant : Grant s old n p t new) (sound : Sound s old) :
    ∃ c ∈ new, p = c.address + 32 ∧ c.free = false ∧ n ≤ c.size ∧
      Exchange s.bytes t.bytes (owned old) (owned new) [] [(p, c.size)] := by
  obtain ⟨c, listed, here, used, fits, ledger⟩ := grant.block
  exact ⟨c, listed, here, used, fits, grant.evolves.exchange sound (List.Perm.refl _) ledger⟩

/-- A request by the client. -/
theorem Held.smalloc (held : Held sys old) (n : Nat) :
    ∃ next new, perform (.smalloc n) sys = .ok next ∧ Advances (.smalloc n) sys next new := by
  rcases smalloc_cases held.toSound n with ⟨_, replies, run⟩ | ⟨p, t, new, run, grant, _⟩
  · exact ⟨_, old, perform_returns (.smalloc n) run, held.rests⟩
  · obtain ⟨c, _, here, _, fits, exchange⟩ := grant.exchange held.toSound
    refine ⟨_, new, perform_returns (.smalloc n) run, ?_⟩
    simp only [Call.holding, if_neg (show p ≠ 0 by omega)]
    exact held.gains grant.evolves.sound exchange fits

theorem Held.scalloc (held : Held sys old) (num size : Nat) :
    ∃ next new, perform (.scalloc num size) sys = .ok next ∧
      Advances (.scalloc num size) sys next new := by
  rcases scalloc_cases held.toSound num size with ⟨replies, run⟩ |
    ⟨p, t, new, c, run, after, _, _, here, fits, exchange⟩
  · exact ⟨_, old, perform_returns (.scalloc num size) run, held.rests⟩
  · refine ⟨_, new, perform_returns (.scalloc num size) run, ?_⟩
    simp only [Call.holding, if_neg (show p ≠ 0 by omega)]
    exact held.gains after exchange fits

/-- No pointer of the client is null. -/
theorem Held.forget_null (held : Held sys old) : forget 0 sys.live = sys.live := by
  refine List.filter_eq_self.mpr fun e member => decide_eq_true fun null => ?_
  obtain ⟨b, _, _, here⟩ := held.pointer (List.mem_map_of_mem member)
  omega

theorem Held.sfree (held : Held sys old) (legal : Legal (.sfree p) sys) :
    ∃ next new, perform (.sfree p) sys = .ok next ∧ Advances (.sfree p) sys next new := by
  rcases legal with rfl | member
  · have run : Returns (Call.sfree 0).program sys.state 0 sys.state := rfl
    refine ⟨_, old, perform_returns _ run, ?_⟩
    simp only [Call.holding, held.forget_null]
    exact held.rests
  · obtain ⟨b, listed, used, rfl⟩ := held.pointer member
    obtain ⟨front, back, rfl⟩ := List.append_of_mem listed
    obtain ⟨t, frees, evolves⟩ := sfree_cases held.toSound
    have run : Returns (Call.sfree (b.address + 32)).program sys.state 0 t :=
      Returns.bind frees Returns.pure
    obtain ⟨backed, untouched⟩ := Exchange.taken ∅
      (evolves.exchange held.toSound (owned_release used) (List.Perm.refl _)) held.distinct held.backed
    exact ⟨_, _, perform_returns _ run, ⟨evolves.sound, backed⟩, untouched⟩

theorem Held.store (held : Held sys old) {a : Nat} {byte : UInt8} (legal : Legal (.store a byte) sys) :
    ∃ next new, perform (.store a byte) sys = .ok next ∧ Advances (.store a byte) sys next new := by
  obtain ⟨run, after⟩ := store_cases held.toSound (placed_of_backed held.backed) byte legal
  refine ⟨_, old, perform_returns _ run, ⟨after, held.backed⟩, ?_⟩
  intro e _ f _ _ x _ _ _ other
  refine store_outside _ _ _ _ fun cell => other ?_
  simp only [mem_cells] at cell
  have same : x = a := by omega
  exact same

/-- A block of the client was replaced by another, or kept. -/
theorem Held.replaces (held : Held sys old) (sound : Sound t new) {capacity : Nat} {q : Nat}
    (exchange : Exchange sys.state.bytes t.bytes (owned old) (owned new) [(q, capacity)] [(p, c.size)])
    (fits : n ≤ c.size)
    (carried : ∀ i, i < capacity → i < c.size → t.bytes (p + i) = sys.state.bytes (q + i))
    {returned : List (Nat × Nat)} :
    Advances (.srealloc q n) sys ⟨t, (p, n) :: forget q sys.live, returned⟩ new := by
  obtain ⟨backed, untouched⟩ := exchange.moved ∅ fits carried held.distinct sound.distinct
    held.backed
  exact ⟨⟨sound, backed⟩, untouched⟩

/-- A resize that returned null. -/
theorem Resizes.refused {q : Nat} {replies : List Reply} {returned : List (Nat × Nat)}
    (run : Returns (srealloc q n) sys.state 0 { sys.state with replies := replies })
    (fails : n = 0 ∨ 100000000 < n ∨ Denied sys.state blocks n) :
    Resizes q n sys blocks 0 ⟨{ sys.state with replies := replies }, sys.live, returned⟩ blocks where
  returns := run
  others := fun _ member _ => ⟨member, fun _ _ _ => rfl⟩
  moved := fun proper => absurd rfl proper
  failed := fun _ => ⟨rfl, rfl, rfl, rfl⟩
  fails := fun _ => fails

/-- A resize that returned a pointer. -/
theorem Resizes.granted {q : Nat} {taken : List (Nat × Nat)} {live returned : List (Nat × Nat)}
    (run : Returns (srealloc q n) sys.state (c.address + 32) t)
    (exchange : Exchange sys.state.bytes t.bytes (owned old) (owned new) taken [(c.address + 32, c.size)])
    (same : ∀ o ∈ taken, o.1 = q) (member : c ∈ new) (used : c.free = false) (fits : n ≤ c.size)
    (carried : ∀ b ∈ old, q = b.address + 32 →
      ∀ i, i < min b.size n → t.bytes (c.address + 32 + i) = sys.state.bytes (q + i)) :
    Resizes q n sys old (c.address + 32) ⟨t, (c.address + 32, n) :: live, returned⟩ new where
  returns := run
  others := by
    intro o listed other
    refine exchange.others listed fun gone => other ?_
    obtain ⟨e, inTaken, here⟩ := List.mem_map.mp gone
    exact here.symm.trans (same e inTaken)
  moved := fun _ => ⟨List.mem_cons_self, c, member, used, rfl, fits, carried⟩
  failed := fun null => absurd null (by omega)
  fails := fun null => absurd null (by omega)

theorem Held.srealloc (held : Held sys old) (legal : Legal (.srealloc p n) sys) :
    ∃ r next new, perform (.srealloc p n) sys = .ok next ∧ Advances (.srealloc p n) sys next new ∧
      Resizes p n sys old r next new := by
  have refused : ∀ replies, Returns (Malloc2.srealloc p n) sys.state 0
        { sys.state with replies := replies } →
      (n = 0 ∨ 100000000 < n ∨ Denied sys.state old n) →
      ∃ r next new, perform (.srealloc p n) sys = .ok next ∧ Advances (.srealloc p n) sys next new ∧
        Resizes p n sys old r next new := fun replies run fails =>
    ⟨0, _, old, perform_returns (.srealloc p n) run, held.rests, Resizes.refused run fails⟩
  rcases legal with rfl | member
  · by_cases odd : n = 0 ∨ 100000000 < n
    · exact refused sys.state.replies (Returns.ifPos odd Returns.pure) (odd.imp_right Or.inl)
    rcases smalloc_cases held.toSound n with ⟨denied, replies, run⟩ | ⟨r, t, new, run, grant, _⟩
    · exact refused replies (Returns.ifNeg odd (Returns.ifPos rfl run)) (Or.inr (Or.inr denied))
    · obtain ⟨c, listed, rfl, used, fits, exchange⟩ := grant.exchange held.toSound
      have returns : Returns (Malloc2.srealloc 0 n) sys.state (c.address + 32) t :=
        Returns.ifNeg odd (Returns.ifPos rfl run)
      refine ⟨c.address + 32, _, new, perform_returns (.srealloc 0 n) returns, ?_, ?_⟩
      · simp only [Call.holding, if_neg (show c.address + 32 ≠ 0 by omega), held.forget_null]
        exact held.gains grant.evolves.sound exchange fits
      · simp only [Call.holding, if_neg (show c.address + 32 ≠ 0 by omega)]
        exact Resizes.granted returns exchange (by simp) listed used fits fun b _ null =>
          absurd null (by omega)
  · obtain ⟨b, listed, live, rfl⟩ := held.pointer member
    have isOwned : (b.address + 32, b.size) ∈ owned old := mem_owned.mpr ⟨b, listed, live, rfl⟩
    have only : ∀ d ∈ old, b.address + 32 = d.address + 32 → d = b := fun d known same =>
      held.unique known listed (by omega)
    rcases srealloc_cases held.toSound listed n with ⟨fails, replies, run⟩ | ⟨proper, fits, run⟩ |
      ⟨grows, r, t, new, run, relocation⟩
    · exact refused replies run fails
    · refine ⟨b.address + 32, _, old, perform_returns (.srealloc _ n) run, ?_, ?_⟩
      · simp only [Call.holding, if_neg (show b.address + 32 ≠ 0 by omega)]
        exact held.replaces held.toSound (Exchange.keep isOwned) fits fun _ _ _ => rfl
      · simp only [Call.holding, if_neg (show b.address + 32 ≠ 0 by omega)]
        exact Resizes.granted run (Exchange.keep isOwned) (by simp) listed live fits fun _ _ _ _ _ => rfl
    · obtain ⟨c, inNew, rfl, used, fits, exchange, carried⟩ := relocation.block
      refine ⟨c.address + 32, _, new, perform_returns (.srealloc _ n) run, ?_, ?_⟩
      · simp only [Call.holding, if_neg (show c.address + 32 ≠ 0 by omega)]
        exact held.replaces relocation.sound (exchange live) fits fun i inside _ => carried i inside
      · simp only [Call.holding, if_neg (show c.address + 32 ≠ 0 by omega)]
        refine Resizes.granted run (exchange live) (by simp) inNew used fits fun d known same i inside => ?_
        rw [only d known same] at inside
        exact carried i (by omega)

/-- One call of a client that uses the pointers it holds. -/
theorem Held.step (held : Held sys old) (legal : Legal call sys) :
    ∃ next new, perform call sys = .ok next ∧ Advances call sys next new ∧
      ∀ p n, call = .srealloc p n → ∃ r, Resizes p n sys old r next new := by
  cases call with
  | smalloc n =>
    obtain ⟨next, new, step, advances⟩ := held.smalloc n
    exact ⟨next, new, step, advances, fun _ _ other => by simp at other⟩
  | scalloc num size =>
    obtain ⟨next, new, step, advances⟩ := held.scalloc num size
    exact ⟨next, new, step, advances, fun _ _ other => by simp at other⟩
  | sfree p =>
    obtain ⟨next, new, step, advances⟩ := held.sfree legal
    exact ⟨next, new, step, advances, fun _ _ other => by simp at other⟩
  | srealloc p n =>
    obtain ⟨r, next, new, step, advances, resizes⟩ := held.srealloc legal
    refine ⟨next, new, step, advances, ?_⟩
    rintro q m same
    obtain ⟨rfl, rfl⟩ := Call.srealloc.inj same
    exact ⟨r, resizes⟩
  | store a byte =>
    obtain ⟨next, new, step, advances⟩ := held.store legal
    exact ⟨next, new, step, advances, fun _ _ other => by simp at other⟩

/-- A whole such run. -/
theorem legal_run (launch : Launch) {calls : List Call} (legal : During launch Legal calls) :
    ∃ sys, run launch calls = .ok sys ∧ ∃ blocks, Held sys blocks := by
  refine (execute_ends (I := fun sys => ∃ blocks, Held sys blocks) (fun call sys invariant allowed => ?_)
    ⟨[], launch.sound, List.Perm.refl _, by simp [Launch.system]⟩ legal).reaches
  obtain ⟨blocks, held⟩ := invariant
  obtain ⟨next, new, step, advances, _⟩ := held.step allowed
  rw [step]
  exact ⟨new, advances.held⟩

end OperatingSystems.Malloc2
