import OperatingSystems.Bytes

/-!
# Payloads and their owners

An allocator hands out payloads, each an address with a capacity, and takes
them back. A client holds pointers, each with the size it asked for. An
exchange is what one call does: some payloads are taken back, some are handed
out, and the others keep their bytes. It carries what the client holds, and
what the client may rely on, across the call.
-/

namespace OperatingSystems.Payloads

open Bytes

/-- The cells of some payloads. -/
def payloadCells (payloads : List (Nat × Nat)) : Set Nat :=
  {x | ∃ o ∈ payloads, o.1 ≤ x ∧ x < o.1 + o.2}

/-- Among more payloads there are more cells. -/
theorem payloadCells_mono {few many : List (Nat × Nat)} (subset : few ⊆ many) :
    payloadCells few ⊆ payloadCells many := by
  rintro x ⟨o, member, inside⟩
  exact ⟨o, subset member, inside⟩

/-- Some payloads are taken back, some are given, and the others keep their
bytes. -/
def Exchange (old new : Memory) (before after taken given : List (Nat × Nat)) : Prop :=
  ∃ rest, before.Perm (taken ++ rest) ∧ after.Perm (given ++ rest) ∧
    Set.EqOn new old (payloadCells rest)

/-- The bytes asked for under a pointer held before and after are the same,
apart from these cells. -/
def Unchanged (old new : Memory) (live later : List (Nat × Nat)) (written : Set Nat) : Prop :=
  ∀ e ∈ live, ∀ f ∈ later, e.1 = f.1 → ∀ x, e.1 ≤ x → x < e.1 + e.2 → x < f.1 + f.2 →
    x ∉ written → new x = old x

/-- Forget a pointer. -/
def forget (p : Nat) (live : List (Nat × Nat)) : List (Nat × Nat) := live.filter fun e => e.1 ≠ p

/-- The client holds exactly the payloads handed out, and asked for no more
than their capacity. -/
structure Backed (live payloads : List (Nat × Nat)) : Prop where
  pointers : (live.map Prod.fst).Perm (payloads.map Prod.fst)
  fits : ∀ e ∈ live, ∀ o ∈ payloads, e.1 = o.1 → e.2 ≤ o.2

variable {live before after gone rest : List (Nat × Nat)} {p q n size capacity : Nat}
  {old new : Memory} {written : Set Nat}

/-- Fewer pointers are unchanged as well. -/
theorem Unchanged.mono {later few kept : List (Nat × Nat)} (unchanged : Unchanged old new live later written)
    (before : few ⊆ live) (after : kept ⊆ later) : Unchanged old new few kept written :=
  fun e first f second => unchanged e (before first) f (after second)

/-- Each pointer of the client is that of a payload. -/
theorem Backed.payload (backed : Backed live before) {e : Nat × Nat} (member : e ∈ live) :
    ∃ o ∈ before, o.1 = e.1 ∧ e.2 ≤ o.2 := by
  obtain ⟨o, listed, same⟩ := List.mem_map.mp
    (backed.pointers.mem_iff.mp (List.mem_map_of_mem member))
  exact ⟨o, listed, same, backed.fits e member o listed same.symm⟩

/-- The client's bytes lie in payloads. -/
theorem Backed.cells (backed : Backed live before) : payloadCells live ⊆ payloadCells before := by
  rintro x ⟨e, member, low, high⟩
  obtain ⟨o, listed, same, fits⟩ := backed.payload member
  exact ⟨o, listed, by omega, by omega⟩

/-- Only what the payloads are matters. -/
theorem Backed.perm (backed : Backed live before) (perm : before.Perm after) :
    Backed live after where
  pointers := backed.pointers.trans (perm.map _)
  fits := fun e member o listed => backed.fits e member o (perm.mem_iff.mpr listed)

/-- A payload that was given back is forgotten. -/
theorem Backed.forget (backed : Backed live ((p, capacity) :: rest))
    (distinct : (p :: rest.map Prod.fst).Nodup) : Backed (forget p live) rest := by
  have absent := (List.nodup_cons.mp distinct).1
  refine ⟨?_, fun e member o listed => ?_⟩
  · have filtered := backed.pointers.filter fun q => decide (q ≠ p)
    have first : (live.map Prod.fst).filter (fun q => decide (q ≠ p)) =
        (Payloads.forget p live).map Prod.fst := by
      rw [List.filter_map]
      rfl
    have second : (((p, capacity) :: rest).map Prod.fst).filter (fun q => decide (q ≠ p)) =
        rest.map Prod.fst := by
      simp only [List.map_cons, ne_eq, not_true_eq_false, decide_false, Bool.false_eq_true,
        not_false_eq_true, List.filter_cons_of_neg]
      refine List.filter_eq_self.mpr fun q member => ?_
      exact decide_eq_true fun same => absent (same ▸ member)
    rwa [first, second] at filtered
  · exact backed.fits e (List.mem_filter.mp member).1 o (List.mem_cons_of_mem _ listed)

/-- A payload that was handed out is held. -/
theorem Backed.hold (backed : Backed live rest) (fits : n ≤ capacity)
    (distinct : (p :: rest.map Prod.fst).Nodup) :
    Backed ((p, n) :: live) ((p, capacity) :: rest) := by
  have absent := (List.nodup_cons.mp distinct).1
  refine ⟨backed.pointers.cons p, fun e member o listed same => ?_⟩
  rcases List.mem_cons.mp member with rfl | member <;> rcases List.mem_cons.mp listed with rfl | listed
  · exact fits
  · exact absurd (List.mem_map.mpr ⟨o, listed, same.symm⟩) absent
  · have known := backed.pointers.mem_iff.mp (List.mem_map_of_mem member)
    rw [show e.1 = p from same] at known
    exact absurd known absent
  · exact backed.fits e member o listed same

/-- A pointer that is not given back keeps its bytes. -/
theorem Backed.stays (backed : Backed live before) (ledger : before.Perm (gone ++ rest))
    {e : Nat × Nat} (member : e ∈ live) (stays : e.1 ∉ gone.map Prod.fst) {x : Nat}
    (low : e.1 ≤ x) (high : x < e.1 + e.2) : x ∈ payloadCells rest := by
  obtain ⟨o, listed, same, fits⟩ := backed.payload member
  rcases List.mem_append.mp (ledger.mem_iff.mp listed) with left | stayed
  · exact absurd (List.mem_map.mpr ⟨o, left, same⟩) stays
  · exact ⟨o, stayed, by omega, by omega⟩

namespace Exchange

/-- The client forgets a payload that was taken back. -/
theorem taken (written : Set Nat) (exchange : Exchange old new before after [(p, capacity)] [])
    (distinct : (before.map Prod.fst).Nodup) (backed : Backed live before) :
    Backed (forget p live) after ∧ Unchanged old new live (forget p live) written := by
  obtain ⟨rest, ledger, remains, kept⟩ := exchange
  refine ⟨((backed.perm ledger).forget ((ledger.map Prod.fst).nodup_iff.mp distinct)).perm
    remains.symm, ?_⟩
  intro e held f later same x low high _ _
  have stays : e.1 ≠ p := same ▸ of_decide_eq_true (List.mem_filter.mp later).2
  exact kept (backed.stays ledger held (by simpa using stays) low high)

/-- The client holds a payload that was handed out. -/
theorem given (written : Set Nat) (exchange : Exchange old new before after [] [(p, capacity)]) (fits : n ≤ capacity)
    (distinct : (after.map Prod.fst).Nodup) (backed : Backed live before) :
    Backed ((p, n) :: live) after ∧ Unchanged old new live ((p, n) :: live) written := by
  obtain ⟨rest, ledger, remains, kept⟩ := exchange
  refine ⟨((backed.perm ledger).hold fits ((remains.map Prod.fst).nodup_iff.mp distinct)).perm
    remains.symm, ?_⟩
  intro e held f _ _ x low high _ _
  exact kept (backed.stays ledger held (by simp) low high)

/-- The client holds one payload in the place of another, with the bytes of the
old one. -/
theorem moved (written : Set Nat) (exchange : Exchange old new before after [(p, capacity)] [(q, n)]) (fits : size ≤ n)
    (carried : ∀ i, i < capacity → i < n → new (q + i) = old (p + i))
    (unique : (before.map Prod.fst).Nodup) (distinct : (after.map Prod.fst).Nodup)
    (backed : Backed live before) :
    Backed ((q, size) :: forget p live) after ∧
      Unchanged old new live ((q, size) :: forget p live) written := by
  obtain ⟨rest, ledger, remains, kept⟩ := exchange
  have first := (ledger.map Prod.fst).nodup_iff.mp unique
  refine ⟨(((backed.perm ledger).forget first).hold fits
    ((remains.map Prod.fst).nodup_iff.mp distinct)).perm remains.symm, ?_⟩
  intro e held f later same x low high high' _
  by_cases moves : e.1 = p
  · obtain ⟨o, listed, here, room⟩ := backed.payload held
    have whole : o = (p, capacity) := by
      rcases List.mem_append.mp (ledger.mem_iff.mp listed) with own | other
      · exact List.mem_singleton.mp own
      · have known := List.mem_map_of_mem (f := Prod.fst) other
        rw [here, moves] at known
        exact absurd known (List.nodup_cons.mp first).1
    subst whole
    have isNew : f = (q, size) := by
      rcases List.mem_cons.mp later with own | other
      · exact own
      · exact absurd (same ▸ moves) (of_decide_eq_true (List.mem_filter.mp other).2)
    subst isNew
    have stays : p = q := moves.symm.trans same
    subst stays
    simp only at same high high' room
    have bytes := carried (x - p) (by omega) (by omega)
    rwa [show p + (x - p) = x by omega] at bytes
  · exact kept (backed.stays ledger held (by simpa using moves) low high)

/-- Keeping a payload replaces it by itself. -/
theorem keep {o : Nat × Nat} (member : o ∈ before) : Exchange old old before before [o] [o] :=
  ⟨before.erase o, List.perm_cons_erase member, List.perm_cons_erase member, fun _ _ => rfl⟩

/-- A payload that is not taken back stays, with its bytes. -/
theorem others {taken given : List (Nat × Nat)} (exchange : Exchange old new before after taken given)
    {o : Nat × Nat} (member : o ∈ before) (stays : o.1 ∉ taken.map Prod.fst) :
    o ∈ after ∧ ∀ x, o.1 ≤ x → x < o.1 + o.2 → new x = old x := by
  obtain ⟨rest, ledger, remains, kept⟩ := exchange
  rcases List.mem_append.mp (ledger.mem_iff.mp member) with gone | stayed
  · exact absurd (List.mem_map_of_mem gone) stays
  · exact ⟨remains.mem_iff.mpr (List.mem_append_right _ stayed), fun x low high => kept ⟨o, stayed, low, high⟩⟩

/-- Handing out one payload and then taking back an older one replaces it. -/
theorem replace {middle : Memory} {between : List (Nat × Nat)} {o g : Nat × Nat}
    (first : Exchange old middle before between [] [g])
    (second : Exchange middle new between after [o] []) (older : o ∈ before) :
    Exchange old new before after [o] [g] := by
  obtain ⟨kept, ledger, grown, same⟩ := first
  obtain ⟨rest, shrunk, remains, still⟩ := second
  have parts : before.Perm (o :: before.erase o) := List.perm_cons_erase older
  have left : rest.Perm (g :: before.erase o) := by
    have whole : (o :: rest).Perm (g :: before) := shrunk.symm.trans (grown.trans (ledger.symm.cons g))
    exact (whole.trans ((parts.cons g).trans (List.Perm.swap o g _))).cons_inv
  refine ⟨before.erase o, parts, remains.trans left, fun x cell => ?_⟩
  rw [still (payloadCells_mono (fun e member => left.mem_iff.mpr (List.mem_cons_of_mem g member)) cell)]
  exact same (payloadCells_mono (fun e member => ledger.mem_iff.mp (List.mem_of_mem_erase member)) cell)

end Exchange

end OperatingSystems.Payloads
