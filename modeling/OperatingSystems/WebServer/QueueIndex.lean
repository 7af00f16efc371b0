import OperatingSystems.WebServer.QueueRuns

/-!
# Every index of the request queue

`queueRemoveByIndex` is called with any `int`, in any state that calls of a client
reach, these with any index as well. Its test lets the index behind the last entry
pass, and no test stops a negative one: it then walks no link at all and removes
the second entry, as far as there is one.
-/

namespace OperatingSystems.WebServer

open Runs

/-- Inside the queue the entry at an index is removed, and only that one, and its
descriptor is returned; every other index is refused, and changes nothing. -/
def RemovesAt (q : Queue) (index : Int) : Prop :=
  if 0 ≤ index ∧ index < queueSize q then
    ∃ entry ∈ (contents q)[index.toNat]?, ∃ shorter,
      queueRemoveByIndex q index = some (entry.1, shorter) ∧ Holds shorter ((contents q).eraseIdx index.toNat)
  else queueRemoveByIndex q index = some (-1, q)

/-- The only promise is the one of `malloc`: null, or memory that is free. -/
def Granted (call : Call) (s : Session) : Prop :=
  match call with
  | .push _ _ address => address = 0 ∨ s.queue.nodes address = none
  | _ => True

instance (call : Call) (s : Session) : Decidable (Granted call s) :=
  match call with
  | .push _ _ address => inferInstanceAs (Decidable (address = 0 ∨ s.queue.nodes address = none))
  | .pop _ | .removeByIndex _ | .discardX _ _ => inferInstanceAs (Decidable True)

variable {q : Queue} {entries : List Entry} {index : Int} {address : Nat} {nodes : Nat → Option Node}

theorem RemovesAt.refused (removes : RemovesAt q index) (outside : ¬(0 ≤ index ∧ index < queueSize q)) :
    queueRemoveByIndex q index = some (-1, q) := by
  rwa [RemovesAt, if_neg outside] at removes

/-- Index 0 of an empty queue is refused by `queuePop`. -/
theorem queueRemoveByIndex_empty (holds : Holds q []) : queueRemoveByIndex q 0 = some (-1, q) := by
  have inside : ¬q.size < 0 := Int.not_lt.mpr (Int.le_of_eq holds.length.symm)
  rw [queueRemoveByIndex, if_neg inside, if_pos rfl, queuePop_nil holds]
  rfl

/-- The index behind the last entry leads to the last node, and from there to null. -/
theorem queueRemoveByIndex_behind (holds : Holds q entries) (null : q.nodes 0 = none) (some : entries ≠ []) :
    queueRemoveByIndex q entries.length = none := by
  obtain ⟨cells, contents, -, segment, -, size⟩ := holds
  have nonempty : cells ≠ [] := fun empty => some (by simp [← contents, empty])
  obtain ⟨front, last, rfl⟩ := List.eq_nil_or_concat cells |>.resolve_left nonempty
  rw [List.concat_eq_append] at *
  have reaches := segment.advance
  obtain ⟨middle, -, rfl, -, next, stored, rfl⟩ := segment_append.mp segment
  have length : (entries.length : Int) = front.length + 1 := by simp [← contents]
  have steps : ((entries.length : Int) - 1).toNat = front.length := by omega
  have inside : ¬q.size < entries.length := by omega
  have nonzero : ¬(entries.length : Int) = 0 := by omega
  have fits : ¬(entries.length : Int) - 1 < -2 ^ 31 := by omega
  rw [queueRemoveByIndex, if_neg inside, if_neg nonzero, if_neg fits, steps, reaches]
  simp only [Option.bind_eq_bind, Option.bind_some, stored, null, Option.bind_none]

/-- A negative index walks no link, like index 1, unless the bound overflows. -/
theorem queueRemoveByIndex_negative (holds : Holds q entries) (null : q.nodes 0 = none) (negative : index < 0) :
    queueRemoveByIndex q index = none ∨
      1 < entries.length ∧ queueRemoveByIndex q index = queueRemoveByIndex q (1 : Nat) := by
  have size := holds.length
  have inside : ¬q.size < index := by
    simp only [queueSize] at size
    omega
  by_cases fits : index - 1 < -2 ^ 31
  · left
    rw [queueRemoveByIndex, if_neg inside, if_neg (Int.ne_of_lt negative), if_pos fits]
  cases entries with
  | nil =>
    left
    have empty : q.head = 0 := by simpa [queueEmpty] using holds.empty.mpr rfl
    have steps : (index - 1).toNat = 0 := by omega
    rw [queueRemoveByIndex, if_neg inside, if_neg (Int.ne_of_lt negative), if_neg fits, steps, empty]
    simp [advance, null]
  | cons entry rest =>
    have likeOne : queueRemoveByIndex q index = queueRemoveByIndex q (1 : Nat) := by
      have some : ¬q.size < (1 : Nat) := by
        simp only [queueSize, List.length_cons] at size
        omega
      have steps : (index - 1).toNat = (((1 : Nat) : Int) - 1).toNat := by omega
      rw [queueRemoveByIndex, if_neg inside, if_neg (Int.ne_of_lt negative), if_neg fits, steps,
        queueRemoveByIndex, if_neg some, if_neg (by decide), if_neg (by decide)]
    cases rest with
    | nil =>
      left
      exact likeOne.trans (queueRemoveByIndex_behind holds null (List.cons_ne_nil _ _))
    | cons second rest =>
      right
      exact ⟨by simp, likeOne⟩

/-- All that `queueRemoveByIndex` can do: remove an entry, refuse the index, or
follow a null link. -/
inductive Outcome (q : Queue) (entries : List Entry) (index : Int) : Prop where
  | removes (place : Nat) (inside : place < entries.length) (named : index = place ∨ index < 0) (shorter : Queue)
      (returns : queueRemoveByIndex q index = some (entries[place].1, shorter))
      (remains : Holds shorter (entries.eraseIdx place))
  | refuses (above : (entries.length : Int) ≤ index) (empty : index = entries.length → entries = [])
      (returns : queueRemoveByIndex q index = some (-1, q))
  | faults (wrong : index < 0 ∨ index = entries.length ∧ entries ≠ []) (ends : queueRemoveByIndex q index = none)

theorem queueRemoveByIndex_outcome (holds : Holds q entries) (null : q.nodes 0 = none) (index : Int) :
    Outcome q entries index := by
  by_cases negative : index < 0
  · rcases queueRemoveByIndex_negative holds null negative with ends | ⟨inside, likeOne⟩
    · exact .faults (Or.inl negative) ends
    · obtain ⟨shorter, returns, remains⟩ := queueRemoveByIndex_at holds inside
      exact .removes 1 inside (Or.inr negative) shorter (likeOne.trans returns) remains
  obtain ⟨place, rfl⟩ := Int.eq_ofNat_of_zero_le (Int.not_lt.mp negative)
  rcases Nat.lt_trichotomy place entries.length with inside | rfl | above
  · obtain ⟨shorter, returns, remains⟩ := queueRemoveByIndex_at holds inside
    exact .removes place inside (Or.inl rfl) shorter returns remains
  · by_cases empty : entries = []
    · subst empty
      exact .refuses (Int.le_refl _) (fun _ => rfl) (queueRemoveByIndex_empty holds)
    · exact .faults (Or.inr ⟨rfl, empty⟩) (queueRemoveByIndex_behind holds null empty)
  · apply Outcome.refuses (by omega) fun same => by omega
    have size := holds.length
    rw [queueSize] at size
    exact if_pos (by omega)

/-- The function does what it should at an index of a queue exactly when the index
is not negative, and not the size of a queue with entries. -/
theorem Holds.removesAt_iff (holds : Holds q entries) (null : q.nodes 0 = none) (index : Int) :
    RemovesAt q index ↔ 0 ≤ index ∧ ¬(index = queueSize q ∧ 0 < queueSize q) := by
  unfold RemovesAt
  rw [holds.contents, holds.length]
  have occupied : 0 < (entries.length : Int) ↔ entries ≠ [] := by
    rw [Int.natCast_pos, List.length_pos_iff]
  cases queueRemoveByIndex_outcome holds null index with
  | removes place inside named shorter returns remains =>
    rcases named with rfl | negative
    · rw [if_pos (by omega)]
      refine iff_of_true ⟨entries[place], by simp [inside], shorter, returns, remains⟩ ⟨by omega, by omega⟩
    · -- The queue that is left is shorter, so the index was not refused.
      rw [if_neg (by omega)]
      apply iff_of_false _ (by omega)
      intro refused
      obtain rfl : shorter = q := by
        rw [returns, Option.some.injEq] at refused
        exact congrArg Prod.snd refused
      have before := holds.length
      rw [remains.length, List.length_eraseIdx_of_lt inside] at before
      omega
  | refuses above empty returns =>
    rw [if_neg (by omega)]
    apply iff_of_true returns
    refine ⟨by omega, fun behind => ?_⟩
    exact occupied.mp behind.2 (empty behind.1)
  | faults wrong ends =>
    have outside : ¬(0 ≤ index ∧ index < entries.length) := by omega
    rw [if_neg outside, ends]
    apply iff_of_false nofun
    rintro ⟨low, inside⟩
    rcases wrong with negative | ⟨same, some⟩
    · omega
    · exact inside ⟨same, occupied.mpr some⟩

/-- Null stays free when another node changes, or one is freed. -/
theorem update_null {node : Option Node} (null : nodes 0 = none) (kept : address ≠ 0 ∨ node = none) :
    update nodes address node 0 = none := by
  rcases kept with proper | rfl
  · exact (update_other proper.symm).trans null
  · unfold update
    split
    · rfl
    · exact null

theorem stored_proper {node : Node} (null : nodes 0 = none) (stored : nodes address = some node) : address ≠ 0 := by
  rintro rfl
  rw [null] at stored
  cases stored

section Null

variable (null : q.nodes 0 = none)

include null

theorem queuePop_null {at_ arrival : Timeval} {data : Int} {rest : Queue}
    (returns : queuePop q at_ = some (data, arrival, rest)) : rest.nodes 0 = none := by
  unfold queuePop at returns
  split at returns
  · cases returns
    exact null
  · obtain ⟨first, -, same⟩ := Option.bind_eq_some_iff.mp returns
    cases same
    exact update_null null (Or.inr rfl)

theorem queuePush_null {data result : Int} {arrival : Timeval} {longer : Queue}
    (returns : queuePush q data arrival address = some (result, longer)) : longer.nodes 0 = none := by
  unfold queuePush at returns
  split at returns
  · cases returns
    exact null
  next proper =>
    have created : update q.nodes address (some ⟨data, arrival, 0⟩) 0 = none := update_null null (Or.inl proper)
    split at returns
    · cases returns
      exact created
    · obtain ⟨last, stored, same⟩ := Option.bind_eq_some_iff.mp returns
      cases same
      exact update_null created (Or.inl (stored_proper created stored))

theorem queueRemoveByIndex_null {data : Int} {shorter : Queue}
    (returns : queueRemoveByIndex q index = some (data, shorter)) : shorter.nodes 0 = none := by
  unfold queueRemoveByIndex at returns
  split at returns
  · cases returns
    exact null
  split at returns
  · obtain ⟨⟨first, arrival, rest⟩, pops, same⟩ := Option.bind_eq_some_iff.mp returns
    cases same
    exact queuePop_null null pops
  split at returns
  · cases returns
  · obtain ⟨it, -, rest⟩ := Option.bind_eq_some_iff.mp returns
    obtain ⟨node, stored, rest⟩ := Option.bind_eq_some_iff.mp rest
    obtain ⟨removed, -, same⟩ := Option.bind_eq_some_iff.mp rest
    cases same
    exact update_null (update_null null (Or.inl (stored_proper null stored))) (Or.inr rfl)

theorem discardLoop_null {rand : Nat → Nat} {num : Nat} {closed : List Int} {shorter : Queue}
    (returns : discardLoop rand num q = some (closed, shorter)) : shorter.nodes 0 = none := by
  induction num generalizing q closed with
  | zero =>
    cases returns
    exact null
  | succ num inductionHypothesis =>
    obtain ⟨⟨data, one⟩, removes, rest⟩ := Option.bind_eq_some_iff.mp returns
    obtain ⟨⟨more, last⟩, loop, same⟩ := Option.bind_eq_some_iff.mp rest
    cases same
    exact inductionHypothesis (queueRemoveByIndex_null null removes) loop

/-- No call maps null. -/
theorem Call.onQueue_null {call : Call} {answer : Answer} {after : Queue}
    (returns : call.onQueue q = some (answer, after)) : after.nodes 0 = none := by
  cases call with
  | push data arrival address =>
    obtain ⟨⟨result, longer⟩, pushes, same⟩ := Option.map_eq_some_iff.mp returns
    cases same
    exact queuePush_null null pushes
  | pop at_ =>
    obtain ⟨⟨data, arrival, rest⟩, pops, same⟩ := Option.map_eq_some_iff.mp returns
    cases same
    exact queuePop_null null pops
  | removeByIndex index =>
    obtain ⟨⟨data, shorter⟩, removes, same⟩ := Option.map_eq_some_iff.mp returns
    cases same
    exact queueRemoveByIndex_null null removes
  | discardX num rand =>
    obtain ⟨⟨closed, shorter⟩, discards, same⟩ := Option.map_eq_some_iff.mp returns
    cases same
    exact discardLoop_null null discards

end Null

/-- The chain of the queue is sound, and null is no node. -/
structure Session.Intact (s : Session) : Prop where
  null : s.queue.nodes 0 = none
  holds : ∃ entries, Holds s.queue entries

variable {s : Session} {call : Call}

/-- Whatever the index of a removal, the chain stays sound. -/
theorem Call.onQueue_holds {answer : Answer} {after : Queue} (holds : Holds s.queue entries)
    (null : s.queue.nodes 0 = none) (granted : Granted call s)
    (returns : call.onQueue s.queue = some (answer, after)) : ∃ left, Holds after left := by
  by_cases proper : Proper call s
  · obtain ⟨queue, answers, remains⟩ := holds.onQueue proper
    obtain rfl : queue = after := by
      rw [returns, Option.some.injEq] at answers
      exact (congrArg Prod.snd answers).symm
    exact ⟨_, remains⟩
  · cases call with
    | push data arrival address => exact absurd granted proper
    | pop at_ => exact absurd trivial proper
    | discardX num rand => exact absurd trivial proper
    | removeByIndex index =>
      obtain ⟨⟨data, shorter⟩, removes, same⟩ := Option.map_eq_some_iff.mp returns
      cases same
      cases queueRemoveByIndex_outcome holds null index with
      | removes place inside named left result remains =>
        rw [result] at removes
        cases removes
        exact ⟨_, remains⟩
      | refuses above empty result =>
        rw [result] at removes
        cases removes
        exact ⟨entries, holds⟩
      | faults wrong ends =>
        rw [ends] at removes
        cases removes

theorem Session.Intact.perform (intact : s.Intact) (granted : Granted call s) :
    Ends Session.Intact (fun _ => True) (call.perform s) := by
  obtain ⟨null, entries, holds⟩ := intact
  unfold Call.perform
  cases returns : call.onQueue s.queue with
  | none => trivial
  | some result => exact ⟨Call.onQueue_null null returns, Call.onQueue_holds holds null granted returns⟩

/-- In every state that calls reach, whatever their indices were, the function does
what it should exactly at an index that is not negative, and is not the size of a
queue with entries. -/
theorem queueRemoveByIndex_iff {calls : List Call} (granted : Obeys Call.perform Granted calls ⟨queueCreate, []⟩)
    (reached : Runs.execute Call.perform calls ⟨queueCreate, []⟩ = .ok s) (index : Int) :
    RemovesAt s.queue index ↔ 0 ≤ index ∧ ¬(index = queueSize s.queue ∧ 0 < queueSize s.queue) := by
  have start : Session.Intact ⟨queueCreate, []⟩ := ⟨rfl, [], holds_create⟩
  have ends := execute_ends (fun call s intact granted => intact.perform granted) start granted
  obtain ⟨null, entries, holds⟩ := ends.reached reached
  exact holds.removesAt_iff null index

/-- A queue with one entry, at the index that is its size. -/
theorem queueRemoveByIndex_iff_one : ∃ s : Session,
    Runs.execute Call.perform [.push 4 ⟨1, 0⟩ 64] ⟨queueCreate, []⟩ = .ok s ∧
    (RemovesAt s.queue 1 ↔ 0 ≤ (1 : Int) ∧ ¬((1 : Int) = queueSize s.queue ∧ 0 < queueSize s.queue)) := by
  have granted : Obeys Call.perform Granted [.push 4 ⟨1, 0⟩ 64] ⟨queueCreate, []⟩ := by decide
  exact ⟨_, rfl, queueRemoveByIndex_iff granted rfl 1⟩

/-- A client pushes one entry and removes at index 1: the walk ends at null, where
-1 should be returned. With two entries, index -1 removes the second one. -/
theorem queueRemoveByIndex_not_checked :
    (∃ s : Session, Runs.execute Call.perform [.push 4 ⟨1, 0⟩ 64] ⟨queueCreate, []⟩ = .ok s ∧
      queueSize s.queue = 1 ∧ queueRemoveByIndex s.queue 1 = none ∧ ¬RemovesAt s.queue 1) ∧
    ∃ s : Session, Runs.execute Call.perform [.push 4 ⟨1, 0⟩ 64, .push 5 ⟨2, 0⟩ 96] ⟨queueCreate, []⟩ = .ok s ∧
      (queueRemoveByIndex s.queue (-1)).map Prod.fst = some 5 ∧ ¬RemovesAt s.queue (-1) := by
  constructor
  · refine ⟨_, rfl, rfl, rfl, fun removes => ?_⟩
    cases removes.refused (by decide)
  · refine ⟨_, rfl, rfl, fun removes => ?_⟩
    have refused := congrArg (Option.map Prod.fst) (removes.refused (by decide))
    exact absurd (Option.some.inj refused) (by decide)

end OperatingSystems.WebServer
