import OperatingSystems.Runs
import OperatingSystems.WebServer.Queue

/-!
# Every use of the request queue

A client calls the functions of the queue in any order. The calls are compared,
answer by answer, with the operations on lists they stand for. Nothing is asked
of the client but an index inside the queue; of `malloc` it is asked that it
returns null or an address that no node of the queue has.
-/

namespace OperatingSystems.WebServer

open Runs

/-- A call of a client. `push` carries what `malloc` returned, null when it
failed, and `discardX` what `rand` returns for each count that is left. -/
inductive Call where
  | push (data : Int) (arrival : Timeval) (address : Nat)
  | pop (at_ : Timeval)
  | removeByIndex (index : Int)
  | discardX (num : Int) (rand : Nat → Nat)

/-- What a call returns. A pop also answers with what `*at` holds afterwards,
and a discard with the descriptors it closed. -/
inductive Answer where
  | pushed (result : Int)
  | popped (data : Int) (at_ : Timeval)
  | removed (data : Int)
  | closed (descriptors : List Int)
deriving DecidableEq, Repr

/-- The call on the queue. -/
def Call.onQueue (q : Queue) : Call → Option (Answer × Queue)
  | .push data arrival address => (queuePush q data arrival address).map (Prod.map .pushed id)
  | .pop at_ => (queuePop q at_).map fun result => (.popped result.1 result.2.1, result.2.2)
  | .removeByIndex index => (queueRemoveByIndex q index).map (Prod.map .removed id)
  | .discardX num rand => (queueDiscardX rand q num).map (Prod.map .closed id)

/-- The call on a list: append, drop the first, erase at an index, or discard. -/
def Call.onList (entries : List Entry) : Call → Answer × List Entry
  | .push data arrival address =>
    if address = 0 then (.pushed (-1), entries) else (.pushed 1, entries ++ [(data, arrival)])
  | .pop at_ =>
    match entries with
    | [] => (.popped (-1) at_, [])
    | entry :: rest => (.popped entry.1 entry.2, rest)
  | .removeByIndex index =>
    (.removed ((entries[index.toNat]?.map Prod.fst).getD (-1)), entries.eraseIdx index.toNat)
  | .discardX num rand =>
    let parts := draw rand (min num entries.length).toNat entries
    (.closed (parts.1.map Prod.fst), parts.2)

/-- A queue and the answers its client got so far. -/
structure Session where
  queue : Queue
  answers : List Answer

/-- What `malloc` may return, and the indices a client may pass. -/
def Proper (call : Call) (s : Session) : Prop :=
  match call with
  | .push _ _ address => address = 0 ∨ s.queue.nodes address = none
  | .removeByIndex index => 0 ≤ index ∧ index < queueSize s.queue
  | _ => True

instance (call : Call) (s : Session) : Decidable (Proper call s) := by
  unfold Proper
  cases call <;> exact inferInstance

/-- One call; an error is a pointer that leads to no node. -/
def Call.perform (call : Call) (s : Session) : Except Unit Session :=
  match call.onQueue s.queue with
  | some (answer, queue) => .ok ⟨queue, s.answers ++ [answer]⟩
  | none => .error ()

/-- The answers of a list to the calls, and what it is afterwards. -/
def asList : List Call → List Entry → List Answer × List Entry
  | [], entries => ([], entries)
  | call :: calls, entries =>
    let first := call.onList entries
    let rest := asList calls first.2
    (first.1 :: rest.1, rest.2)

variable {entries : List Entry} {call : Call} {calls : List Call} {s : Session}

/-- `queuePush` without memory for a node changes nothing. -/
theorem queuePush_fails (q : Queue) (data : Int) (arrival : Timeval) :
    queuePush q data arrival 0 = some (-1, q) := if_pos rfl

/-- Every proper call answers as the list does and leaves its list. -/
theorem Holds.onQueue (holds : Holds s.queue entries) (proper : Proper call s) :
    ∃ after, call.onQueue s.queue = some ((call.onList entries).1, after) ∧
      Holds after (call.onList entries).2 := by
  cases call with
  | push data arrival address =>
    by_cases failed : address = 0
    · subst failed
      exact ⟨s.queue, by simp [Call.onQueue, queuePush_fails, Call.onList], by simpa [Call.onList]⟩
    · have fresh : s.queue.nodes address = none := proper.resolve_left failed
      obtain ⟨longer, pushes, appended⟩ := queuePush_appends holds data arrival failed fresh
      exact ⟨longer, by simp [Call.onQueue, pushes, Call.onList, failed], by simpa [Call.onList, failed]⟩
  | pop at_ =>
    cases entries with
    | nil => exact ⟨s.queue, by simp [Call.onQueue, queuePop_nil holds, Call.onList], holds⟩
    | cons entry entries =>
      obtain ⟨rest, pops, remains⟩ := queuePop_cons holds at_
      exact ⟨rest, by simp [Call.onQueue, pops, Call.onList], remains⟩
  | removeByIndex index =>
    obtain ⟨place, rfl⟩ := Int.eq_ofNat_of_zero_le proper.1
    have inside : place < entries.length := by
      have bound := proper.2
      rw [holds.length] at bound
      omega
    obtain ⟨shorter, removes, remains⟩ := queueRemoveByIndex_at holds inside
    refine ⟨shorter, ?_, by simpa [Call.onList] using remains⟩
    simp [Call.onQueue, removes, Call.onList, List.getElem?_eq_getElem inside]
  | discardX num rand =>
    have same : Holds s.queue (entries.map id) := (List.map_id entries).symm ▸ holds
    obtain ⟨shorter, discards, remains⟩ := queueDiscardX_draws rand same num
    rw [List.map_id] at remains
    exact ⟨shorter, by simp [Call.onQueue, discards, Call.onList], remains⟩

/-- A run of proper calls answers as the list does and leaves its list. -/
theorem Holds.execute (holds : Holds s.queue entries) (proper : Obeys Call.perform Proper calls s) :
    ∃ after, Runs.execute Call.perform calls s = .ok ⟨after, s.answers ++ (asList calls entries).1⟩ ∧
      Holds after (asList calls entries).2 := by
  induction calls generalizing s entries with
  | nil => exact ⟨s.queue, by simp [Runs.execute, asList], holds⟩
  | cons call calls inductionHypothesis =>
    obtain ⟨allowed, rest⟩ := proper
    obtain ⟨queue, answers, remains⟩ := holds.onQueue allowed
    have performs : call.perform s = .ok ⟨queue, s.answers ++ [(call.onList entries).1]⟩ := by
      simp [Call.perform, answers]
    rw [performs] at rest
    obtain ⟨after, run, final⟩ := inductionHypothesis (s := ⟨queue, _⟩) remains rest
    refine ⟨after, ?_, final⟩
    simp only [Runs.execute, performs, run, asList, List.append_assoc, List.singleton_append]

/-- A call makes the list longer by at most one entry. -/
theorem Call.onList_length (call : Call) (entries : List Entry) :
    (call.onList entries).2.length ≤ entries.length + 1 := by
  cases call with
  | push data arrival address =>
    simp only [Call.onList]
    split <;> simp
  | pop at_ =>
    cases entries with
    | nil => simp [Call.onList]
    | cons entry rest => exact (Nat.le_succ _).trans (Nat.le_succ _)
  | removeByIndex index => exact (List.length_eraseIdx_le _ _).trans (Nat.le_succ _)
  | discardX num rand =>
    have enough : (min num entries.length).toNat ≤ entries.length := by omega
    exact (draw_splits rand enough).2.1.length_le.trans (Nat.le_succ _)

theorem asList_length (calls : List Call) (entries : List Entry) :
    (asList calls entries).2.length ≤ entries.length + calls.length := by
  induction calls generalizing entries with
  | nil => simp [asList]
  | cons call calls inductionHypothesis =>
    have rest := inductionHypothesis (call.onList entries).2
    have first := call.onList_length entries
    simp only [asList, List.length_cons]
    omega

/-- In a run of fewer than 2^31 calls the size is an `int`. -/
theorem execute_size_lt (proper : Obeys Call.perform Proper calls ⟨queueCreate, []⟩)
    (few : calls.length < 2 ^ 31) (reached : Runs.execute Call.perform calls ⟨queueCreate, []⟩ = .ok s) :
    0 ≤ queueSize s.queue ∧ queueSize s.queue < 2 ^ 31 := by
  obtain ⟨q, run, holds⟩ := Holds.execute (s := ⟨queueCreate, []⟩) holds_create proper
  obtain rfl := Except.ok.inj (run.symm.trans reached)
  have most := asList_length calls []
  rw [List.length_nil] at most
  rw [holds.length]
  omega

/-- Whatever the calls and their answers, a queue that starts empty is the list
the same calls make of the empty one. A push without memory and a pop from an
empty queue change nothing; a discard closes as many entries as asked for, as
far as there are any, each once, and keeps the others in order. -/
theorem queue_refines_list (calls : List Call)
    (proper : Obeys Call.perform Proper calls ⟨queueCreate, []⟩) :
    ∃ q, Runs.execute Call.perform calls ⟨queueCreate, []⟩ = .ok ⟨q, (asList calls []).1⟩ ∧
      Holds q (asList calls []).2 ∧
      (∀ data arrival, queuePush q data arrival 0 = some (-1, q)) ∧
      ((asList calls []).2 = [] → ∀ at_, queuePop q at_ = some (-1, at_, q)) ∧
      ∀ num rand, ∃ removed kept shorter,
        queueDiscardX rand q num = some (removed.map Prod.fst, shorter) ∧ Holds shorter kept ∧
        (asList calls []).2.Perm (removed ++ kept) ∧ kept.Sublist (asList calls []).2 ∧
        (removed.length : Int) = min (max num 0) (queueSize q) := by
  obtain ⟨q, run, holds⟩ := Holds.execute (s := ⟨queueCreate, []⟩) holds_create proper
  refine ⟨q, run, holds, queuePush_fails q, fun empty at_ => ?_, fun num rand => ?_⟩
  · exact queuePop_nil (empty ▸ holds) at_
  · have same : Holds q ((asList calls []).2.map id) := (List.map_id _).symm ▸ holds
    obtain ⟨removed, kept, shorter, discards, remains, perm, sublist, count⟩ :=
      queueDiscardX_removes rand same num
    rw [List.map_id] at remains
    refine ⟨removed, kept, shorter, discards, remains, perm, sublist, ?_⟩
    rw [count, holds.length]
    omega

/-- Three requests wait, the last one is removed, a push finds no memory and the
next one appends to the request that is now last; a discard then leaves one. -/
def sampleCalls : List Call :=
  [.pop ⟨9, 9⟩, .push 4 ⟨1, 0⟩ 64, .push 5 ⟨2, 0⟩ 96, .push 6 ⟨3, 0⟩ 128, .removeByIndex 2,
    .push 7 ⟨4, 0⟩ 0, .push 8 ⟨5, 0⟩ 128, .discardX 2 fun left => left + 3, .pop ⟨0, 0⟩]

/-- The sample run, answer by answer. -/
theorem queue_refines_list_sample : ∃ q,
    Runs.execute Call.perform sampleCalls ⟨queueCreate, []⟩ = .ok ⟨q, [.popped (-1) ⟨9, 9⟩, .pushed 1,
      .pushed 1, .pushed 1, .removed 6, .pushed (-1), .pushed 1, .closed [5, 8], .popped 4 ⟨1, 0⟩]⟩ ∧
    Holds q [] := by
  obtain ⟨q, run, holds, _⟩ := queue_refines_list sampleCalls (by decide)
  exact ⟨q, run, holds⟩

end OperatingSystems.WebServer
