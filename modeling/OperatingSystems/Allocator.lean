import OperatingSystems.Payloads
import OperatingSystems.Runs

/-!
# What an allocator is for

The abstract heap of a client: at some addresses there is a payload, a list of
bytes, and a byte may be unspecified. Requests change one payload. How an
implementation places its payloads, what it keeps of them and when it refuses
are left open: a granted payload is clear of all others, and no larger than the
limit.

A client of an implementation knows its pointers, each with the size it asked
for, and the memory. These represent an abstract heap when each payload is
under its pointer and the memory holds its specified bytes. An implementation
whose calls meet the requests is represented throughout.
-/

namespace OperatingSystems.Allocator

open Bytes Payloads

/-- The bytes of a payload, some of which may be unspecified. -/
abbrev Contents := List (Option UInt8)

/-- The payloads by address. -/
abbrev Heap := Nat → Option Contents

/-- Nothing is allocated. -/
def Heap.empty : Heap := fun _ => none

def Heap.put (heap : Heap) (p : Nat) (contents : Contents) : Heap :=
  fun q => if q = p then some contents else heap q

def Heap.drop (heap : Heap) (p : Nat) : Heap := fun q => if q = p then none else heap q

@[simp] theorem Heap.put_same (heap : Heap) (p : Nat) (contents : Contents) :
    heap.put p contents p = some contents := if_pos rfl

@[simp] theorem Heap.put_other (heap : Heap) {p q : Nat} (contents : Contents) (other : q ≠ p) :
    heap.put p contents q = heap q := if_neg other

@[simp] theorem Heap.drop_same (heap : Heap) (p : Nat) : heap.drop p p = none := if_pos rfl

@[simp] theorem Heap.drop_other (heap : Heap) {p q : Nat} (other : q ≠ p) : heap.drop p q = heap q :=
  if_neg other

/-- These `n` cells are no part of a payload. -/
def Heap.Clear (heap : Heap) (p n : Nat) : Prop :=
  ∀ q contents, heap q = some contents → p ≠ q ∧ (p + n ≤ q ∨ q + contents.length ≤ p)

/-- A payload cut or extended to `n` bytes. -/
def resized (n : Nat) (contents : Contents) : Contents :=
  contents.take n ++ List.replicate (n - contents.length) none

@[simp] theorem length_resized (n : Nat) (contents : Contents) : (resized n contents).length = n := by
  simp only [resized, List.length_append, List.length_take, List.length_replicate]
  omega

/-- What a client asks of an allocator. -/
inductive Request where
  | allocate (n : Nat)
  | zeroed (n : Nat)
  | release (p : Nat)
  | resize (p n : Nat)
  | store (a : Nat) (byte : UInt8)

/-- The size asked for. -/
def Request.size : Request → Nat
  | .allocate n | .zeroed n | .resize _ n => n
  | .release _ | .store _ _ => 0

/-- The request is for a payload, and may be refused. -/
def Request.Asks : Request → Prop
  | .allocate _ | .zeroed _ | .resize _ _ => True
  | .release _ | .store _ _ => False

/-- What a request may do to the heap, with its answer: a payload of a proper size
up to the limit, or null. -/
inductive Serves (limit : Nat) : Request → Nat → Heap → Heap → Prop
  | refused {request : Request} {heap : Heap} (asks : request.Asks) : Serves limit request 0 heap heap
  | allocated {heap : Heap} {n p : Nat} (positive : 0 < n) (small : n ≤ limit) (clear : heap.Clear p n) :
    Serves limit (.allocate n) p heap (heap.put p (List.replicate n none))
  | zeroed {heap : Heap} {n p : Nat} (positive : 0 < n) (small : n ≤ limit) (clear : heap.Clear p n) :
    Serves limit (.zeroed n) p heap (heap.put p (List.replicate n (some 0)))
  | idle {heap : Heap} : Serves limit (.release 0) 0 heap heap
  | released {heap : Heap} {p : Nat} {contents : Contents} (held : heap p = some contents) :
    Serves limit (.release p) 0 heap (heap.drop p)
  | resized {heap : Heap} {n p q : Nat} {contents : Contents} (positive : 0 < n) (small : n ≤ limit)
    (held : heap p = some contents) (clear : (heap.drop p).Clear q n) :
    Serves limit (.resize p n) q heap ((heap.drop p).put q (Allocator.resized n contents))
  | stored {heap : Heap} {p i : Nat} {byte : UInt8} {contents : Contents} (held : heap p = some contents)
    (inside : i < contents.length) :
    Serves limit (.store (p + i) byte) 0 heap (heap.put p (contents.set i (some byte)))

/-- The pointers of a client are proper and distinct, and what it asked for under them
does not overlap. -/
structure Apart (live : List (Nat × Nat)) : Prop where
  proper : ∀ e ∈ live, e.1 ≠ 0
  distinct : (live.map Prod.fst).Nodup
  separate : ∀ e ∈ live, ∀ f ∈ live, e.1 ≠ f.1 → e.1 + e.2 ≤ f.1 ∨ f.1 + f.2 ≤ e.1

/-- The memory and the client's pointers represent the heap. -/
structure Represents (live : List (Nat × Nat)) (memory : Memory) (heap : Heap) : Prop extends Apart live where
  same : ∀ p n, (p, n) ∈ live ↔ ∃ contents, heap p = some contents ∧ contents.length = n
  holds : ∀ p contents, heap p = some contents →
    ∀ i byte, contents[i]? = some (some byte) → memory (p + i) = byte

/-- What the client holds once the request was answered by `p`. -/
def Request.holding (p : Nat) (live : List (Nat × Nat)) : Request → List (Nat × Nat)
  | .allocate n | .zeroed n => if p = 0 then live else (p, n) :: live
  | .release q => forget q live
  | .resize q n => if p = 0 then live else (p, n) :: forget q live
  | .store _ _ => live

/-- The cells the request lets the client write. -/
def Request.written : Request → Set Nat
  | .store a _ => {a}
  | _ => ∅

/-- The client uses pointers that it holds. -/
def Request.Proper (live : List (Nat × Nat)) : Request → Prop
  | .allocate _ | .zeroed _ => True
  | .release p => p = 0 ∨ p ∈ live.map Prod.fst
  | .resize p _ => p ∈ live.map Prod.fst
  | .store a _ => ∃ e ∈ live, e.1 ≤ a ∧ a < e.1 + e.2

/-- The memory has the bytes that the request gives its payload. -/
def Request.Fulfilled (p : Nat) (live : List (Nat × Nat)) (old new : Memory) : Request → Prop
  | .allocate _ | .release _ => True
  | .zeroed n => p ≠ 0 → ∀ x, p ≤ x → x < p + n → new x = 0
  | .resize q n => p ≠ 0 → ∀ e ∈ live, e.1 = q → ∀ i, i < e.2 → i < n → new (p + i) = old (q + i)
  | .store a byte => new a = byte

/-- An answer meets a request: what the client then holds does not overlap, what it
keeps is not touched, and the payload handed out is of a proper size and has the
bytes it should have. -/
structure Meets (limit : Nat) (request : Request) (p : Nat) (live : List (Nat × Nat)) (old new : Memory) :
    Prop where
  apart : Apart (request.holding p live)
  unchanged : Unchanged old new live (request.holding p live) request.written
  null : ¬request.Asks → p = 0
  bounded : p ≠ 0 → 0 < request.size ∧ request.size ≤ limit
  fulfilled : request.Fulfilled p live old new

variable {limit p q n : Nat} {live later : List (Nat × Nat)} {old new : Memory} {heap : Heap}
  {contents : Contents} {request : Request} {written : Set Nat}

/-- An empty heap is represented. -/
theorem represents_empty (memory : Memory) : Represents [] memory Heap.empty where
  proper := by simp
  distinct := List.nodup_nil
  separate := by simp
  same := by simp [Heap.empty]
  holds := by simp [Heap.empty]

/-- Pointers that are forgotten leave the others apart. -/
theorem Apart.forget (apart : Apart live) (p : Nat) : Apart (forget p live) where
  proper := fun e member => apart.proper e (List.mem_filter.mp member).1
  distinct := apart.distinct.sublist (List.filter_sublist.map _)
  separate := fun e first f second =>
    apart.separate e (List.mem_filter.mp first).1 f (List.mem_filter.mp second).1

/-- Forgetting null forgets nothing. -/
theorem Apart.forget_null (apart : Apart live) : Payloads.forget 0 live = live :=
  List.filter_eq_self.mpr fun e member => decide_eq_true (apart.proper e member)

/-- What a client holds of payloads that do not overlap. -/
theorem apart_of_backed {payloads : List (Nat × Nat)} (backed : Backed live payloads)
    (proper : ∀ o ∈ payloads, o.1 ≠ 0) (distinct : (payloads.map Prod.fst).Nodup)
    (separate : payloads.Pairwise fun x y => x.1 + x.2 ≤ y.1 ∨ y.1 + y.2 ≤ x.1) : Apart live where
  proper := by
    intro e member
    obtain ⟨o, listed, same, _⟩ := backed.payload member
    exact same ▸ proper o listed
  distinct := backed.pointers.nodup_iff.mpr distinct
  separate := by
    intro e first f second other
    obtain ⟨o, inFirst, start, fits⟩ := backed.payload first
    obtain ⟨g, inSecond, begin, room⟩ := backed.payload second
    have symmetric : Std.Symm fun x y : Nat × Nat => x.1 + x.2 ≤ y.1 ∨ y.1 + y.2 ≤ x.1 :=
      ⟨fun _ _ => Or.symm⟩
    have clear := separate.forall inFirst inSecond fun same => other (by rw [← start, ← begin, same])
    omega

/-- A payload handed out is clear of the others. -/
theorem Represents.clear (represents : Represents live old heap) (apart : Apart ((p, n) :: live)) :
    heap.Clear p n := by
  intro q contents held
  have member : (q, contents.length) ∈ live := (represents.same q _).mpr ⟨contents, held, rfl⟩
  have other : p ≠ q := fun same => (List.nodup_cons.mp apart.distinct).1
    (List.mem_map.mpr ⟨_, member, same.symm⟩)
  exact ⟨other, apart.separate (p, n) List.mem_cons_self _ (List.mem_cons_of_mem _ member) other⟩

/-- Other memory represents the heap as well if it holds the same under each pointer. -/
theorem Represents.kept (represents : Represents live old heap) (unchanged : Unchanged old new live live ∅) :
    Represents live new heap where
  toApart := represents.toApart
  same := represents.same
  holds := by
    intro p contents held i byte known
    have inside : i < contents.length := (List.getElem?_eq_some_iff.mp known).1
    have member : (p, contents.length) ∈ live := (represents.same p _).mpr ⟨contents, held, rfl⟩
    have kept := unchanged _ member _ member rfl (p + i) (by omega) (by simp only; omega) (by simp only; omega)
      (Set.notMem_empty _)
    exact kept.trans (represents.holds p contents held i byte known)

/-- A payload is handed out. -/
theorem Represents.put (represents : Represents live new heap) (apart : Apart ((p, n) :: live))
    (length : contents.length = n) (known : ∀ i byte, contents[i]? = some (some byte) → new (p + i) = byte) :
    Represents ((p, n) :: live) new (heap.put p contents) where
  toApart := apart
  same := by
    intro q m
    by_cases own : q = p
    · subst own
      have fresh : ∀ m, (q, m) ∉ live := fun m member => (List.nodup_cons.mp apart.distinct).1
        (List.mem_map.mpr ⟨_, member, rfl⟩)
      simp [fresh, length, eq_comm]
    · simp [own, represents.same]
  holds := by
    intro q held same i byte byteKnown
    by_cases own : q = p
    · subst own
      rw [Heap.put_same] at same
      exact known i byte (Option.some.inj same ▸ byteKnown)
    · rw [Heap.put_other heap contents own] at same
      exact represents.holds q held same i byte byteKnown

/-- A payload is taken back. -/
theorem Represents.drop (represents : Represents live old heap) (p : Nat) :
    Represents (forget p live) old (heap.drop p) where
  toApart := represents.toApart.forget p
  same := by
    intro q m
    by_cases own : q = p
    · subst own
      simp [forget]
    · simp [forget, own, represents.same]
  holds := by
    intro q contents held
    by_cases own : q = p
    · subst own
      simp at held
    · rw [Heap.drop_other heap own] at held
      exact represents.holds q contents held

/-- A pointer of the client has a payload. -/
theorem Represents.payload (represents : Represents live old heap) {e : Nat × Nat} (member : e ∈ live) :
    ∃ contents, heap e.1 = some contents ∧ contents.length = e.2 := (represents.same e.1 e.2).mp member

/-- A payload is handed out, and the others keep their bytes. -/
theorem Represents.given (represents : Represents live old heap)
    (unchanged : Unchanged old new live ((p, n) :: live) ∅) (apart : Apart ((p, n) :: live))
    (length : contents.length = n) (known : ∀ i byte, contents[i]? = some (some byte) → new (p + i) = byte) :
    Represents ((p, n) :: live) new (heap.put p contents) :=
  (represents.kept (unchanged.mono (List.Subset.refl _) (List.subset_cons_self _ _))).put apart length
    known

/-- A payload takes the place of another, with the bytes of that one. -/
theorem Represents.moved (represents : Represents live old heap)
    (unchanged : Unchanged old new live ((q, n) :: forget p live) ∅) (apart : Apart ((q, n) :: forget p live))
    (held : heap p = some contents)
    (carried : ∀ i, i < contents.length → i < n → new (q + i) = old (p + i)) :
    Represents ((q, n) :: forget p live) new ((heap.drop p).put q (resized n contents)) := by
  have others : Unchanged old new (forget p live) ((q, n) :: forget p live) ∅ :=
    unchanged.mono (List.filter_subset_self _) (List.Subset.refl _)
  refine (represents.drop p).given others apart (length_resized n contents) fun i byte known => ?_
  -- A specified byte of the new payload is one of the old.
  have inside : i < n := length_resized n contents ▸ (List.getElem?_eq_some_iff.mp known).1
  have within : i < contents.length := by
    by_contra beyond
    have behind : (contents.take n).length ≤ i := by
      rw [List.length_take]
      omega
    rw [resized, List.getElem?_append_right behind] at known
    exact absurd (List.eq_of_mem_replicate (List.mem_of_getElem? known)) nofun
  have original : contents[i]? = some (some byte) := by
    rwa [resized, List.getElem?_append_left (by rw [List.length_take]; omega), List.getElem?_take_of_lt inside]
      at known
  exact (carried i within inside).trans (represents.holds p contents held i byte original)

/-- The client writes a byte of a payload. -/
theorem Represents.stored (represents : Represents live old heap) {a i : Nat} {byte : UInt8}
    (unchanged : Unchanged old new live live {a}) (held : heap p = some contents) (inside : i < contents.length)
    (here : p + i = a) (written : new a = byte) :
    Represents live new (heap.put p (contents.set i (some byte))) where
  toApart := represents.toApart
  same := by
    intro q m
    by_cases own : q = p
    · subst own
      simp [represents.same, held]
    · simp [own, represents.same]
  holds := by
    intro q others found j other known
    have listed : (p, contents.length) ∈ live := (represents.same p _).mpr ⟨contents, held, rfl⟩
    have elsewhere : ∀ d, heap q = some d → d[j]? = some (some other) → q + j ≠ a → new (q + j) = other := by
      intro d foundHere knownHere away
      have bound : j < d.length := (List.getElem?_eq_some_iff.mp knownHere).1
      have member : (q, d.length) ∈ live := (represents.same q _).mpr ⟨d, foundHere, rfl⟩
      have kept := unchanged _ member _ member rfl (q + j) (by omega) (by simp only; omega) (by simp only; omega)
        away
      exact kept.trans (represents.holds q d foundHere j other knownHere)
    by_cases own : q = p
    · subst own
      rw [Heap.put_same] at found
      obtain rfl := Option.some.inj found
      by_cases same : i = j
      · subst same
        rw [List.getElem?_set_self inside] at known
        rw [here, written]
        exact Option.some.inj (Option.some.inj known)
      · rw [List.getElem?_set_ne same] at known
        exact elsewhere contents held known (by omega)
    · rw [Heap.put_other heap _ own] at found
      have bound : j < others.length := (List.getElem?_eq_some_iff.mp known).1
      have member : (q, others.length) ∈ live := (represents.same q _).mpr ⟨others, found, rfl⟩
      have clear := represents.separate _ member _ listed own
      exact elsewhere others found known (by simp only at clear; omega)

/-- An answer that meets a request is one that the abstract heap allows, and the
memory goes on representing it. -/
theorem Meets.serves (meets : Meets limit request p live old new) (proper : request.Proper live)
    (represents : Represents live old heap) :
    ∃ k, Serves limit request p heap k ∧ Represents (request.holding p live) new k := by
  obtain ⟨apart, unchanged, null, bounded, fulfilled⟩ := meets
  cases request with
  | allocate n =>
    by_cases none : p = 0
    · subst none
      exact ⟨heap, .refused trivial, represents.kept unchanged⟩
    · simp only [Request.holding, if_neg none] at apart unchanged ⊢
      obtain ⟨positive, small⟩ := bounded none
      exact ⟨_, .allocated positive small (represents.clear apart), represents.given unchanged apart
        List.length_replicate fun i byte known =>
          absurd (List.eq_of_mem_replicate (List.mem_of_getElem? known)) nofun⟩
  | zeroed n =>
    by_cases none : p = 0
    · subst none
      exact ⟨heap, .refused trivial, represents.kept unchanged⟩
    · simp only [Request.holding, if_neg none] at apart unchanged ⊢
      obtain ⟨positive, small⟩ := bounded none
      refine ⟨_, .zeroed positive small (represents.clear apart), represents.given unchanged apart
        List.length_replicate fun i byte known => ?_⟩
      obtain ⟨inside, same⟩ := List.getElem?_eq_some_iff.mp known
      rw [List.length_replicate] at inside
      rw [List.getElem_replicate] at same
      exact (fulfilled none (p + i) (by omega) (by omega)).trans (Option.some.inj same)
  | release q =>
    obtain rfl : p = 0 := null id
    rcases proper with rfl | member
    · simp only [Request.holding, represents.forget_null] at unchanged ⊢
      exact ⟨heap, .idle, represents.kept unchanged⟩
    · obtain ⟨e, listed, rfl⟩ := List.mem_map.mp member
      obtain ⟨contents, held, _⟩ := represents.payload listed
      have others : Unchanged old new (forget e.1 live) (forget e.1 live) ∅ :=
        unchanged.mono (List.filter_subset_self _) (List.Subset.refl _)
      exact ⟨_, .released held, (represents.drop e.1).kept others⟩
  | resize q n =>
    obtain ⟨e, listed, rfl⟩ := List.mem_map.mp proper
    obtain ⟨contents, held, length⟩ := represents.payload listed
    by_cases none : p = 0
    · subst none
      exact ⟨heap, .refused trivial, represents.kept unchanged⟩
    · simp only [Request.holding, if_neg none] at apart unchanged ⊢
      obtain ⟨positive, small⟩ := bounded none
      refine ⟨_, .resized positive small held ((represents.drop e.1).clear apart),
        represents.moved unchanged apart held fun i within inside => ?_⟩
      exact fulfilled none e listed rfl i (length ▸ within) inside
  | store a byte =>
    obtain rfl : p = 0 := null id
    obtain ⟨e, listed, low, high⟩ := proper
    obtain ⟨contents, held, length⟩ := represents.payload listed
    obtain ⟨i, rfl⟩ := Nat.exists_eq_add_of_le low
    have inside : i < contents.length := by omega
    exact ⟨_, .stored held inside, represents.stored unchanged held inside rfl fulfilled⟩

end OperatingSystems.Allocator
