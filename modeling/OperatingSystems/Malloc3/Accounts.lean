import OperatingSystems.Malloc3.Heap

/-!
# Counters and wilderness of a list of blocks

The five counters are sums over the blocks of the heap and the live mappings,
reduced to 64 bits, and an update is exact when the change of every sum is the
amount added. The wilderness is the last block of the heap.
-/

namespace OperatingSystems.Malloc3

open Bytes Process MallocMetadata Tiling

/-- The payload bytes of blocks. -/
def payloads (blocks : List Block) : Nat := (blocks.map Block.size).sum

/-- The payload bytes of the free ones. -/
def freePayloads (blocks : List Block) : Nat := payloads (blocks.filter Block.free)

/-- The payload bytes of mappings, each of which starts with a header. -/
def mappedPayloads (maps : List (Nat × Nat)) : Nat := (maps.map fun region => region.2 - 32).sum

@[simp] theorem payloads_nil : payloads [] = 0 := rfl

@[simp] theorem payloads_cons {b : Block} {xs : List Block} :
    payloads (b :: xs) = b.size + payloads xs := rfl

@[simp] theorem payloads_append {xs ys : List Block} :
    payloads (xs ++ ys) = payloads xs + payloads ys := by
  simp [payloads]

@[simp] theorem freePayloads_nil : freePayloads [] = 0 := rfl

@[simp] theorem freePayloads_cons {b : Block} {xs : List Block} :
    freePayloads (b :: xs) = (if b.free then b.size else 0) + freePayloads xs := by
  cases flag : b.free <;> simp [freePayloads, flag]

@[simp] theorem freePayloads_append {xs ys : List Block} :
    freePayloads (xs ++ ys) = freePayloads xs + freePayloads ys := by
  simp [freePayloads]

@[simp] theorem mappedPayloads_cons {region : Nat × Nat} {maps : List (Nat × Nat)} :
    mappedPayloads (region :: maps) = region.2 - 32 + mappedPayloads maps := rfl

/-- The counters for these blocks and mappings. A mapping is accounted with two
records, like a block of the heap. -/
def tally (blocks : List Block) (maps : List (Nat × Nat)) : Statistics where
  allocatedBlocks := wrap (blocks.length + maps.length)
  freeBlocks := wrap (blocks.countP Block.free)
  allocatedBytes := wrap (payloads blocks + mappedPayloads maps)
  freeBytes := wrap (freePayloads blocks)
  metadataBytes := wrap (64 * (blocks.length + maps.length))

/-- A wrapping counter follows an exact sum. -/
theorem bump_wrap {old new : Nat} {delta : Int} (exact : (old : Int) + delta = new) :
    bump (wrap old) delta = wrap new := by
  unfold bump wrap
  omega

/-- An update by the exact changes gives the counters of the new blocks. -/
theorem tally_update {old new : List Block} {maps after : List (Nat × Nat)}
    {blocks free bytes freeBytes records : Int}
    (countBlocks : (old.length + maps.length : Int) + blocks = new.length + after.length)
    (countFree : (old.countP Block.free : Int) + free = new.countP Block.free)
    (sumBytes : (payloads old + mappedPayloads maps : Int) + bytes =
      payloads new + mappedPayloads after)
    (sumFree : (freePayloads old : Int) + freeBytes = freePayloads new)
    (countRecords : records = 64 * blocks) :
    (tally old maps).update blocks free bytes freeBytes records = tally new after := by
  unfold tally Statistics.update
  congr 1
  · exact bump_wrap (by push_cast; exact countBlocks)
  · exact bump_wrap countFree
  · exact bump_wrap (by push_cast; exact sumBytes)
  · exact bump_wrap sumFree
  · exact bump_wrap (by push_cast; omega)

/-- The address of the last block, null for an empty heap. -/
def lastAddress (blocks : List Block) : Nat := (blocks.getLast?.map Block.address).getD 0

@[simp] theorem lastAddress_append_cons {xs ys : List Block} {b : Block} :
    lastAddress (xs ++ b :: ys) = lastAddress (b :: ys) := by
  simp [lastAddress, List.getLast?_append, List.getLast?_cons]

@[simp] theorem lastAddress_cons_cons {ys : List Block} {b c : Block} :
    lastAddress (b :: c :: ys) = lastAddress (c :: ys) := by
  simp [lastAddress]

@[simp] theorem lastAddress_singleton {b : Block} : lastAddress [b] = b.address := rfl

/-- The last block is known by its address. -/
theorem lastAddress_eq {low high : Nat} {ys : List Block} {b : Block}
    (tiles : Tile low (b :: ys) high) : lastAddress (b :: ys) = b.address ↔ ys = [] := by
  constructor
  · intro same
    rcases List.eq_nil_or_concat ys with rfl | ⟨front, last, rfl⟩
    · rfl
    · have shift : b :: (front ++ [last]) = (b :: front) ++ last :: [] := rfl
      rw [List.concat_eq_append, shift, lastAddress_append_cons, lastAddress_singleton] at same
      have ordered := tiles.2.within (x := last) (by simp)
      have := tiles.1
      rw [b.extent_eq] at ordered
      omega
  · rintro rfl
    rfl

/-- The state with other bytes, block list and counters. -/
def rebuilt (s : State) (bytes : Memory) (blockList : BlockList) (statistics : Statistics) : State :=
  { s with
    bytes := bytes
    globals := { s.globals with blockList := blockList, statistics := statistics } }

end OperatingSystems.Malloc3
