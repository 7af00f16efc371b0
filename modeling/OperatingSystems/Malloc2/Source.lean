import OperatingSystems.MallocMetadata

/-!
# The allocator of `malloc_2.cpp`

Every function of the source is a program over the bytes of the process. Null
is address 0 and sizes are unsigned 64-bit values. Blocks have a header and no
footer, are never split, merged or given back, and stay in one list by address.

Others may move the program break between two calls of `sbrk`, so that the
memory a call returns need not start where the last one ended.
-/

namespace OperatingSystems.Malloc2

open Bytes Process MallocMetadata

/-- The fields of `BlockList`. -/
structure BlockList where
  head : Nat
  allocatedBlocks : Nat
  freeBlocks : Nat
  allocatedBytes : Nat
  freeBytes : Nat
  metadataBytes : Nat
deriving DecidableEq, Repr

/-- The static variable of the allocator, and a record of the regions that
`sbrk` returned to it. -/
structure Globals where
  blockList : BlockList
  carved : List (Nat × Nat)
deriving DecidableEq, Repr

abbrev State := Machine Globals

abbrev Alloc := Program Globals

def getHead : Alloc Nat := do pure (← globals).blockList.head

def setHead (head : Nat) : Alloc Unit :=
  modifyGlobals fun g => { g with blockList := { g.blockList with head := head } }

/-- The list after `updateStatistics`, whose parameters are unsigned too. -/
def BlockList.update (list : BlockList) (allocatedBlocks freeBlocks allocatedBytes freeBytes
    metadataBytes : Nat) : BlockList where
  head := list.head
  allocatedBlocks := wrap (list.allocatedBlocks + allocatedBlocks)
  freeBlocks := wrap (list.freeBlocks + freeBlocks)
  allocatedBytes := wrap (list.allocatedBytes + allocatedBytes)
  freeBytes := wrap (list.freeBytes + freeBytes)
  metadataBytes := wrap (list.metadataBytes + metadataBytes)

def updateStatistics (allocatedBlocks freeBlocks allocatedBytes freeBytes metadataBytes : Nat) :
    Alloc Unit :=
  modifyGlobals fun g => { g with
    blockList := g.blockList.update allocatedBlocks freeBlocks allocatedBytes freeBytes metadataBytes }

/-- The number of addresses, which bounds every loop that ends. -/
abbrev loopBound : Nat := 2 ^ 64

/-- The loop of `addMetadata`, at `iter`. Behind the loop the source prints that
it should never get there. -/
def addMetadataLoop (metadata : Nat) : Nat → Nat → Alloc Unit
  | 0, _ => throw .hang
  | fuel + 1, iter =>
    if iter = 0 then pure ()
    else do
      let next ← readNext iter
      if next = 0 then do
        writePrev metadata iter
        writeNext metadata 0
        writeNext iter metadata
      else if metadata < next then do
        writePrev metadata iter
        let next ← readNext iter
        writeNext metadata next
        writeNext iter metadata
        let next ← readNext metadata
        writePrev next metadata
      else do
        let next ← readNext iter
        addMetadataLoop metadata fuel next

/-- `BlockList::addMetadata`. The links of the first block are not written. -/
def addMetadata (metadata : Nat) : Alloc Unit := do
  let head ← getHead
  if head = 0 then setHead metadata
  else if metadata < head then do
    writeNext metadata head
    let headPrev ← readPrev head
    writePrev metadata headPrev
    let next ← readNext metadata
    writePrev next metadata
    setHead metadata
  else addMetadataLoop metadata loopBound head

/-- The loop of `searchFreeBlock`, at `iter`. -/
def searchFreeBlockLoop (size : Nat) : Nat → Nat → Alloc Nat
  | 0, _ => throw .hang
  | fuel + 1, iter =>
    if iter = 0 then pure 0
    else do
      let free ← readFree iter
      let iterSize ← readSize iter
      if free ∧ size ≤ iterSize then pure iter
      else do
        let next ← readNext iter
        searchFreeBlockLoop size fuel next

/-- `BlockList::searchFreeBlock`; null when no free block is large enough. -/
def searchFreeBlock (size : Nat) : Alloc Nat := do
  let head ← getHead
  searchFreeBlockLoop size loopBound head

/-- The system can return a region of this length at this address, which is not
below the break. -/
def CanReturn (s : State) (address increment : Nat) : Prop :=
  s.brk ≤ address ∧ address + increment < 2 ^ 64 - 1

instance (s : State) (address increment : Nat) : Decidable (CanReturn s address increment) :=
  inferInstanceAs (Decidable (_ ∧ _))

/-- `sbrk(increment)` with a positive increment: fresh memory that the system
has zeroed, above all it returned before, or a failure that changes nothing. -/
def sbrk (increment : Nat) : Alloc Nat := fun s =>
  match s.replies with
  | .grant address _ :: rest =>
    if CanReturn s address increment then
      .ok (address, { s with
        brk := address + increment
        bytes := fill s.bytes address increment 0
        replies := rest
        globals := { s.globals with carved := s.globals.carved ++ [(address, increment)] } })
    else .ok (mapFailed, { s with replies := rest })
  | _ => .ok (mapFailed, { s with replies := s.replies.tail })

/-- `smalloc` when no free block is large enough. -/
def carveBlock (size : Nat) : Alloc Nat := do
  let newAddress ← sbrk (size + SOM)
  if newAddress = mapFailed then pure 0
  else do
    writeFree newAddress false
    writeSize newAddress size
    updateStatistics 1 0 size 0 SOM
    addMetadata newAddress
    pure (newAddress + SOM)

def smalloc (size : Nat) : Alloc Nat :=
  if size = 0 ∨ 100000000 < size then pure 0
  else do
    let address ← searchFreeBlock size
    if address ≠ 0 then do
      writeFree address false
      let blockSize ← readSize address
      updateStatistics 0 (wrapSub 0 1) 0 (wrapSub 0 blockSize) 0
      pure (address + SOM)
    else carveBlock size

def scalloc (num size : Nat) : Alloc Nat := do
  let address ← smalloc (wrap (num * size))
  if address = 0 then pure 0
  else do
    memset address 0 (wrap (size * num))
    pure address

def sfree (p : Nat) : Alloc Unit :=
  if p = 0 then pure ()
  else do
    let block := p - SOM
    let free ← readFree block
    if free then pure ()
    else do
      writeFree block true
      let size ← readSize block
      updateStatistics 0 1 0 size 0

def srealloc (oldp size : Nat) : Alloc Nat :=
  if size = 0 ∨ 100000000 < size then pure 0
  else if oldp = 0 then smalloc size
  else do
    let block := oldp - SOM
    let blockSize ← readSize block
    if size ≤ blockSize then pure oldp
    else do
      let newp ← smalloc size
      doIf (newp ≠ 0) do
        let blockSize ← readSize block
        memmove newp oldp blockSize
        sfree oldp
      pure newp

end OperatingSystems.Malloc2
