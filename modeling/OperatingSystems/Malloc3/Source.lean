import OperatingSystems.MallocMetadata

/-!
# The allocator of `malloc_3.cpp`

Every function of the source is a program over the bytes of the process. Null
is address 0. Sizes are 64-bit values: a sum that is compared is reduced by
`wrap`, a difference is taken by `wrapSub`, and a stored size keeps its low 64
bits. Sums of a pointer and a size are not reduced, because a pointer outside
the address space is not accessible anyway.

The loops over the block list are bounded by the number of addresses. They
change no link while they search, so a loop that runs longer has visited one
node twice and never ends.
-/

namespace OperatingSystems.Malloc3

open Process MallocMetadata

/-- `MIN_SPLIT_SIZE`. -/
abbrev MIN_SPLIT_SIZE : Nat := 128

/-- `MMAP_THRESHOLD`. -/
abbrev MMAP_THRESHOLD : Nat := 128 * 1024

/-- The five counters, each an unsigned 64-bit value. -/
structure Statistics where
  allocatedBlocks : Nat
  freeBlocks : Nat
  allocatedBytes : Nat
  freeBytes : Nat
  metadataBytes : Nat
deriving DecidableEq, Repr

/-- The fields of `BlockList`. No function reads the size, an `int` of the source. It does
not overflow in a heap of less than 2^37 bytes (`Tiled.size_lt`). -/
structure BlockList where
  head : Nat
  wilderness : Nat
  size : Int
deriving DecidableEq, Repr

/-- The static variables of the allocator. -/
structure Globals where
  statistics : Statistics
  sbrkStart : Nat
  blockList : BlockList
deriving DecidableEq, Repr

abbrev State := Machine Globals

abbrev Alloc := Program Globals

/-- Add a signed amount to an unsigned 64-bit counter. -/
def bump (counter : Nat) (delta : Int) : Nat := ((counter + delta) % 2 ^ 64).toNat

/-- The counters after `updateStatistics`. -/
def Statistics.update (statistics : Statistics) (allocatedBlocks freeBlocks allocatedBytes freeBytes
    metadataBytes : Int) : Statistics where
  allocatedBlocks := bump statistics.allocatedBlocks allocatedBlocks
  freeBlocks := bump statistics.freeBlocks freeBlocks
  allocatedBytes := bump statistics.allocatedBytes allocatedBytes
  freeBytes := bump statistics.freeBytes freeBytes
  metadataBytes := bump statistics.metadataBytes metadataBytes

def updateStatistics (allocatedBlocks freeBlocks allocatedBytes freeBytes metadataBytes : Int) :
    Alloc Unit :=
  modifyGlobals fun g => { g with
    statistics := g.statistics.update allocatedBlocks freeBlocks allocatedBytes freeBytes
      metadataBytes }

def getHead : Alloc Nat := do pure (← globals).blockList.head

def setHead (head : Nat) : Alloc Unit :=
  modifyGlobals fun g => { g with blockList := { g.blockList with head := head } }

def getWilderness : Alloc Nat := do pure (← globals).blockList.wilderness

def setWilderness (wilderness : Nat) : Alloc Unit :=
  modifyGlobals fun g => { g with blockList := { g.blockList with wilderness := wilderness } }

/-- `size++` and `size--` of the block list. -/
def countNode (delta : Int) : Alloc Unit :=
  modifyGlobals fun g => { g with
    blockList := { g.blockList with size := g.blockList.size + delta } }

def getSbrkStart : Alloc Nat := do pure (← globals).sbrkStart

def setSbrkStart (address : Nat) : Alloc Unit :=
  modifyGlobals fun g => { g with sbrkStart := address }

/-- The number of addresses, which bounds every loop that ends. -/
abbrev loopBound : Nat := 2 ^ 64

/-- The guard that sends `addMetadata` past a run of equal sizes:
`tested && node->size == metadata->size && metadata > node`. -/
def runContinues (tested node metadata : Nat) : Alloc Bool :=
  if tested = 0 then pure false
  else do
    let nodeSize ← readSize node
    let size ← readSize metadata
    pure (nodeSize == size && decide (node < metadata))

/-- The writes of `addMetadata` that put a node after one of equal size. -/
def linkAfter (node metadata : Nat) : Alloc Unit := do
  let next ← readNext node
  writeNext metadata next
  writePrev metadata node
  writeNext node metadata
  let next ← readNext metadata
  doIf (next ≠ 0) (writePrev next metadata)

/-- The search loop of `addMetadata`, at `iter`. -/
def addMetadataLoop (metadata : Nat) : Nat → Nat → Alloc Unit
  | 0, _ => throw .hang
  | fuel + 1, iter =>
    if iter = 0 then countNode (-1)
    else do
      let next ← readNext iter
      if next = 0 then do
        writePrev metadata iter
        writeNext metadata 0
        writeNext iter metadata
      else do
        let size ← readSize metadata
        let nextSize ← readSize next
        if size ≤ nextSize then
          if size < nextSize ∨ (size = nextSize ∧ metadata < next) then do
            writePrev metadata iter
            let next ← readNext iter
            writeNext metadata next
            writeNext iter metadata
            let next ← readNext metadata
            writePrev next metadata
          else do
            let head ← getHead
            let headNext ← readNext head
            let further ← runContinues headNext next metadata
            if further then do
              let next ← readNext iter
              addMetadataLoop metadata fuel next
            else linkAfter next metadata
        else do
          let next ← readNext iter
          addMetadataLoop metadata fuel next

/-- `BlockList::addMetadata`. -/
def addMetadata (metadata : Nat) : Alloc Unit := do
  countNode 1
  let head ← getHead
  if head = 0 then do
    setHead metadata
    writeNext metadata 0
    writePrev metadata 0
  else do
    let size ← readSize metadata
    let headSize ← readSize head
    if size ≤ headSize then
      if size < headSize ∨ (size = headSize ∧ metadata < head) then do
        writeNext metadata head
        let headPrev ← readPrev head
        writePrev metadata headPrev
        let next ← readNext metadata
        writePrev next metadata
        setHead metadata
      else do
        let headNext ← readNext head
        let further ← runContinues headNext headNext metadata
        if further then addMetadataLoop metadata loopBound head else linkAfter head metadata
    else addMetadataLoop metadata loopBound head

/-- The search loop of `removeMetadata`, at `iter`. -/
def removeMetadataLoop (metadata : Nat) : Nat → Nat → Alloc Unit
  | 0, _ => throw .hang
  | fuel + 1, iter =>
    if iter = 0 then countNode 1
    else if iter = metadata then do
      let prev ← readPrev iter
      let next ← readNext iter
      writeNext prev next
      let next ← readNext iter
      doIf (next ≠ 0) do
        let prev ← readPrev iter
        writePrev next prev
    else do
      let next ← readNext iter
      removeMetadataLoop metadata fuel next

/-- `BlockList::removeMetadata`. -/
def removeMetadata (metadata : Nat) : Alloc Unit := do
  countNode (-1)
  let head ← getHead
  if head = metadata then do
    let next ← readNext head
    setHead next
    doIf (next ≠ 0) (writePrev next 0)
  else do
    let next ← readNext head
    removeMetadataLoop metadata loopBound next

/-- The loop of `searchFreeBlock`, at `iter`. -/
def searchFreeBlockLoop (size : Nat) : Nat → Nat → Alloc Nat
  | 0, _ => throw .hang
  | fuel + 1, iter =>
    if iter = 0 then pure 0
    else do
      let free ← readFree iter
      let iterSize ← readSize iter
      if free ∧ size ≤ iterSize then pure iter
      else do
        let next ← readNext iter
        searchFreeBlockLoop size fuel next

/-- `BlockList::searchFreeBlock`; null when no free block is large enough. -/
def searchFreeBlock (size : Nat) : Alloc Nat := do
  let head ← getHead
  searchFreeBlockLoop size loopBound head

/-- The footer before the block, or null for the first block of the heap. -/
def previousFooter (address : Nat) : Alloc Nat := do
  let sbrkStart ← getSbrkStart
  pure (if address = sbrkStart then 0 else address - SOM)

/-- The header after the block, or null for a block that ends at the break. -/
def nextHeader (address : Nat) : Alloc Nat := do
  let size ← readSize address
  let brk ← sbrk 0
  pure (if address + size + 2 * SOM = brk then 0 else address + size + 2 * SOM)

/-- `metadata ? metadata->is_free : false`. -/
def freeOrNull (metadata : Nat) : Alloc Bool :=
  if metadata = 0 then pure false else readFree metadata

/-- `memmove((char*)block + block->size + SOM, block, SOM)`: write the footer
of a block as a copy of its header. -/
def copyFooter (address : Nat) : Alloc Unit := do
  let size ← readSize address
  memmove (address + size + SOM) address SOM

/-- `mergeBlocks`, with both neighbours free. -/
def mergeBoth (current prevFooter next : Nat) : Alloc Unit := do
  let footerSize ← readSize prevFooter
  let prev := prevFooter - footerSize - SOM
  let prevSize ← readSize prev
  let nextSize ← readSize next
  let currentSize ← readSize current
  writeSize prev (prevSize + (nextSize + currentSize + 4 * SOM))
  removeMetadata next
  removeMetadata prev
  removeMetadata current
  addMetadata prev
  copyFooter prev
  let currentSize ← readSize current
  updateStatistics (-2) (-1) (4 * SOM) (currentSize + 4 * SOM) (-(4 * SOM))
  let wilderness ← getWilderness
  doIf (next = wilderness) (setWilderness prev)

/-- `mergeBlocks`, with only the next block free. -/
def mergeNext (current next : Nat) : Alloc Unit := do
  let currentSize ← readSize current
  let nextSize ← readSize next
  writeSize current (currentSize + (nextSize + 2 * SOM))
  removeMetadata next
  removeMetadata current
  addMetadata current
  copyFooter current
  let currentSize ← readSize current
  let nextSize ← readSize next
  updateStatistics (-1) 0 (2 * SOM) (currentSize - nextSize) (-(2 * SOM))
  let wilderness ← getWilderness
  doIf (next = wilderness) (setWilderness current)

/-- `mergeBlocks`, with only the previous block free. -/
def mergePrev (current prevFooter : Nat) : Alloc Unit := do
  let footerSize ← readSize prevFooter
  let prev := prevFooter - footerSize - SOM
  let prevSize ← readSize prev
  let currentSize ← readSize current
  writeSize prev (prevSize + (currentSize + 2 * SOM))
  removeMetadata prev
  removeMetadata current
  addMetadata prev
  copyFooter prev
  let currentSize ← readSize current
  updateStatistics (-1) 0 (2 * SOM) (currentSize + 2 * SOM) (-(2 * SOM))
  let wilderness ← getWilderness
  doIf (current = wilderness) (setWilderness prev)

/-- `mergeBlocks`: merge a newly freed block with its free neighbours. -/
def mergeBlocks (address : Nat) : Alloc Unit := do
  let prevFooter ← previousFooter address
  let next ← nextHeader address
  let prevFree ← freeOrNull prevFooter
  let nextFree ← freeOrNull next
  if nextFree ∧ prevFree then mergeBoth address prevFooter next
  else if nextFree then mergeNext address next
  else if prevFree then mergePrev address prevFooter
  else do
    let size ← readSize address
    updateStatistics 0 1 0 size 0

def sfree (p : Nat) : Alloc Unit :=
  if p = 0 then pure ()
  else do
    let block := p - SOM
    let free ← readFree block
    if free then pure ()
    else do
      writeFree block true
      let size ← readSize block
      if size < MMAP_THRESHOLD then do
        writeFree (p + size) true
        mergeBlocks block
      else do
        updateStatistics (-1) 0 (-size) 0 (-(2 * SOM))
        munmap block (wrap (size + SOM))

/-- `splitBlock`: cut a block to `size` and free the rest. -/
def splitBlock (size address : Nat) : Alloc Unit := do
  let high := address + size + 2 * SOM
  removeMetadata address
  let oldSize ← readSize address
  writeSize high (wrapSub (wrapSub oldSize size) (2 * SOM))
  writeFree high false
  writeSize address size
  writeFree address false
  addMetadata address
  addMetadata high
  copyFooter high
  memmove (address + size + SOM) address SOM
  let lowSize ← readSize address
  let highSize ← readSize high
  updateStatistics 1 (-1) (-(2 * SOM)) (-(2 * SOM + lowSize + highSize)) (2 * SOM)
  sfree (high + SOM)
  let wilderness ← getWilderness
  doIf (address = wilderness) (setWilderness high)

/-- `block->size - size - 2*SOM >= MIN_SPLIT_SIZE && block->size - size - 2*SOM < block->size`,
the test for splitting a block of `blockSize` bytes. -/
def splits (blockSize size : Nat) : Prop :=
  MIN_SPLIT_SIZE ≤ wrapSub (wrapSub blockSize size) (2 * SOM) ∧
    wrapSub (wrapSub blockSize size) (2 * SOM) < blockSize

instance (blockSize size : Nat) : Decidable (splits blockSize size) :=
  inferInstanceAs (Decidable (_ ∧ _))

/-- `(size % 8) ? size + (8 - (size % 8)) : size`. -/
def roundUp (size : Nat) : Nat := if size % 8 = 0 then size else size + (8 - size % 8)

/-- `smalloc` on a free block that is large enough. -/
def reuseBlock (size address : Nat) : Alloc Nat := do
  let blockSize ← readSize address
  if splits blockSize size then splitBlock size address
  else do
    writeFree address false
    let blockSize ← readSize address
    writeFree (address + blockSize + SOM) false
    let blockSize ← readSize address
    updateStatistics 0 (-1) 0 (-blockSize) 0
  pure (address + SOM)

/-- The common end of the two ways `smalloc` grows the heap. -/
def finishBlock (size address : Nat) : Alloc Nat := do
  writeSize address size
  writeFree address false
  addMetadata address
  memmove (address + size + SOM) address SOM
  pure (address + SOM)

/-- `smalloc` when the wilderness is free but too small: extend it. -/
def growWilderness (size wilderness : Nat) : Alloc Nat := do
  let wildernessSize ← readSize wilderness
  assert (wildernessSize < size)
  let result ← sbrk (wrapSub size wildernessSize)
  if result = mapFailed then pure 0
  else do
    updateStatistics 0 (-1) (wrapSub size wildernessSize) (-wildernessSize) 0
    removeMetadata wilderness
    finishBlock size wilderness

/-- `smalloc` before its first block: move an unaligned break to a multiple of
8. The result tells whether the caller goes on. -/
def alignBreak : Alloc Bool := do
  let g ← globals
  let brk ← sbrk 0
  if g.blockList.size = 0 ∧ brk % 8 ≠ 0 then do
    let start ← sbrk (8 - brk % 8)
    setSbrkStart start
    pure (start ≠ mapFailed)
  else pure true

/-- `smalloc` of a new block at the break. -/
def appendBlock (size : Nat) : Alloc Nat := do
  let aligned ← alignBreak
  if aligned then do
    let address ← sbrk (size + 2 * SOM)
    if address = mapFailed then pure 0
    else do
      setWilderness address
      updateStatistics 1 0 size 0 (2 * SOM)
      finishBlock size address
  else pure 0

/-- `smalloc` of a large block, from `mmap`. -/
def mmapBlock (size : Nat) : Alloc Nat := do
  let address ← mmap (size + SOM)
  if address = mapFailed then pure 0
  else do
    writeSize address size
    writeFree address false
    updateStatistics 1 0 size 0 (2 * SOM)
    pure (address + SOM)

/-- `block_list.wilderness && block_list.wilderness->is_free`. -/
def wildernessFree : Alloc Bool := do
  let wilderness ← getWilderness
  freeOrNull wilderness

/-- `smalloc` when no free block is large enough. -/
def growHeap (size : Nat) : Alloc Nat := do
  let free ← wildernessFree
  if free then do
    let wilderness ← getWilderness
    growWilderness size wilderness
  else appendBlock size

def smalloc (size : Nat) : Alloc Nat :=
  if size = 0 ∨ 100000000 < size then pure 0
  else if roundUp size < MMAP_THRESHOLD then do
    let address ← searchFreeBlock (roundUp size)
    if address ≠ 0 then reuseBlock (roundUp size) address else growHeap (roundUp size)
  else mmapBlock (roundUp size)

def scalloc (num size : Nat) : Alloc Nat := do
  let address ← smalloc (wrap (num * size))
  if address = 0 then pure 0
  else do
    memset address 0 (wrap (size * num))
    pure address

/-- `tryMergeRealloc`, case b: extend the last block so that it and the block
before it suffice. The result is false when `sbrk` refuses. -/
def extendCurrent (current prevFooter size : Nat) : Alloc Bool := do
  let prevSize ← readSize prevFooter
  let currentSize ← readSize current
  let addedSize := wrapSub size (wrap (prevSize + currentSize + 2 * SOM))
  let result ← sbrk addedSize
  if result = mapFailed then pure false
  else do
    writeSize current (currentSize + addedSize)
    updateStatistics 0 0 addedSize 0 0
    let currentSize ← readSize current
    assert (size ≤ wrap (currentSize + prevSize + 2 * SOM))
    pure true

/-- `tryMergeRealloc`, case b, for a block that is the wilderness. -/
def prepareWilderness (current prevFooter size : Nat) : Alloc Bool := do
  let currentSize ← readSize current
  let prevSize ← readSize prevFooter
  let ready ← if wrap (currentSize + prevSize + 2 * SOM) ≤ size
    then extendCurrent current prevFooter size else pure true
  if ready then do
    setWilderness (prevFooter - prevSize - SOM)
    pure true
  else pure false

/-- `tryMergeRealloc`, case b: move the block down into the free block before
it. -/
def absorbPrevious (current prevFooter : Nat) : Alloc Nat := do
  let footerSize ← readSize prevFooter
  let prev := prevFooter - footerSize - SOM
  let prevSize ← readSize prev
  updateStatistics (-1) (-1) (2 * SOM) (-prevSize) (-(2 * SOM))
  let currentSize ← readSize current
  writeSize prev (prevSize + (currentSize + 2 * SOM))
  writeFree prev false
  memmove (prev + SOM) (current + SOM) currentSize
  removeMetadata current
  removeMetadata prev
  addMetadata prev
  copyFooter prev
  pure (prev + SOM)

/-- `tryMergeRealloc`, case b. No result means that the function goes on. -/
def growIntoPrevious (current prevFooter size : Nat) : Alloc (Option Nat) := do
  let wilderness ← getWilderness
  let ready ← if current = wilderness then prepareWilderness current prevFooter size else pure true
  if ready then do
    let currentSize ← readSize current
    let prevSize ← readSize prevFooter
    if size ≤ wrap (currentSize + prevSize + 2 * SOM) then do
      let result ← absorbPrevious current prevFooter
      pure (some result)
    else pure none
  else pure (some 0)

/-- `tryMergeRealloc`, case c: extend the wilderness in place. -/
def growLast (current size : Nat) : Alloc Nat := do
  let currentSize ← readSize current
  let addedSize := wrapSub size currentSize
  assert (0 < addedSize)
  assert (addedSize % 8 = 0)
  updateStatistics 0 0 addedSize 0 0
  let result ← sbrk addedSize
  if result = mapFailed then pure 0
  else do
    let brk ← sbrk 0
    assert (brk % 8 = 0)
    let currentSize ← readSize current
    writeSize current (currentSize + addedSize)
    writeFree current false
    let currentSize ← readSize current
    assert (size ≤ currentSize)
    removeMetadata current
    addMetadata current
    copyFooter current
    pure (current + SOM)

/-- `tryMergeRealloc`, case d: absorb the free block after it. -/
def absorbNext (current next : Nat) : Alloc Nat := do
  let nextSize ← readSize next
  updateStatistics (-1) (-1) (2 * SOM) (-nextSize) (-(2 * SOM))
  let currentSize ← readSize current
  writeSize current (currentSize + (nextSize + 2 * SOM))
  writeFree current false
  removeMetadata current
  removeMetadata next
  addMetadata current
  copyFooter current
  pure (current + SOM)

/-- The common end of cases e and f with both neighbours free: the payload
moves down and the three nodes become the first one. -/
def joinThree (current prev next : Nat) : Alloc Nat := do
  let currentSize ← readSize current
  memmove (prev + SOM) (current + SOM) currentSize
  removeMetadata prev
  removeMetadata current
  removeMetadata next
  addMetadata prev
  copyFooter prev
  pure (prev + SOM)

/-- `tryMergeRealloc`, case e: absorb both free neighbours. -/
def absorbBoth (current prevFooter next : Nat) : Alloc Nat := do
  let footerSize ← readSize prevFooter
  let nextSize ← readSize next
  updateStatistics (-2) (-2) (4 * SOM) (-(footerSize + nextSize)) (-(4 * SOM))
  let prev := prevFooter - footerSize - SOM
  let prevSize ← readSize prev
  let currentSize ← readSize current
  writeSize prev (prevSize + (currentSize + nextSize + 4 * SOM))
  writeFree prev false
  joinThree current prev next

/-- `tryMergeRealloc`, case f: absorb both free neighbours and extend the
wilderness. -/
def growBoth (current prevFooter next size : Nat) : Alloc Nat := do
  let footerSize ← readSize prevFooter
  let prev := prevFooter - footerSize - SOM
  let prevSize ← readSize prev
  let currentSize ← readSize current
  let nextSize ← readSize next
  let addedSize := wrapSub size (wrap (prevSize + currentSize + nextSize + 4 * SOM))
  assert (0 < addedSize)
  assert (addedSize % 8 = 0)
  let result ← sbrk addedSize
  if result = mapFailed then pure 0
  else do
    updateStatistics (-2) (-2) (addedSize + 4 * SOM) (-(prevSize + nextSize)) (-(4 * SOM))
    writeSize prev (prevSize + (currentSize + nextSize + addedSize + 4 * SOM))
    writeFree prev false
    setWilderness prev
    joinThree current prev next

/-- `tryMergeRealloc`, case f: absorb the wilderness after the block and extend
it. -/
def growNext (current next size : Nat) : Alloc Nat := do
  let currentSize ← readSize current
  let nextSize ← readSize next
  let addedSize := wrapSub size (wrap (currentSize + nextSize + 2 * SOM))
  assert (0 < addedSize)
  assert (addedSize % 8 = 0)
  let result ← sbrk addedSize
  if result = mapFailed then pure 0
  else do
    updateStatistics (-1) (-1) (addedSize + 2 * SOM) (-nextSize) (-(2 * SOM))
    writeSize next (nextSize + addedSize)
    let nextSize ← readSize next
    writeSize current (currentSize + (nextSize + 2 * SOM))
    removeMetadata current
    removeMetadata next
    addMetadata current
    copyFooter current
    setWilderness current
    pure (current + SOM)

/-- The condition of case d. -/
def fitsNext (current next size : Nat) (nextFree : Bool) : Alloc Bool :=
  if nextFree then do
    let nextSize ← readSize next
    let currentSize ← readSize current
    pure (decide (size ≤ wrap (nextSize + currentSize + 2 * SOM)))
  else pure false

/-- The condition of case e. -/
def fitsBoth (current prevFooter next size : Nat) (prevFree nextFree : Bool) : Alloc Bool :=
  if prevFree ∧ nextFree then do
    let prevSize ← readSize prevFooter
    let currentSize ← readSize current
    let nextSize ← readSize next
    pure (decide (size ≤ wrap (prevSize + currentSize + nextSize + 4 * SOM)))
  else pure false

/-- Cases c to f of `tryMergeRealloc`. -/
def growElsewhere (address prevFooter next size : Nat) (prevFree nextFree : Bool) : Alloc Nat := do
  let wilderness ← getWilderness
  if address = wilderness then growLast address size
  else do
    let nextSuffices ← fitsNext address next size nextFree
    if nextSuffices then absorbNext address next
    else do
      let bothSuffice ← fitsBoth address prevFooter next size prevFree nextFree
      if bothSuffice then absorbBoth address prevFooter next
      else if nextFree ∧ next = wilderness then
        if prevFree then growBoth address prevFooter next size else growNext address next size
      else pure 0

/-- `tryMergeRealloc`: grow a block in place, into its free neighbours or over
the break; null when that is impossible. -/
def tryMergeRealloc (address size : Nat) : Alloc Nat := do
  let prevFooter ← previousFooter address
  let next ← nextHeader address
  let prevFree ← freeOrNull prevFooter
  let nextFree ← freeOrNull next
  let merged ← if prevFree then growIntoPrevious address prevFooter size else pure none
  match merged with
  | some result => pure result
  | none => growElsewhere address prevFooter next size prevFree nextFree

/-- The cut `srealloc` makes in a live block, counted as free for the time of
`splitBlock`. -/
def splitLive (size address : Nat) : Alloc Unit := do
  let blockSize ← readSize address
  updateStatistics 0 1 0 blockSize 0
  splitBlock size address

/-- `srealloc`, once the block has been grown in place. -/
def trimGrown (size payload : Nat) : Alloc Nat := do
  let address := payload - SOM
  let blockSize ← readSize address
  doIf (splits blockSize size) (splitLive size address)
  pure (address + SOM)

/-- `srealloc`, when a heap block cannot grow in place: free it, allocate again
and copy the old payload. -/
def relocate (oldp size : Nat) : Alloc Nat := do
  sfree oldp
  let address ← smalloc size
  let blockSize ← readSize (oldp - SOM)
  memmove address oldp blockSize
  pure address

/-- `srealloc` of a block it takes for a mapping. -/
def remap (oldp size : Nat) : Alloc Nat := do
  let newp ← smalloc size
  let blockSize ← readSize (oldp - SOM)
  memmove newp oldp blockSize
  sfree oldp
  pure newp

def srealloc (oldp size : Nat) : Alloc Nat :=
  if size = 0 ∨ 100000000 < size then pure 0
  else if oldp = 0 then smalloc size
  else do
    let blockSize ← readSize (oldp - SOM)
    if size ≤ blockSize then do
      doIf (splits blockSize size) (splitLive size (oldp - SOM))
      pure oldp
    else if blockSize < MMAP_THRESHOLD then do
      let payload ← tryMergeRealloc (oldp - SOM) (roundUp size)
      if payload ≠ 0 then trimGrown size payload else relocate oldp size
    else remap oldp size

end OperatingSystems.Malloc3
