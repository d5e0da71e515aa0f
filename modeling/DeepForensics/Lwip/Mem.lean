/-
# The heap of lwIP

The functions of `mem.c` with the configuration of the server: a heap `ram` of 16000 bytes, no
alignment, 16-bit sizes.  The headers `struct mem` stand in `ram` itself, in front of the data of
the blocks; a pointer into the heap is an index into `ram`.

A read or write of a header outside the array `ram_heap`, an assertion that fails and a loop that
does not end are faults.
-/
import DeepForensics.Lib.Ram

namespace DeepForensics
namespace Lwip

open Ram

/-- `MEM_SIZE_ALIGNED`; also the index of `ram_end`. -/
def memSize : ℕ := 16000

/-- `MIN_SIZE_ALIGNED`. -/
def minSize : ℕ := 12

/-- `SIZEOF_STRUCT_MEM`. -/
def sizeofMem : ℕ := 6

/-- The length of `ram_heap`. -/
def ramSize : ℕ := memSize + 2 * sizeofMem

/-- Every data block is at least `MIN_SIZE_ALIGNED` long. -/
def padded (size : ℕ) : ℕ := if size < minSize then minSize else size

/-- The value kept by a `mem_size_t`. -/
def memSizeT (n : ℤ) : ℕ := (n % 2 ^ 16).toNat

/-- The value kept by a `size_t`. -/
def sizeT (n : ℤ) : ℕ := (n % 2 ^ 64).toNat

inductive MemFault where
  | assertion (text : String)
  | outOfBounds
  | endless
deriving DecidableEq, Repr

/-- `LWIP_ASSERT`. -/
def lwipAssert (text : String) (c : Bool) : Except MemFault Unit :=
  if c then .ok () else .error (.assertion text)

/-- `struct mem`. -/
structure Mem where
  next : ℕ
  prev : ℕ
  used : UInt8
deriving DecidableEq, Repr

/-- `struct stats_mem`. -/
structure MemStats where
  err : ℕ
  avail : ℕ
  used : ℕ
  max : ℕ
deriving DecidableEq, Repr

/-- `MEM_STATS_INC_USED(used, n)`. -/
def MemStats.incUsed (s : MemStats) (n : ℤ) : MemStats :=
  let used := memSizeT (s.used + n)
  { s with used := used, max := if s.max < used then used else s.max }

/-- `MEM_STATS_DEC_USED(used, n)`. -/
def MemStats.decUsed (s : MemStats) (n : ℤ) : MemStats :=
  { s with used := memSizeT (s.used - n) }

/-- `MEM_STATS_INC(err)`. -/
def MemStats.incErr (s : MemStats) : MemStats := { s with err := (s.err + 1) % 2 ^ 16 }

/-- The state of `mem.c`. -/
structure Arena where
  ram : Memory
  lfree : ℕ
  stats : MemStats

/-- The header at `p`. -/
def header (m : Memory) (p : ℕ) : Mem := ⟨get16 m p, get16 m (p + 2), m (p + 4)⟩

namespace Arena

/-- A read of the header at `p`. -/
def load (h : Arena) (p : ℕ) : Except MemFault Mem :=
  if p + sizeofMem ≤ ramSize then .ok (header h.ram p) else .error .outOfBounds

/-- A write to the header at `p`. -/
def store (h : Arena) (p : ℕ) (f : Memory → Memory) : Except MemFault Arena :=
  if p + sizeofMem ≤ ramSize then .ok { h with ram := f h.ram } else .error .outOfBounds

def setNext (h : Arena) (p v : ℕ) : Except MemFault Arena := h.store p fun m => put16 m p v

def setPrev (h : Arena) (p v : ℕ) : Except MemFault Arena := h.store p fun m => put16 m (p + 2) v

def setUsed (h : Arena) (p : ℕ) (v : UInt8) : Except MemFault Arena :=
  h.store p fun m => put8 m (p + 4) v

end Arena

open Arena

/-! ## `mem_init` -/

/-- `mem_init()`, with any bytes in `ram_heap` and the statistics at zero. -/
def memInit (ram : Memory) : Except MemFault Arena := do
  let h : Arena := ⟨ram, 0, ⟨0, 0, 0, 0⟩⟩
  let h ← h.setNext 0 memSize
  let h ← h.setPrev 0 0
  let h ← h.setUsed 0 0
  let h ← h.setUsed memSize 1
  let h ← h.setNext memSize memSize
  let h ← h.setPrev memSize memSize
  .ok { h with lfree := 0, stats := { h.stats with avail := memSize } }

/-! ## `mem_free` -/

/-- `mem->next = nmem->next` and `ram[nmem->next].prev = mem`: the two blocks become one. -/
def join (h : Arena) (mem nmem : ℕ) : Except MemFault Arena := do
  let n ← h.load nmem
  let h ← h.setNext mem n.next
  let n ← h.load nmem
  h.setPrev n.next mem

/-- `plug_holes(mem)`: the forward part. -/
def plugForward (h : Arena) (mem : ℕ) : Except MemFault Arena := do
  let m ← h.load mem
  lwipAssert "plug_holes: mem->next <= MEM_SIZE_ALIGNED" (m.next ≤ memSize)
  let n ← h.load m.next
  if mem ≠ m.next ∧ n.used = 0 ∧ m.next ≠ memSize then
    join (if h.lfree = m.next then { h with lfree := mem } else h) mem m.next
  else .ok h

/-- `plug_holes(mem)`: the backward part. -/
def plugBackward (h : Arena) (mem : ℕ) : Except MemFault Arena := do
  let m ← h.load mem
  let p ← h.load m.prev
  if m.prev ≠ mem ∧ p.used = 0 then
    join (if h.lfree = mem then { h with lfree := m.prev } else h) m.prev mem
  else .ok h

/-- `plug_holes(mem)`. -/
def plugHoles (h : Arena) (mem : ℕ) : Except MemFault Arena := do
  lwipAssert "plug_holes: mem < ram_end" (mem < memSize)
  let m ← h.load mem
  lwipAssert "plug_holes: mem->used == 0" (m.used = 0)
  let h ← plugForward h mem
  plugBackward h mem

/-- The index of the header of `rmem`. -/
def headerOf (rmem : ℤ) : Except MemFault ℕ :=
  if sizeofMem ≤ rmem then .ok (rmem - sizeofMem).toNat else .error .outOfBounds

/-- `mem_free(rmem)`. -/
def memFree (h : Arena) : Option ℤ → Except MemFault Arena
  | none => .ok h
  | some rmem => do
    lwipAssert "mem_free: legal memory" (0 ≤ rmem && rmem < memSize)
    let mem ← headerOf rmem
    let m ← h.load mem
    lwipAssert "mem_free: mem->used" (m.used ≠ 0)
    let h ← h.setUsed mem 0
    let h := if mem < h.lfree then { h with lfree := mem } else h
    let m ← h.load mem
    plugHoles { h with stats := h.stats.decUsed (m.next - memSizeT mem) } mem

/-! ## `mem_trim` -/

/-- `mem2->next->prev = ptr2`, but not at the end of the heap. -/
def relink (h : Arena) (next ptr2 : ℕ) : Except MemFault Arena :=
  if next ≠ memSize then h.setPrev next ptr2 else .ok h

/-- `mem_trim`: the free block behind is moved. -/
def trimMove (h : Arena) (mem ptr size newsize : ℕ) : Except MemFault Arena := do
  let m ← h.load mem
  let m2 ← h.load m.next
  let next := m2.next
  let ptr2 := memSizeT (ptr + sizeofMem + newsize)
  let h := if h.lfree = m.next then { h with lfree := ptr2 } else h
  let h ← h.setUsed ptr2 0
  let h ← h.setNext ptr2 next
  let h ← h.setPrev ptr2 ptr
  let h ← h.setNext mem ptr2
  let m2 ← h.load ptr2
  let h ← relink h m2.next ptr2
  .ok { h with stats := h.stats.decUsed (size - newsize) }

/-- `mem_trim`: the rest becomes a free block. -/
def trimSplit (h : Arena) (mem ptr size newsize : ℕ) : Except MemFault Arena := do
  let ptr2 := memSizeT (ptr + sizeofMem + newsize)
  let h := if ptr2 < h.lfree then { h with lfree := ptr2 } else h
  let h ← h.setUsed ptr2 0
  let m ← h.load mem
  let h ← h.setNext ptr2 m.next
  let h ← h.setPrev ptr2 ptr
  let h ← h.setNext mem ptr2
  let m2 ← h.load ptr2
  let h ← relink h m2.next ptr2
  .ok { h with stats := h.stats.decUsed (size - newsize) }

/-- `mem_trim(rmem, newsize)`. -/
def memTrim (h : Arena) (rmem : ℤ) (newsize : ℕ) : Except MemFault (Arena × Option ℤ) :=
  let newsize := padded newsize
  if memSize < newsize then .ok (h, none)
  else do
    lwipAssert "mem_trim: legal memory" (0 ≤ rmem && rmem < memSize)
    let mem ← headerOf rmem
    let ptr := memSizeT mem
    let m ← h.load mem
    let size := memSizeT (m.next - ptr - sizeofMem)
    lwipAssert "mem_trim can only shrink memory" (newsize ≤ size)
    if newsize = size then .ok (h, some rmem)
    else do
      let m2 ← h.load m.next
      if m2.used = 0 then do
        let h ← trimMove h mem ptr size newsize
        .ok (h, some rmem)
      else if newsize + sizeofMem + minSize ≤ size then do
        let h ← trimSplit h mem ptr size newsize
        .ok (h, some rmem)
      else .ok (h, some rmem)

/-! ## `mem_malloc` -/

/-- `mem->next - (ptr + SIZEOF_STRUCT_MEM)`. -/
def dataSize (m : Mem) (ptr : ℕ) : ℕ := sizeT (m.next - (ptr + sizeofMem))

/-- The loop that looks for the next free block from `cur` on. -/
def nextFree (h : Arena) : ℕ → ℕ → Except MemFault ℕ
  | 0, _ => .error .endless
  | fuel + 1, cur => do
    let m ← h.load cur
    if m.used ≠ 0 ∧ cur ≠ memSize then nextFree h fuel m.next else .ok cur

/-- The block is large enough for a second one: it is cut. -/
def mallocSplit (h : Arena) (ptr size : ℕ) : Except MemFault Arena := do
  let ptr2 := memSizeT (ptr + sizeofMem + size)
  let h ← h.setUsed ptr2 0
  let m ← h.load ptr
  let h ← h.setNext ptr2 m.next
  let h ← h.setPrev ptr2 ptr
  let h ← h.setNext ptr ptr2
  let h ← h.setUsed ptr 1
  let m2 ← h.load ptr2
  let h ← relink h m2.next ptr2
  .ok { h with stats := h.stats.incUsed (size + sizeofMem) }

/-- The whole block is taken. -/
def mallocWhole (h : Arena) (ptr : ℕ) : Except MemFault Arena := do
  let h ← h.setUsed ptr 1
  let m ← h.load ptr
  .ok { h with stats := h.stats.incUsed (m.next - memSizeT ptr) }

/-- The free block at `ptr` becomes a block in use. -/
def mallocUse (h : Arena) (ptr size : ℕ) (m : Mem) : Except MemFault Arena :=
  if size + sizeofMem + minSize ≤ dataSize m ptr then mallocSplit h ptr size
  else mallocWhole h ptr

/-- `lfree` is moved on when its block has been taken. -/
def mallocAdjust (h : Arena) (ptr : ℕ) : Except MemFault Arena :=
  if ptr = h.lfree then do
    let cur ← nextFree h (memSize + 1) h.lfree
    let m ← h.load cur
    lwipAssert "mem_malloc: !lfree->used" (cur = memSize || m.used = 0)
    .ok { h with lfree := cur }
  else .ok h

/-- The free block at `ptr` is taken. -/
def mallocTake (h : Arena) (ptr size : ℕ) (m : Mem) : Except MemFault (Arena × Option ℤ) := do
  let h ← mallocUse h ptr size m
  let h ← mallocAdjust h ptr
  lwipAssert "mem_malloc: allocated memory not above ram_end." (ptr + sizeofMem + size ≤ memSize)
  .ok (h, some (ptr + sizeofMem))

/-- The search for a free block from `ptr` on. -/
def mallocScan (h : Arena) (size : ℕ) : ℕ → ℕ → Except MemFault (Arena × Option ℤ)
  | 0, _ => .error .endless
  | fuel + 1, ptr =>
    if ptr < memSize - size then do
      let m ← h.load ptr
      if m.used = 0 ∧ size ≤ dataSize m ptr then mallocTake h ptr size m
      else mallocScan h size fuel m.next
    else .ok ({ h with stats := h.stats.incErr }, none)

/-- `mem_malloc(size)`. -/
def memMalloc (h : Arena) (size : ℕ) : Except MemFault (Arena × Option ℤ) :=
  if size = 0 then .ok (h, none)
  else
    let size := padded size
    if memSize < size then .ok (h, none)
    else mallocScan h size (memSize + 1) (memSizeT h.lfree)

/-! ## `mem_calloc` -/

/-- `memset` of `n` bytes at `p`. -/
def memset (m : Memory) (p n : ℕ) (v : UInt8) : Memory :=
  fun i => if p ≤ i && i < p + n then v else m i

/-- `mem_calloc(count, size)`. -/
def memCalloc (h : Arena) (count size : ℕ) : Except MemFault (Arena × Option ℤ) := do
  let (h, p) ← memMalloc h (memSizeT (count * size))
  match p with
  | none => .ok (h, none)
  | some p =>
    if p.toNat + count * size ≤ ramSize then
      .ok ({ h with ram := memset h.ram p.toNat (count * size) 0 }, some p)
    else .error .outOfBounds

end Lwip
end DeepForensics
