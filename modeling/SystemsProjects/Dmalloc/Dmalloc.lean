/-
SystemsProjects.Dmalloc.Dmalloc — dmalloc.cc, the debugging allocator.

The state is the client's memory, `g_stats`, `g_active` and the base
allocator underneath. Words of `size_t` and `uintptr_t` are naturals kept
below 2^64 by `wrap`. The base allocator is seen from outside: a call of
`base_malloc` answers what its argument `BaseResult` says, and `blocks`
and `frees` record what it has handed out and been given back.

`g_stats` and `g_active` are not part of the client's memory: a wild
write reaches headers, footers and other blocks, not the allocator's own
variables. `base_allocator_disable`, which only keeps the nodes of
`g_active` out of the base allocator, is left out.
-/
import SystemsProjects.Base.ByteMemory

namespace SystemsProjects.Dmalloc

open SystemsProjects.Base

/-! ## Words and records -/

/-- `size_t` and `uintptr_t` arithmetic. -/
def wrap (n : Nat) : Nat := n % 2 ^ 64

/-- `(size_t)-1`. -/
def SIZE_MAX : Nat := 2 ^ 64 - 1

def IS_ALLOC : Nat := 0xf4ba49d1
def BOUND_VAL : Nat := 0x185a4b2f

/-- `dmalloc_stats`. -/
structure DmallocStats where
  nactive : Nat
  activeSize : Nat
  ntotal : Nat
  totalSize : Nat
  nfail : Nat
  failSize : Nat
  heapMin : Nat
  heapMax : Nat
  deriving DecidableEq, Repr

/-- `alloc_info_t`, with `file` the address of the file name. -/
structure AllocInfo where
  ptrVal : Nat
  allocSize : Nat
  isAllocated : Nat
  padding : Nat
  file : Nat
  line : Nat
  deriving DecidableEq, Repr

/-- `alignof(std::max_align_t)`. -/
def A : Nat := 16

/-- `sizeof(alloc_info_t)`: six fields of 8 bytes, `is_allocated` filled
up from 4. -/
def sizeofAllocInfo : Nat := 48

/-- `(sizeof(alloc_info_t) + A - 1) & ~(A - 1)`. -/
def hdrSz : Nat := (sizeofAllocInfo + A - 1) / A * A

/-- `sizeof(size_t)`. -/
def ftrSz : Nat := 8

/-- The `alloc_info_t` at address `pos`. -/
def readInfo (mem : ByteMem) (pos : Nat) : AllocInfo where
  ptrVal := mem.read pos 8
  allocSize := mem.read (pos + 8) 8
  isAllocated := mem.read (pos + 16) 4
  padding := mem.read (pos + 24) 8
  file := mem.read (pos + 32) 8
  line := mem.read (pos + 40) 8

/-- Assign all six fields of the `alloc_info_t` at address `pos`. -/
def writeInfo (mem : ByteMem) (pos : Nat) (info : AllocInfo) : ByteMem :=
  (((((mem.write pos 8 info.ptrVal).write (pos + 8) 8 info.allocSize).write
    (pos + 16) 4 info.isAllocated).write (pos + 24) 8 info.padding).write
    (pos + 32) 8 info.file).write (pos + 40) 8 info.line

/-! ## `g_active` -/

/-- `std::map<uintptr_t, alloc_info_t*>`: pairs in ascending key order. -/
abbrev ActiveMap := List (Nat × Nat)

namespace ActiveMap

/-- `active[key] = value`. -/
def assign (key value : Nat) : ActiveMap → ActiveMap
  | [] => [(key, value)]
  | (k, v) :: rest =>
    if key < k then (key, value) :: (k, v) :: rest
    else if key = k then (key, value) :: rest
    else (k, v) :: assign key value rest

/-- `active.count(key) != 0`. -/
def count (active : ActiveMap) (key : Nat) : Bool := active.any fun item => item.1 == key

def erase (active : ActiveMap) (key : Nat) : ActiveMap := active.filter fun item => item.1 ≠ key

/-- `std::prev(active.upper_bound(key))`, if there is one. -/
def prevUpperBound (active : ActiveMap) (key : Nat) : Option (Nat × Nat) :=
  (active.filter fun item => item.1 ≤ key).getLast?

end ActiveMap

/-! ## The base allocator -/

/-- What the base allocator has done: the blocks it has handed out and not
been given back, as (address, size), and the addresses given back so far. -/
structure BaseAllocator where
  blocks : List (Nat × Nat)
  frees : List Nat
  deriving DecidableEq, Repr

/-- What a call of `base_malloc` answers: the block's address, or 0, and
the bytes found in the block. -/
structure BaseResult where
  raw : Nat
  contents : Nat → UInt8

structure State where
  mem : ByteMem
  stats : DmallocStats
  active : ActiveMap
  base : BaseAllocator

def initialStats : DmallocStats where
  nactive := 0
  activeSize := 0
  ntotal := 0
  totalSize := 0
  nfail := 0
  failSize := 0
  heapMin := SIZE_MAX
  heapMax := 0

/-- Before the first call. -/
def initialState (mem : ByteMem) : State := ⟨mem, initialStats, [], ⟨[], []⟩⟩

def BaseAllocator.handOut (base : BaseAllocator) (raw sz : Nat) : BaseAllocator :=
  ⟨(raw, sz) :: base.blocks, base.frees⟩

def BaseAllocator.takeBack (base : BaseAllocator) (ptr : Nat) : BaseAllocator :=
  ⟨base.blocks.filter fun blk => blk.1 ≠ ptr, base.frees ++ [ptr]⟩

def baseMalloc (s : State) (sz : Nat) (b : BaseResult) : State :=
  if b.raw = 0 then s
  else { s with mem := s.mem.update b.raw sz b.contents
                base := s.base.handOut b.raw sz }

def baseFree (s : State) (ptr : Nat) : State := { s with base := s.base.takeBack ptr }

/-! ## Allocation -/

/-- The failure counters, for a request of `sz` bytes. -/
def countFailure (s : State) (sz : Nat) : State :=
  { s with stats := { s.stats with nfail := wrap (s.stats.nfail + 1),
                                   failSize := wrap (s.stats.failSize + sz) } }

/-- The success counters. -/
def countSuccess (stats : DmallocStats) (sz : Nat) : DmallocStats :=
  { stats with nactive := wrap (stats.nactive + 1),
               activeSize := wrap (stats.activeSize + sz),
               ntotal := wrap (stats.ntotal + 1),
               totalSize := wrap (stats.totalSize + sz) }

/-- The heap bounds, for a block of `sz` bytes at `user`. -/
def growBounds (stats : DmallocStats) (user sz : Nat) : DmallocStats :=
  { stats with heapMin := if user < stats.heapMin then user else stats.heapMin,
               heapMax := if wrap (user + sz) > stats.heapMax then wrap (user + sz)
                          else stats.heapMax }

/-- The boundary value behind the user region, then the header. -/
def stamp (mem : ByteMem) (raw sz file line : Nat) : ByteMem :=
  writeInfo (mem.write (raw + hdrSz + sz) ftrSz BOUND_VAL) raw
    { ptrVal := wrap (raw + hdrSz)
      allocSize := sz
      isAllocated := IS_ALLOC
      padding := BOUND_VAL
      file := file
      line := line }

/-- `dmalloc`: the pointer returned, 0 for `NULL`. -/
def dmalloc (sz file line : Nat) (b : BaseResult) (s : State) : Nat × State :=
  let total := wrap (hdrSz + sz + ftrSz)
  if sz > SIZE_MAX - hdrSz - ftrSz then (0, countFailure s sz)
  else
    let s := baseMalloc s total b
    if b.raw = 0 then (0, countFailure s sz)
    else
      let user := wrap (b.raw + hdrSz)
      (user, { s with mem := stamp s.mem b.raw sz file line
                      active := s.active.assign user b.raw
                      stats := growBounds (countSuccess s.stats sz) user sz })

/-- `dcalloc`. A product that overflows sets `fail_size` and does not add
to it. -/
def dcalloc (nmemb sz file line : Nat) (b : BaseResult) (s : State) : Nat × State :=
  if ¬ (nmemb = 0 ∨ sz = 0) ∧ sz > SIZE_MAX / nmemb then
    (0, { s with stats := { s.stats with nfail := wrap (s.stats.nfail + 1),
                                         failSize := SIZE_MAX } })
  else
    let (ptr, s) := dmalloc (wrap (nmemb * sz)) file line b s
    if ptr ≠ 0 then (ptr, { s with mem := s.mem.fill ptr (wrap (nmemb * sz)) 0 })
    else (ptr, s)

/-! ## Release -/

/-- The lines `dfree` prints on `stderr`. -/
inductive Message where
  | notAllocated (file line ptr : Nat)
  | notInHeap (file line ptr : Nat)
  | doubleFree (file line ptr : Nat)
  | insideRegion (file line ptr offset size : Nat)
  | wildWrite (file line ptr : Nat)
  deriving DecidableEq, Repr

/-- How `dfree` ends: it returns, or calls `abort()`, having printed these
lines and leaving this state. -/
inductive FreeOutcome where
  | returned (msgs : List Message) (s : State)
  | aborted (msgs : List Message) (s : State)

/-- The search for an active block around a pointer that is not allocated. -/
def insideReport (s : State) (ptr : Nat) : List Message :=
  match s.active.prevUpperBound ptr with
  | none => []
  | some (start, a) =>
    let info := readInfo s.mem a
    if ptr > start ∧ ptr < wrap (start + info.allocSize) then
      [.insideRegion info.file info.line ptr (ptr - start) info.allocSize]
    else []

/-- The end of `dfree`: mark the header, give the block back, take the
pointer out of `g_active` and count. -/
def release (s : State) (ptr hdrPos allocSize : Nat) : State :=
  let s := { s with mem := s.mem.write (hdrPos + 16) 4 0 }
  let s := baseFree s hdrPos
  { s with active := s.active.erase ptr
           stats := { s.stats with nactive := wrap (s.stats.nactive + SIZE_MAX)
                                   activeSize := wrap (s.stats.activeSize +
                                     (2 ^ 64 - allocSize)) } }

def dfree (ptr file line : Nat) (s : State) : FreeOutcome :=
  if ptr = 0 then .returned [] s
  else
    let hdrPos := wrap (ptr + (2 ^ 64 - hdrSz))
    if hdrPos % 16 ≠ 0 then .aborted [.notAllocated file line ptr] s
    else if ptr < s.stats.heapMin ∨ ptr ≥ s.stats.heapMax then
      .aborted [.notInHeap file line ptr] s
    else
      let info := readInfo s.mem hdrPos
      if info.ptrVal = ptr ∧ info.isAllocated ≠ IS_ALLOC then
        .aborted [.doubleFree file line ptr] s
      else if info.ptrVal ≠ ptr ∨ s.active.count ptr = false then
        .aborted (.notAllocated file line ptr :: insideReport s ptr) s
      else
        let toCheck := s.mem.read (wrap (hdrPos + hdrSz + info.allocSize)) 8
        let msgs : List Message :=
          if toCheck ≠ BOUND_VAL ∨ info.padding ≠ BOUND_VAL then [.wildWrite file line ptr]
          else []
        .returned msgs (release s ptr hdrPos info.allocSize)

/-! ## The leak report -/

/-- The arguments of a line `print_leak_report` prints. -/
structure LeakLine where
  file : Nat
  line : Nat
  ptr : Nat
  size : Nat
  deriving DecidableEq, Repr

/-- `print_leak_report`: the lines in the order printed, from the highest
pointer down. -/
def printLeakReport (s : State) : List LeakLine :=
  s.active.reverse.map fun item =>
    let info := readInfo s.mem item.2
    { file := info.file, line := info.line, ptr := item.1, size := info.allocSize }

end SystemsProjects.Dmalloc
