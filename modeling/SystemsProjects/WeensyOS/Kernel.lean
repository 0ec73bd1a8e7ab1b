/-
SystemsProjects.WeensyOS.Kernel — kernel.cc: loading programs, the system
calls, and the kernel's steps.

A `for` loop over a `vmiter` is `forPages`, whose body yields a value to
return it from the enclosing function. `schedule` and `run` fault where
the kernel would spin or stop. The console's contents and the log are not
modelled. Two things that a step does besides are added later: the check
of page tables in `run` (`CheckedRuns`), and `memshow`, which on the first
system call or exception takes a page for its marks (`MemViewer`).
-/
import SystemsProjects.WeensyOS.VmIter

namespace SystemsProjects.WeensyOS

open SystemsProjects.Base

/-! ## Programs -/

/-- A loadable segment; `data` is its `data_size()` bytes. -/
structure Segment where
  va : Nat
  size : Nat
  data : List UInt8
  writable : Bool

/-- A program's ELF file: the number of its program headers, those that
are loaded, and its entry point. -/
structure ProgramImage where
  phnum : Nat
  segments : List Segment
  entry : Nat

/-- What the kernel is built with: its RAM images, and the one to run
first. -/
structure Programs where
  image : String → Option ProgramImage
  firstProcess : String

namespace Programs

def isEmpty (P : Programs) (name : String) : Bool :=
  match P.image name with
  | none => true
  | some img => img.phnum = 0

def segments (P : Programs) (name : String) : List Segment :=
  match P.image name with
  | none => []
  | some img => img.segments

def entry (P : Programs) (name : String) : Nat :=
  match P.image name with
  | none => 0
  | some img => img.entry

end Programs

/-- The addresses `a` of `for (a = round_down(va); a < va + size; a += PAGESIZE)`. -/
def Segment.pages (seg : Segment) : List Nat :=
  (List.range ((seg.va + seg.size - roundDown seg.va PAGESIZE + PAGESIZE - 1) / PAGESIZE)).map
    fun i => roundDown seg.va PAGESIZE + i * PAGESIZE

/-! ## Loops over a page table -/

/-- The loop of `forPages`, with the rounds left. -/
def forPagesLoop {α : Type} (limit : Nat)
    (body : VmIter → Kernel → Except Fault (Option α × Kernel)) :
    Nat → VmIter → Kernel → Except Fault (Option α × Kernel)
  | 0, _, _ => .error .diverged
  | rounds + 1, it, k =>
    if it.va_ < limit then do
      let (r, k) ← body it k
      match r with
      | some r => return (some r, k)
      | none =>
        let it ← it.advance k.mem PAGESIZE
        forPagesLoop limit body rounds it k
    else return (none, k)

/-- `for (vmiter it(pt, start); it.va() < limit; it += PAGESIZE) body`. -/
def forPages {α : Type} (pt start limit : Nat)
    (body : VmIter → Kernel → Except Fault (Option α × Kernel)) (k : Kernel) :
    Except Fault (Option α × Kernel) := do
  let it ← VmIter.new k.mem pt start
  forPagesLoop limit body (limit / PAGESIZE + 1) it k

section

variable (L : Layout)

/-! ## Page tables of processes -/

/-- The permissions of a copied kernel mapping. -/
def copiedPerm (mem : ByteMem) (it : VmIter) : Nat :=
  PTE_P ||| (if it.writable mem = true then PTE_W else 0)
    ||| (if it.user mem = true then PTE_U else 0)

/-- The pages mapped for the process, freed. -/
def freeFrame (it : VmIter) (k : Kernel) : Except Fault (Option Unit × Kernel) :=
  if ¬ it.present k.mem = true ∨ ¬ it.user k.mem = true then .ok (none, k)
  else if it.va_ = CONSOLE_ADDR then .ok (none, k)
  else .ok (none, kfree L (it.pa k.mem) k)

/-- `for (ptiter it(pagetable); !it.done(); it.next()) kfree(it.kptr())`,
with the rounds left. -/
def freeTablesLoop : Nat → PtIter → Kernel → Except Fault Kernel
  | 0, _, _ => .error .diverged
  | rounds + 1, it, k =>
    if it.done = true then .ok k
    else do
      let k := kfree L (it.kptr k.mem) k
      let it ← it.next k.mem
      freeTablesLoop rounds it k

/-- A table has no more pages below its root than entries there. -/
def tableRounds : Nat := 512 ^ 3 + 512 ^ 2 + 512 + 1

def freePagetable (pagetable : Nat) (k : Kernel) : Except Fault Kernel := do
  let (_, k) ← forPages pagetable 0 MEMSIZE_VIRTUAL (freeFrame L) k
  let it ← PtIter.new k.mem pagetable
  let k ← freeTablesLoop L tableRounds it k
  return kfree L pagetable k

/-! ## Loading programs -/

/-- `init_process(p, 0)`: segment selectors and the interrupt flag. -/
def initProcess : RegState :=
  { RegState.zero with cs := 0x18 ||| 3, fs := 0x20 ||| 3, gs := 0x20 ||| 3, ss := 0x20 ||| 3,
                       rflags := 0x200 }

/-- `vmiter(pt, va).map(pa, perm)`. -/
def mapAt (pt va pa perm : Nat) (k : Kernel) : Except Fault Kernel := do
  let it ← VmIter.new k.mem pt va
  let (_, k) ← it.map L pa perm k
  return k

/-- `vmiter(pt, va).try_map(pa, perm)`. -/
def tryMapAt (pt va pa perm : Nat) (k : Kernel) : Except Fault (Int × Kernel) := do
  let it ← VmIter.new k.mem pt va
  let (r, _, k) ← it.tryMap L pa perm k
  return (r, k)

/-- One kernel mapping, copied to a new process. -/
def setupKernelPage (pt : Nat) (it : VmIter) (k : Kernel) :
    Except Fault (Option Unit × Kernel) := do
  if ¬ it.present k.mem = true then
    return (none, k)
  let k ← mapAt L pt it.va_ (it.pa k.mem) (copiedPerm k.mem it) k
  return (none, k)

/-- `kalloc`, and `map` of the page, which may not be `nullptr`. -/
def mapNewPage (pt va perm : Nat) (k : Kernel) : Except Fault Kernel :=
  match kalloc L PAGESIZE k with
  | (none, _) => .error .assertion
  | (some pa, k) => mapAt L pt va pa perm k

def segmentPerm (seg : Segment) : Nat :=
  if seg.writable = true then PTE_P ||| PTE_U ||| PTE_W else PTE_P ||| PTE_U

/-- A page for each page of a segment. -/
def mapSegment (pt : Nat) (k : Kernel) (seg : Segment) : Except Fault Kernel :=
  seg.pages.foldlM (fun k a => mapNewPage L pt a (segmentPerm seg) k) k

/-- A segment's instructions and data. -/
def loadSegment (pt : Nat) (k : Kernel) (seg : Segment) : Except Fault Kernel := do
  let it ← VmIter.new k.mem pt seg.va
  let pa := it.pa k.mem
  let k := k.memset pa 0 seg.size
  return { k with mem := k.mem.store pa seg.data }

def processSetup (P : Programs) (pid : Nat) (program_name : String) (k : Kernel) :
    Except Fault Kernel := do
  let (pt, k) := kallocPagetable L k
  let pt := pt.getD 0
  let (_, k) ← forPages L.kernelPagetable KERNEL_START_ADDR KERNEL_STACK_TOP
    (setupKernelPage L pt) k
  let k ← mapAt L pt CONSOLE_ADDR CONSOLE_ADDR (PTE_P ||| PTE_W ||| PTE_U) k
  let k ← (P.segments program_name).foldlM (mapSegment L pt) k
  let k ← (P.segments program_name).foldlM (loadSegment pt) k
  let stack_addr := MEMSIZE_VIRTUAL - PAGESIZE
  let k ← mapNewPage L pt stack_addr (PTE_P ||| PTE_W ||| PTE_U) k
  let regs := { initProcess with rip := P.entry program_name, rsp := stack_addr + PAGESIZE }
  let p := { k.ptable pid with pagetable := pt, state := .runnable, regs := regs }
  return { k with ptable := Function.update k.ptable pid p }

/-! ## System calls -/

def syscallPageAlloc (addr : Nat) (k : Kernel) : Except Fault (Int × Kernel) :=
  match kalloc L PAGESIZE k with
  | (none, k) => .ok (-1, k)
  | (some pa, k) => do
    let k := k.memset pa 0 PAGESIZE
    let (r, k) ← tryMapAt L k.cur.pagetable addr pa (PTE_P ||| PTE_W ||| PTE_U) k
    if r < 0 then
      return (-1, k)
    return (0, k)

/-- The first free slot of `ptable`, from 1. -/
def findFree (k : Kernel) : Option Nat :=
  (List.range' 1 (PID_MAX - 1)).find? fun i => (k.ptable i).state = .free

/-- `free_pagetable(pt); return -1;`. -/
def abandon (pt : Nat) (k : Kernel) : Except Fault (Option Int × Kernel) := do
  let k ← freePagetable L pt k
  return (some (-1), k)

/-- One kernel mapping, copied to the child. -/
def forkKernelPage (pt : Nat) (it : VmIter) (k : Kernel) : Except Fault (Option Int × Kernel) := do
  if ¬ it.present k.mem = true then
    return (none, k)
  let (rc0, k) ← tryMapAt L pt it.va_ (it.pa k.mem) (copiedPerm k.mem it) k
  if rc0 < 0 then
    abandon L pt k
  else
    return (none, k)

/-- `physpages[(int) pa / PAGESIZE].refcount++`; the `int` is extended to
`unsigned long` for the division. -/
def shareFrame (pa : Nat) (k : Kernel) : Except Fault Kernel :=
  let low := pa % 2 ^ 32
  let pageno := (if low < 2 ^ 31 then low else low + (2 ^ 64 - 2 ^ 32)) / PAGESIZE
  if pageno < NPAGES then .ok (k.setRefcount pageno (k.physpages pageno + 1))
  else .error .badAccess

/-- One mapping of the process, given to the child: a copy of a writable
page, the same page otherwise. -/
def forkUserPage (pt : Nat) (it : VmIter) (k : Kernel) : Except Fault (Option Int × Kernel) := do
  if ¬ (it.present k.mem = true ∧ it.user k.mem = true) then
    return (none, k)
  if it.va_ = CONSOLE_ADDR then
    return (none, k)
  let perm := PTE_P ||| PTE_U
  if it.writable k.mem = true then
    match kalloc L PAGESIZE k with
    | (none, k) => abandon L pt k
    | (some pa, k) =>
      let k := k.memcpy pa (it.pa k.mem) PAGESIZE
      let (rc2, k) ← tryMapAt L pt it.va_ pa (perm ||| PTE_W) k
      if rc2 < 0 then
        abandon L pt k
      else
        return (none, k)
  else
    let (rc3, k) ← tryMapAt L pt it.va_ (it.pa k.mem) perm k
    if rc3 < 0 then
      abandon L pt k
    else
      let k ← shareFrame (it.pa k.mem) k
      return (none, k)

/-- The child's page table, once its root is allocated; -1 if it cannot be
completed. -/
def forkPagetable (pt : Nat) (k : Kernel) : Except Fault (Option Int × Kernel) := do
  let parent := k.cur.pagetable
  let (r, k) ← forPages parent KERNEL_START_ADDR KERNEL_STACK_TOP (forkKernelPage L pt) k
  if r.isSome then
    return (r, k)
  let (rc1, k) ← tryMapAt L pt CONSOLE_ADDR CONSOLE_ADDR (PTE_P ||| PTE_W ||| PTE_U) k
  if rc1 < 0 then
    abandon L pt k
  else
    forPages parent 0 MEMSIZE_VIRTUAL (forkUserPage L pt) k

def syscallFork (k : Kernel) : Except Fault (Int × Kernel) :=
  match findFree k with
  | none => .ok (-1, k)
  | some pid =>
    match kallocPagetable L k with
    | (none, k) => .ok (-1, k)
    | (some pt, k) => do
      let (r, k) ← forkPagetable L pt k
      match r with
      | some r => return (r, k)
      | none =>
        let child :=
          { pagetable := pt, pid := pid, state := .runnable, regs := { k.cur.regs with rax := 0 } }
        return (pid, { k with ptable := Function.update k.ptable pid child })

def syscallExit (k : Kernel) : Except Fault Kernel := do
  let k ← freePagetable L k.cur.pagetable k
  let p := { k.cur with state := .free, pagetable := 0, regs := RegState.zero }
  return { k with ptable := Function.update k.ptable k.current p }

/-! ## Steps -/

/-- `run`. -/
def run (pid : Nat) (k : Kernel) : Except Fault Kernel := do
  let p := k.ptable pid
  assert (p.state = .runnable)
  assert (p.regs.rsp ≥ PROC_START_ADDR)
  assert (p.regs.rsp ≤ MEMSIZE_VIRTUAL)
  assert (p.regs.cs &&& 3 = 3)
  return { k with current := pid }

/-- `schedule`: the next runnable process, round robin from `current`. -/
def schedule (k : Kernel) : Except Fault Kernel :=
  match ((List.range PID_MAX).map fun i => (k.cur.pid + 1 + i) % PID_MAX).find?
      fun pid => (k.ptable pid).state = .runnable with
  | none => .error .diverged
  | some pid => run pid k

/-- `current->regs = *regs`. -/
def saveRegs (regs : RegState) (k : Kernel) : Kernel :=
  { k with ptable := Function.update k.ptable k.current { k.cur with regs := regs } }

abbrev SYSCALL_GETPID : Nat := 1
abbrev SYSCALL_YIELD : Nat := 2
abbrev SYSCALL_PAGE_ALLOC : Nat := 4
abbrev SYSCALL_FORK : Nat := 5
abbrev SYSCALL_EXIT : Nat := 6

/-- An `int` returned as `uintptr_t`. -/
def toUintptr (r : Int) : Nat := (r % 2 ^ 64).toNat

/-- `syscall`: the value returned to the process, if it resumes. -/
def syscall (regs : RegState) (k : Kernel) : Except Fault (Option Nat × Kernel) := do
  let k := saveRegs regs k
  if regs.rax = SYSCALL_GETPID then
    return (some k.cur.pid, k)
  else if regs.rax = SYSCALL_YIELD then
    let k ← schedule (saveRegs { regs with rax := 0 } k)
    return (none, k)
  else if regs.rax = SYSCALL_PAGE_ALLOC then
    let (r, k) ← syscallPageAlloc L k.cur.regs.rdi k
    return (some (toUintptr r), k)
  else if regs.rax = SYSCALL_FORK then
    let (r, k) ← syscallFork L k
    return (some (toUintptr r), k)
  else if regs.rax = SYSCALL_EXIT then
    let k ← syscallExit L k
    let k ← schedule k
    return (none, k)
  else .error .panic

abbrev INT_PF : Nat := 14
abbrev INT_TIMER : Nat := 32

/-- `exception`: a timer interrupt, or a page fault of the process. -/
def exception (regs : RegState) (k : Kernel) : Except Fault Kernel :=
  let k := saveRegs regs k
  if regs.intno = INT_TIMER then schedule k
  else if regs.intno = INT_PF ∧ regs.errcode &&& PTE_U ≠ 0 then
    schedule { k with ptable := Function.update k.ptable k.current { k.cur with state := .faulted } }
  else .error .panic

/-- The running process stores a byte; the processor translates the
address by its page table. -/
def userStore (va : Nat) (byte : UInt8) (k : Kernel) : Except Fault Kernel := do
  let it ← VmIter.new k.mem k.cur.pagetable va
  if it.hasPerm k.mem (PTE_P ||| PTE_W ||| PTE_U) = true then
    return k.memset (it.pa k.mem) byte 1
  else .error .badAccess

/-- What happens while a process runs. -/
inductive Event where
  | store (va : Nat) (byte : UInt8)
  | syscall (regs : RegState)
  | exception (regs : RegState)

/-- One step, from the running process back to a running process. -/
def step (e : Event) (k : Kernel) : Except Fault Kernel :=
  match e with
  | .store va byte => userStore va byte k
  | .syscall regs => do
    let (_, k) ← syscall L regs k
    return k
  | .exception regs => exception regs k

/-! ## Boot -/

/-- `kernel_pagetable[i].entry[j] = e`. -/
def setKernelEntry (i j e : Nat) (k : Kernel) : Kernel :=
  { k with mem := k.mem.write (entryAddr (L.kernelPagetable + i * PAGESIZE) j) 8 e }

/-- The identity mappings of `init_kernel_memory`, with the rounds left. -/
def identityLoop : Nat → VmIter → Kernel → Except Fault Kernel
  | 0, _, _ => .error .diverged
  | rounds + 1, it, k =>
    if it.va_ < MEMSIZE_PHYSICAL then do
      let (it, k) ← if it.va_ ≠ 0 then it.map L it.va_ (PTE_P ||| PTE_W ||| PTE_U) k
        else pure (it, k)
      let it ← it.advance k.mem PAGESIZE
      identityLoop rounds it k
    else return k

/-- `init_kernel_memory`: the kernel's page table. -/
def initKernelMemory (k : Kernel) : Except Fault Kernel := do
  let link := PTE_P ||| PTE_W ||| PTE_U
  let large := PTE_P ||| PTE_W ||| PTE_PS
  let k := k.memset L.kernelPagetable 0 (5 * PAGESIZE)
  let k := setKernelEntry L 0 0 ((L.kernelPagetable + 1 * PAGESIZE) ||| link) k
  let k := setKernelEntry L 1 0 ((L.kernelPagetable + 2 * PAGESIZE) ||| link) k
  let k := setKernelEntry L 2 0 ((L.kernelPagetable + 3 * PAGESIZE) ||| link) k
  let k := setKernelEntry L 2 1 ((L.kernelPagetable + 4 * PAGESIZE) ||| link) k
  let k := setKernelEntry L 1 1 ((1 * 2 ^ 30) ||| large) k
  let k := setKernelEntry L 1 2 ((2 * 2 ^ 30) ||| large) k
  let k := setKernelEntry L 1 3 ((3 * 2 ^ 30) ||| large) k
  let it ← VmIter.new k.mem L.kernelPagetable 0
  identityLoop L (MEMSIZE_PHYSICAL / PAGESIZE + 1) it k

/-- The permissions `kernel_start` gives to the page at `addr`. -/
def kernelPagePerm (addr : Nat) : Nat :=
  let perm := PTE_P ||| PTE_W ||| PTE_U
  let perm := if addr = 0 then 0 else perm
  if addr < PROC_START_ADDR ∧ addr ≠ CONSOLE_ADDR then PTE_P ||| PTE_W else perm

/-- One round of the identity loop of `kernel_start`. -/
def kernelPage (k : Kernel) (pageno : Nat) : Except Fault Kernel := do
  let addr := pageno * PAGESIZE
  let (r, k) ← tryMapAt L L.kernelPagetable addr addr (kernelPagePerm addr) k
  assert (r = 0)
  return k

/-- The state the boot loader hands over: any contents of memory, no page
in use, no process. -/
def initialKernel (mem : ByteMem) : Kernel where
  mem := mem
  physpages := fun _ => 0
  ptable := fun i => { pagetable := 0, pid := i, state := .free, regs := RegState.zero }
  current := 0

/-- `kernel_start`, up to its first `run`. -/
def kernelStart (P : Programs) (command : Option String) (mem : ByteMem) :
    Except Fault Kernel := do
  let k ← initKernelMemory L (initialKernel mem)
  let k ← (List.range NPAGES).foldlM (kernelPage L) k
  let command := command.getD P.firstProcess
  let k ←
    if ¬ P.isEmpty command = true then processSetup L P 1 command k
    else do
      let k ← processSetup L P 1 "allocator" k
      let k ← processSetup L P 2 "allocator2" k
      let k ← processSetup L P 3 "allocator3" k
      processSetup L P 4 "allocator4" k
  run 1 k

end

end SystemsProjects.WeensyOS
