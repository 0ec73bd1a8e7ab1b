/-
SystemsProjects.WeensyOS.Memory — kernel.hh and x86-64.h: the kernel's
state, and the physical page allocator of kernel.cc.

Physical memory is one byte at every address; the page tables live in it.
The kernel runs under an identity mapping, so a kernel pointer is a
physical address. Words are naturals, with wrap-around written out; a
failed assertion, a panic and a stray access are faults.
-/
import SystemsProjects.Base.ByteMemory
import SystemsProjects.Base.Fallible
import Mathlib.Logic.Function.Basic

namespace SystemsProjects.WeensyOS

open SystemsProjects.Base

/-! ## Constants -/

abbrev PAGEOFFBITS : Nat := 12
abbrev PAGEINDEXBITS : Nat := 9
abbrev PAGESIZE : Nat := 4096

abbrev PTE_P : Nat := 0x1
abbrev PTE_W : Nat := 0x2
abbrev PTE_U : Nat := 0x4
abbrev PTE_PS : Nat := 0x80
abbrev PTE_PAMASK : Nat := 0x000FFFFFFFFFF000

abbrev VA_LOWMAX : Nat := 0x00007FFFFFFFFFFF
abbrev VA_HIGHMIN : Nat := 0xFFFF800000000000

abbrev KERNEL_START_ADDR : Nat := 0x40000
abbrev KERNEL_STACK_TOP : Nat := 0x80000
abbrev CONSOLE_ADDR : Nat := 0xB8000
abbrev IOPHYSMEM : Nat := 0xA0000
abbrev EXTPHYSMEM : Nat := 0x100000
abbrev PROC_START_ADDR : Nat := 0x100000
abbrev MEMSIZE_PHYSICAL : Nat := 0x200000
abbrev NPAGES : Nat := 512
abbrev MEMSIZE_VIRTUAL : Nat := 0x300000

abbrev PID_MAX : Nat := 16

/-! ## State -/

inductive Fault where
  /-- A failed `assert`. -/
  | assertion
  /-- `panic`, `proc_panic` or `user_panic`. -/
  | panic
  /-- An access outside an array, or a write to a constant. -/
  | badAccess
  /-- A loop that does not end. -/
  | diverged
  deriving DecidableEq, Repr

/-- `assert`. -/
def assert (c : Prop) [Decidable c] : Except Fault Unit :=
  if c then .ok () else .error .assertion

/-- Where the linker puts the kernel: the end of its image, which leaves
its stack page free, and its five static page-table pages. -/
structure Layout where
  kernelEnd : Nat
  kernelPagetable : Nat
  start_le : KERNEL_START_ADDR ≤ kernelPagetable
  aligned : kernelPagetable % PAGESIZE = 0
  pagetable_le : kernelPagetable + 5 * PAGESIZE ≤ kernelEnd
  end_le : kernelEnd ≤ KERNEL_STACK_TOP - PAGESIZE

/-- `regstate`. -/
structure RegState where
  rax : Nat
  rcx : Nat
  rdx : Nat
  rbx : Nat
  rbp : Nat
  rsi : Nat
  rdi : Nat
  r8 : Nat
  r9 : Nat
  r10 : Nat
  r11 : Nat
  r12 : Nat
  r13 : Nat
  r14 : Nat
  r15 : Nat
  fs : Nat
  gs : Nat
  intno : Nat
  swapgs : Nat
  errcode : Nat
  rip : Nat
  cs : Nat
  rflags : Nat
  rsp : Nat
  ss : Nat
  deriving DecidableEq, Repr

/-- All registers zero. -/
def RegState.zero : RegState :=
  ⟨0, 0, 0, 0, 0, 0, 0, 0, 0, 0, 0, 0, 0, 0, 0, 0, 0, 0, 0, 0, 0, 0, 0, 0, 0⟩

inductive ProcState where
  | free
  | runnable
  | blocked
  | faulted
  deriving DecidableEq, Repr

structure Proc where
  /-- The root of its page table; 0 is `nullptr`. -/
  pagetable : Nat
  pid : Nat
  state : ProcState
  regs : RegState
  deriving DecidableEq

structure Kernel where
  mem : ByteMem
  /-- `physpages[pageno].refcount`, eight bits. -/
  physpages : Nat → Nat
  ptable : Nat → Proc
  /-- The index of `current` in `ptable`. -/
  current : Nat

namespace Kernel

/-- The process `current` points to. -/
def cur (k : Kernel) : Proc := k.ptable k.current

def memset (k : Kernel) (pa : Nat) (c : UInt8) (n : Nat) : Kernel :=
  { k with mem := k.mem.fill pa n c }

def memcpy (k : Kernel) (dst src n : Nat) : Kernel := { k with mem := k.mem.copy dst src n }

/-- `physpages[pageno].refcount = n`, cut to eight bits. -/
def setRefcount (k : Kernel) (pageno n : Nat) : Kernel :=
  { k with physpages := Function.update k.physpages pageno (n % 256) }

end Kernel

/-! ## Physical pages (k-hardware.cc, kernel.cc) -/

def roundUp (a n : Nat) : Nat := (a + n - 1) / n * n

def roundDown (a n : Nat) : Nat := a / n * n

def reservedPhysicalAddress (pa : Nat) : Bool :=
  pa < PAGESIZE || (IOPHYSMEM ≤ pa && pa < EXTPHYSMEM)

section

variable (L : Layout)

def allocatablePhysicalAddress (pa : Nat) : Bool :=
  !reservedPhysicalAddress pa
    && (pa < KERNEL_START_ADDR || roundUp L.kernelEnd PAGESIZE ≤ pa)
    && (pa < KERNEL_STACK_TOP - PAGESIZE || KERNEL_STACK_TOP ≤ pa)
    && pa < MEMSIZE_PHYSICAL

/-- The loop of `kalloc`, with the tries left. -/
def kallocLoop (k : Kernel) : Nat → Nat → Option Nat × Kernel
  | 0, _ => (none, k)
  | tries + 1, pageno =>
    let pa := pageno * PAGESIZE
    if allocatablePhysicalAddress L pa = true ∧ k.physpages pageno = 0 then
      (some pa, (k.setRefcount pageno (k.physpages pageno + 1)).memset pa 0xCC PAGESIZE)
    else kallocLoop k tries ((pageno + 1) % NPAGES)

/-- `kalloc`; `none` is `nullptr`. -/
def kalloc (sz : Nat) (k : Kernel) : Option Nat × Kernel :=
  if sz > PAGESIZE then (none, k) else kallocLoop L k NPAGES 0

def kfree (kptr : Nat) (k : Kernel) : Kernel :=
  if kptr = 0 then k
  else if kptr % PAGESIZE ≠ 0 then k
  else if kptr ≥ MEMSIZE_PHYSICAL then k
  else if ¬ allocatablePhysicalAddress L kptr = true then k
  else
    let pageno := kptr / PAGESIZE
    if k.physpages pageno ≤ 0 then k
    else k.setRefcount pageno (k.physpages pageno - 1)

def kallocPagetable (k : Kernel) : Option Nat × Kernel :=
  match kalloc L PAGESIZE k with
  | (some pt, k) => (some pt, k.memset pt 0 PAGESIZE)
  | (none, k) => (none, k)

end

end SystemsProjects.WeensyOS
