/-
SystemsProjects.WeensyOS.MemViewer — k-memviewer.cc, and `memshow` of
kernel.cc: the picture of memory that the kernel draws on the console.

A `memusage` has a page of marks, one word for each physical page:
`refresh` walks all page tables and marks who uses the page, `symbol_at`
makes a character with colors of the mark. A `Picture` has the symbols in
the order in which they are drawn, with the errors that `page_error`
reported on the way; their places on the console, the headings and the
log are not modelled.
-/
import SystemsProjects.Base.FlagTable
import SystemsProjects.Base.Transfer
import SystemsProjects.WeensyOS.Kernel

namespace SystemsProjects.WeensyOS

open SystemsProjects.Base

/-! ## Iterators -/

/-- One past `VA_LOWMAX`. -/
abbrev VA_LOWEND : Nat := 0x0000800000000000

/-- `va_ & ~lbits_mask(lbits_)`. Once the iterator is done the mask is
shifted by 64, which the processor takes for a shift by 0. -/
def PtIter.va (it : PtIter) : Nat := it.va_ &&& lbitsUpper (it.lbits_ % 64)

def PtIter.pa (mem : ByteMem) (it : PtIter) : Nat := mem.read it.pep_ 8 &&& PTE_PAMASK

/-! ## Marks -/

/-- An error that `page_error` reports. -/
structure PageError where
  pa : Nat
  desc : String
  pid : Int
  deriving DecidableEq

structure MemUsage where
  /-- The page of marks; 0 is `nullptr`. -/
  v_ : Nat
  separate_tables_ : Bool
  deriving DecidableEq

namespace MemUsage

/-- Physical addresses below are marked. -/
abbrev maxpa : Nat := 1024 * PAGESIZE
abbrev max_view_pa : Nat := 512 * PAGESIZE
abbrev max_view_va : Nat := 768 * PAGESIZE

abbrev f_kernel : Nat := 1
abbrev f_user : Nat := 2
abbrev f_nonidentity : Nat := 4

/-- `f_process(pid)`, for memory associated with process `pid`; the shift
`4U << 31` leaves nothing. -/
def fProcess (pid : Int) : Nat :=
  if pid ≥ 29 then (4 <<< 31) % 2 ^ 32
  else if pid ≥ 1 then 4 <<< pid.toNat
  else 0

/-- Add `flags` to the page that contains `pa`. -/
def mark (v_ pa flags : Nat) (k : Kernel) : Kernel :=
  if pa < maxpa then { k with mem := k.mem.setFlags v_ (pa / PAGESIZE) flags } else k

def lsb (x : Nat) : Nat := ffs 32 x

/-- One of the processes set in a mark. -/
def markedPid (v : Nat) : Nat := lsb (v >>> 3)

/-! ## `refresh` -/

/-- `for (ptiter it(...); more; it.next()) mark(it.pa(), flags)` from `it`
on, with the rounds left. -/
def markTablesLoop (v_ : Nat) (more : PtIter → Bool) (flags : Nat) :
    Nat → PtIter → Kernel → Except Fault Kernel
  | 0, _, _ => .error .diverged
  | rounds + 1, it, k =>
    if more it = true then do
      let k := mark v_ (it.pa k.mem) flags k
      let it ← it.next k.mem
      markTablesLoop v_ more flags rounds it k
    else .ok k

/-- `for (vmiter it(...); it.va() < VA_LOWEND; )` from `it` on, with the
rounds left: a page that has flags is marked with them and followed by
`next`, any other is followed by `next_range`. -/
def markPagesLoop (v_ : Nat) (flags : VmIter → Kernel → Option Nat) :
    Nat → VmIter → Kernel → Except Fault Kernel
  | 0, _, _ => .error .diverged
  | rounds + 1, it, k =>
    if it.va_ < VA_LOWEND then
      match flags it k with
      | some f => do
        let k := mark v_ (it.pa k.mem) f k
        let it ← it.next k.mem
        markPagesLoop v_ flags rounds it k
      | none => do
        let it ← it.nextRange k.mem
        markPagesLoop v_ flags rounds it k
    else .ok k

/-- The loop over all pages of a table. -/
def markPages (v_ : Nat) (flags : VmIter → Kernel → Option Nat) (pt : Nat) (k : Kernel) :
    Except Fault Kernel := do
  let it ← VmIter.new k.mem pt 0
  markPagesLoop v_ flags (VA_LOWEND / PAGESIZE + 1) it k

/-- The flags of a page that a process may access. -/
def processFlags (pidflag : Nat) (it : VmIter) (k : Kernel) : Option Nat :=
  if it.user k.mem = true then
    some (if it.va_ = it.pa k.mem then f_user ||| pidflag else f_user ||| f_nonidentity ||| pidflag)
  else none

/-- The flags of a page that is in use, by its address; `owner + 1` is
`unsigned` and becomes an `int`. -/
def ownerFlags (it : VmIter) (k : Kernel) : Option Nat :=
  if it.user k.mem = true ∧ it.pa k.mem < MEMSIZE_PHYSICAL ∧
      k.physpages (it.pa k.mem / PAGESIZE) ≠ 0 then
    let owner := (it.pa k.mem + 2 ^ 64 - PROC_START_ADDR) % 2 ^ 64 / 0x40000
    some (f_user ||| fProcess (toInt32 (owner + 1)))
  else none

section

variable (L : Layout)

/-- The pages of one process, if it has a page table of its own. -/
def markProcess (v_ : Nat) (s : Bool × Kernel) (pid : Nat) : Except Fault (Bool × Kernel) :=
  let (separate_tables_, k) := s
  let pidflag := fProcess pid
  let p := k.ptable pid
  if p.state ≠ .free ∧ p.pagetable ≠ 0 ∧ p.pagetable ≠ L.kernelPagetable then do
    let it ← PtIter.new k.mem p.pagetable
    let k ← markTablesLoop v_ (fun it => it.va < VA_LOWEND) (f_kernel ||| pidflag) tableRounds it k
    let k := mark v_ p.pagetable (f_kernel ||| pidflag) k
    let k ← markPages v_ (processFlags pidflag) p.pagetable k
    return (true, k)
  else .ok (separate_tables_, k)

/-- `v_`, allocated on first use. -/
def ensureMarks (mu : MemUsage) (k : Kernel) : Except Fault (Nat × Kernel) :=
  if mu.v_ = 0 then
    match kalloc L PAGESIZE k with
    | (none, _) => .error .assertion
    | (some v_, k) => .ok (v_, k)
  else .ok (mu.v_, k)

def refresh (mu : MemUsage) (k : Kernel) : Except Fault (MemUsage × Kernel) := do
  let (v_, k) ← ensureMarks L mu k
  let k := k.memset v_ 0 (maxpa / PAGESIZE * 4)
  let it ← PtIter.new k.mem L.kernelPagetable
  let k ← markTablesLoop v_ (fun it => !it.done) f_kernel tableRounds it k
  let k := mark v_ L.kernelPagetable f_kernel k
  let k := mark v_ v_ f_kernel k
  let (separate_tables_, k) ← (List.range' 1 (PID_MAX - 1)).foldlM (markProcess L v_) (false, k)
  let k ← if separate_tables_ = false then markPages v_ ownerFlags L.kernelPagetable k else pure k
  return ({ v_ := v_, separate_tables_ := separate_tables_ }, k)

/-! ## `symbol_at` -/

def colors : List Nat := [0xF, 0xC, 0xA, 0x9, 0xE]

def names : List Char := "K123456789ABCDEFGHIJKLMNOPQRST??".toList

/-- The symbol of a page that a process uses. -/
def processSymbol (v : Nat) : Nat :=
  let pid := markedPid v
  let ch := colors.getD (pid % 5) 0 <<< 8
  if v &&& f_kernel ≠ 0 then
    -- kernel page: dark red background
    0x4000 ||| (if ch = 0x0C00 then 0x0F00 else ch)
  else ch

/-- The end of `symbol_at`, for a page with `refs` references that the
kernel hands out, of its mark. -/
def markSymbol (separate_tables_ : Bool) (refs pa v : Nat) : List PageError × Nat :=
  let pid := markedPid v
  -- `v & ~f_nonidentity`
  let vx := v &&& (2 ^ 32 - 1 - f_nonidentity)
  if vx = 0 then
    -- a leaked page is used but not referenced by anything we know
    if refs ≠ 0 then ([], 'L'.toNat ||| 0x0300) else ([], '.'.toNat ||| 0x0700)
  else if vx = f_kernel then ([], 'K'.toNat ||| 0x0D00)
  else if vx = f_user then ([], '.'.toNat ||| 0x0700)
  else if v &&& f_kernel ≠ 0 ∧ v &&& f_user ≠ 0 ∧ separate_tables_ = true then
    ([⟨pa, "kernel allocated page mapped for user", pid⟩], '*'.toNat ||| 0xF400)
  else
    let ch := processSymbol v
    -- a page that is referenced but marked as free, unless identity-mapped
    let dangling := refs = 0 ∧ v &&& f_nonidentity ≠ 0
    let errors := if dangling then [⟨pa, "freed page mapped for user", pid⟩] else []
    let ch := if dangling then ch ||| 0xF000 else ch
    if v > fProcess pid ||| f_kernel ||| f_user ||| f_nonidentity then
      (errors, 'S'.toNat ||| 0x0F00)
    else (errors, ch ||| (names.getD pid (Char.ofNat 0)).toNat)

/-- `symbol_at`: the errors it reports, and the symbol. -/
def symbolAt (mu : MemUsage) (k : Kernel) (pa : Nat) : List PageError × Nat :=
  let is_reserved := reservedPhysicalAddress pa
  let is_kernel := !is_reserved && !allocatablePhysicalAddress L pa
  let pn := pa / PAGESIZE % 2 ^ 32
  let invalid :=
    if pn < NPAGES ∧ ¬ k.physpages pn ≤ PID_MAX then [⟨pa, "invalid reference count", -1⟩] else []
  if pa ≥ maxpa then
    if is_kernel = true then (invalid, 'K'.toNat ||| 0x4000)
    else if is_reserved = true then (invalid, '?'.toNat ||| 0x4000)
    else (invalid, '?'.toNat ||| 0xF000)
  else
    let v := k.mem.read (mu.v_ + 4 * pn) 4
    let pid := markedPid v
    if pa ≥ CONSOLE_ADDR ∧ pa < CONSOLE_ADDR + PAGESIZE then (invalid, 'C'.toNat ||| 0x0700)
    else if is_reserved = true ∧ pid ≠ 0 then
      let desc :=
        if pa = 0 then "nullptr physical page mapped for user"
        else "reserved physical page mapped for user"
      (invalid ++ [⟨pa, desc, pid⟩], 'R'.toNat ||| 0x0C00)
    else if is_reserved = true then (invalid, 'R'.toNat ||| 0x0700)
    else if is_kernel = true ∧ pid ≠ 0 ∧ mu.separate_tables_ = true then
      (invalid ++ [⟨pa, "kernel data page mapped for user", pid⟩], 'K'.toNat ||| 0xCD00)
    else if is_kernel = true then (invalid, 'K'.toNat ||| 0x0D00)
    else if pa ≥ MEMSIZE_PHYSICAL then (invalid, ' '.toNat ||| 0x0700)
    else
      let (errors, ch) := markSymbol mu.separate_tables_ (k.physpages pn) pa v
      (invalid ++ errors, ch)

end

end MemUsage

/-! ## The picture -/

section

variable (L : Layout)

/-- Foreground and background colors switched, as for a page that the
process may access. -/
def userSymbol (ch : Nat) : Nat :=
  if ch = (0x0F00 ||| 'S'.toNat) then ch ^^^ 0xFE00
  else
    let z := (ch &&& 0x0F00) ^^^ ((ch &&& 0xF000) >>> 4)
    ch ^^^ (z ||| z <<< 4)

/-- The symbol of the page that an iterator is at. -/
def virtualSymbol (mu : MemUsage) (k : Kernel) (it : VmIter) : List PageError × Nat :=
  if ¬ it.present k.mem = true then ([], ' '.toNat)
  else
    let (errors, ch) := mu.symbolAt L k (it.pa k.mem)
    (errors, if it.user k.mem = true then userSymbol ch else ch)

/-- The loop of `console_memviewer_virtual`, with the rounds left. -/
def virtualLoop (mu : MemUsage) (k : Kernel) :
    Nat → VmIter → Except Fault (List PageError × List Nat)
  | 0, _ => .error .diverged
  | rounds + 1, it =>
    if it.va_ < MemUsage.max_view_va then do
      let (errors, ch) := virtualSymbol L mu k it
      let it ← it.advance k.mem PAGESIZE
      let (errors', symbols) ← virtualLoop mu k rounds it
      return (errors ++ errors', ch :: symbols)
    else return ([], [])

/-- `console_memviewer_virtual`, for process `pid`. -/
def consoleMemviewerVirtual (mu : MemUsage) (k : Kernel) (pid : Nat) :
    Except Fault (List PageError × List Nat) := do
  assert ((k.ptable pid).pagetable ≠ 0)
  let it ← VmIter.new k.mem (k.ptable pid).pagetable 0
  virtualLoop L mu k (MemUsage.max_view_va / PAGESIZE + 1) it

/-- What is drawn: physical memory, and the virtual memory of a process
if there is one. -/
structure Picture where
  errors : List PageError
  physical : List Nat
  process : Option Nat
  virtual : List Nat

/-- `console_memviewer`; its static `mu` is passed along. -/
def consoleMemviewer (vmp : Option Nat) (mu : MemUsage) (k : Kernel) :
    Except Fault (Picture × MemUsage × Kernel) := do
  assert ((k.ptable 0).state = .free)
  let (mu, k) ← mu.refresh L k
  let physical := (List.range (MemUsage.max_view_pa / PAGESIZE)).map fun pn =>
    mu.symbolAt L k (pn * PAGESIZE)
  let (errors, virtual) ← match vmp with
    | none => pure ([], [])
    | some pid => consoleMemviewerVirtual L mu k pid
  return ({ errors := physical.flatMap Prod.fst ++ errors, physical := physical.map Prod.snd,
            process := vmp, virtual := virtual }, mu, k)

/-- The static variables of `console_memviewer` and `memshow`. -/
structure Viewer where
  mu : MemUsage
  last_ticks : Nat
  showing : Nat

/-- The viewer before it is first called. -/
def Viewer.initial : Viewer :=
  { mu := { v_ := 0, separate_tables_ := false }, last_ticks := 0, showing := 0 }

abbrev HZ : Nat := 100

/-- The search of `memshow` for a process to show, with the tries left:
the process, and where `showing` is left. -/
def searchShown (k : Kernel) : Nat → Nat → Option Nat × Nat
  | 0, showing => (none, showing)
  | tries + 1, showing =>
    if (k.ptable showing).state ≠ .free ∧ (k.ptable showing).pagetable ≠ 0 then
      (some showing, showing)
    else searchShown k tries ((showing + 1) % PID_MAX)

/-- `memshow`; `last_ticks` is 32 bits wide, `ticks` has 64. -/
def memshow (ticks : UInt64) (vw : Viewer) (k : Kernel) :
    Except Fault (Picture × Viewer × Kernel) := do
  let due := vw.last_ticks = 0 ∨ (ticks.toNat + 2 ^ 64 - vw.last_ticks) % 2 ^ 64 ≥ HZ / 2
  let last_ticks := if due then ticks.toNat % 2 ^ 32 else vw.last_ticks
  let showing := if due then (vw.showing + 1) % PID_MAX else vw.showing
  let (p, showing) := searchShown k PID_MAX showing
  let (picture, mu, k) ← consoleMemviewer L p vw.mu k
  return (picture, { mu := mu, last_ticks := last_ticks, showing := showing }, k)

/-! ## Steps with the viewer -/

/-- The registers that an event saves. -/
def eventRegs : Event → Kernel → Kernel
  | .store _ _, k => k
  | .syscall regs, k => saveRegs regs k
  | .exception regs, k => saveRegs regs k

/-- The kernel calls `memshow` on every system call, and on every exception
but its own page faults. -/
def shows : Event → Bool
  | .store _ _ => false
  | .syscall _ => true
  | .exception regs => regs.intno ≠ INT_PF || regs.errcode &&& PTE_U ≠ 0

/-- One step, with the call of `memshow` that comes once the registers are
saved; the rest of the step saves the same registers again. -/
def stepShown (ticks : UInt64) (e : Event) (vw : Viewer) (k : Kernel) :
    Except Fault (Option Picture × Viewer × Kernel) := do
  let (picture, vw, k) ←
    if shows e = true then do
      let (picture, vw, k) ← memshow L ticks vw (eventRegs e k)
      pure (some picture, vw, k)
    else pure (none, vw, k)
  let k ← step L e k
  return (picture, vw, k)

end

end SystemsProjects.WeensyOS
