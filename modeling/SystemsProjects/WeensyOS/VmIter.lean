/-
SystemsProjects.WeensyOS.VmIter — k-vmiter.hh and k-vmiter.cc: `vmiter`,
which looks virtual addresses up and installs mappings, and `ptiter`,
which visits the pages of a page table.

The members keep their names, underscore included. `pep_` is the address
of a page-table entry, or `none` where it points to the constant
`zero_pe`. The loops of `down` and `try_map` go down at least one level
each round, so `lbits_` bounds their number of rounds.
-/
import SystemsProjects.WeensyOS.Memory

namespace SystemsProjects.WeensyOS

open SystemsProjects.Base

def vaIsCanonical (va : Nat) : Bool := va ≤ VA_LOWMAX || VA_HIGHMIN ≤ va

/-- `~(~0 << lbits)`. -/
def lbitsMask (lbits : Nat) : Nat := 2 ^ lbits - 1

/-- `~0 << lbits`, in 64 bits. -/
def lbitsUpper (lbits : Nat) : Nat := 2 ^ 64 - 2 ^ lbits

/-- The index `(va >> lbits) & 0x1FF` of an entry in its page. -/
def entryIndex (va lbits : Nat) : Nat := va >>> lbits &&& 0x1FF

/-- `&pt->entry[i]`. -/
def entryAddr (pt i : Nat) : Nat := pt + 8 * i

/-! ## `vmiter` -/

structure VmIter where
  pt_ : Nat
  pep_ : Option Nat
  lbits_ : Nat
  perm_ : Nat
  va_ : Nat

namespace VmIter

abbrev initial_lbits : Nat := PAGEOFFBITS + 3 * PAGEINDEXBITS
abbrev noncanonical_lbits : Nat := 47
abbrev done_lbits : Nat := 64
abbrev initial_perm : Nat := 0xFFF

/-- `*pep_`. -/
def pe (mem : ByteMem) (it : VmIter) : Nat :=
  match it.pep_ with
  | none => 0
  | some pep => mem.read pep 8

/-- The loop of `down`, with the rounds left. -/
def downLoop (mem : ByteMem) : Nat → VmIter → VmIter
  | 0, it => it
  | rounds + 1, it =>
    let pe := it.pe mem
    if it.lbits_ > PAGEOFFBITS ∧ pe &&& (PTE_P ||| PTE_PS) = PTE_P then
      let lbits := it.lbits_ - PAGEINDEXBITS
      downLoop mem rounds
        { it with
          -- `*pep_ | ~(PTE_P | PTE_W | PTE_U)`
          perm_ := it.perm_ &&& (pe ||| (2 ^ 64 - 1 - (PTE_P ||| PTE_W ||| PTE_U)))
          lbits_ := lbits
          pep_ := some (entryAddr (pe &&& PTE_PAMASK) (entryIndex it.va_ lbits)) }
    else it

def down (mem : ByteMem) (it : VmIter) : Except Fault VmIter :=
  let it := downLoop mem it.lbits_ it
  if it.pe mem &&& PTE_PAMASK ≥ 0x100000000 ∧ it.lbits_ < PAGEOFFBITS + 2 * PAGEINDEXBITS then
    .error .panic
  else .ok it

def realFind (mem : ByteMem) (va : Nat) (stepping : Bool) (it : VmIter) : Except Fault VmIter :=
  let it :=
    if stepping = true ∧ va = 0 then
      { it with lbits_ := done_lbits, perm_ := 0, pep_ := none }
    else if it.lbits_ < initial_lbits ∧
        (it.va_ ^^^ va) &&& lbitsUpper (it.lbits_ + PAGEINDEXBITS) = 0 then
      -- stepping to next entry in current page table level
      { it with
        pep_ := it.pep_.map fun pep =>
          let curidx := (pep % PAGESIZE) >>> 3
          pep + 8 * entryIndex va it.lbits_ - 8 * curidx }
    else if ¬ vaIsCanonical va = true then
      { it with lbits_ := noncanonical_lbits, perm_ := 0, pep_ := none }
    else
      { it with
        lbits_ := initial_lbits
        perm_ := initial_perm
        pep_ := some (entryAddr it.pt_ (entryIndex va initial_lbits)) }
  down mem { it with va_ := va }

/-- The constructor `vmiter(pt, va)`. -/
def new (mem : ByteMem) (pt va : Nat) : Except Fault VmIter :=
  realFind mem va false
    { pt_ := pt, pep_ := some (entryAddr pt 0), lbits_ := initial_lbits, perm_ := initial_perm,
      va_ := 0 }

def pa (mem : ByteMem) (it : VmIter) : Nat :=
  if it.pe mem &&& PTE_P ≠ 0 then
    let pa := it.pe mem &&& PTE_PAMASK
    let pa := if it.lbits_ > PAGEOFFBITS then pa &&& (2 ^ 64 - 1 - 0x1000) else pa
    pa + (it.va_ &&& lbitsMask it.lbits_)
  else 2 ^ 64 - 1

/-- `perm()`: `ph & -(ph & PTE_P)`, with the mask all ones or zero. -/
def perm (mem : ByteMem) (it : VmIter) : Nat :=
  let ph := it.pe mem &&& it.perm_
  ph &&& ((2 ^ 64 - (ph &&& PTE_P)) % 2 ^ 64)

/-- `perm(desired_perm)`. -/
def hasPerm (mem : ByteMem) (it : VmIter) (desired_perm : Nat) : Bool :=
  it.perm mem &&& desired_perm = desired_perm

def present (mem : ByteMem) (it : VmIter) : Bool := it.hasPerm mem PTE_P

def writable (mem : ByteMem) (it : VmIter) : Bool := it.hasPerm mem (PTE_P ||| PTE_W)

def user (mem : ByteMem) (it : VmIter) : Bool := it.hasPerm mem (PTE_P ||| PTE_U)

def find (mem : ByteMem) (va : Nat) (it : VmIter) : Except Fault VmIter :=
  if va ≠ it.va_ then realFind mem va false it else .ok it

/-- `operator+=`, for a forward move. -/
def advance (mem : ByteMem) (delta : Nat) (it : VmIter) : Except Fault VmIter :=
  find mem ((it.va_ + delta) % 2 ^ 64) it

/-- `va + delta`, in 64 bits. -/
def vaPlus (va : Nat) (delta : Int) : Nat := ((va + delta) % ((2 ^ 64 : Nat) : Int)).toNat

/-- `operator+=`. -/
def add (mem : ByteMem) (delta : Int) (it : VmIter) : Except Fault VmIter :=
  find mem (vaPlus it.va_ delta) it

/-- `operator-=`. -/
def sub (mem : ByteMem) (delta : Int) (it : VmIter) : Except Fault VmIter :=
  find mem (vaPlus it.va_ (-delta)) it

def done (it : VmIter) : Bool := it.lbits_ = done_lbits

def lastVa (it : VmIter) : Nat :=
  if it.lbits_ = noncanonical_lbits then VA_HIGHMIN
  else ((it.va_ ||| lbitsMask it.lbits_) + 1) % 2 ^ 64

def rangeSize (it : VmIter) : Nat := (it.lastVa + 2 ^ 64 - it.va_) % 2 ^ 64

def next (mem : ByteMem) (it : VmIter) : Except Fault VmIter :=
  let lbits := if it.lbits_ > PAGEOFFBITS ∧ it.perm mem = 0 then it.lbits_ else PAGEOFFBITS
  realFind mem (((it.va_ ||| lbitsMask lbits) + 1) % 2 ^ 64) true it

def nextRange (mem : ByteMem) (it : VmIter) : Except Fault VmIter :=
  realFind mem it.lastVa true it

/-- `*pep_ = e`. -/
def setPe (e : Nat) (it : VmIter) (k : Kernel) : Except Fault Kernel :=
  match it.pep_ with
  | none => .error .badAccess
  | some pep => .ok { k with mem := k.mem.write pep 8 e }

section

variable (L : Layout)

/-- The loop of `try_map`, with the rounds left: -1 if a page-table page
cannot be allocated, otherwise 0. -/
def tryMapLoop (perm : Nat) : Nat → VmIter → Kernel → Except Fault (Int × VmIter × Kernel)
  | 0, _, _ => .error .diverged
  | rounds + 1, it, k =>
    if it.lbits_ > PAGEOFFBITS ∧ perm ≠ 0 then do
      assert (it.pe k.mem &&& PTE_P = 0)
      match kalloc L PAGESIZE k with
      | (none, k) => .ok (-1, it, k)
      | (some pt, k) =>
        let k := k.memset pt 0 PAGESIZE
        let k ← it.setPe (pt ||| PTE_P ||| PTE_W ||| PTE_U) k
        let it ← it.down k.mem
        tryMapLoop perm rounds it k
    else .ok (0, it, k)

def tryMap (pa perm : Nat) (it : VmIter) (k : Kernel) : Except Fault (Int × VmIter × Kernel) := do
  let pa := if pa = 2 ^ 64 - 1 ∧ perm = 0 then 0 else pa
  assert (it.va_ % PAGESIZE = 0)
  if perm &&& PTE_P ≠ 0 then
    assert (pa ≠ 2 ^ 64 - 1)
    assert (pa &&& PTE_PAMASK = pa)
  else
    assert (pa &&& PTE_P = 0)
  assert (perm &&& (2 ^ 64 - 1 - it.perm_) &&& (PTE_P ||| PTE_W ||| PTE_U) = 0)
  let (r, it, k) ← tryMapLoop L perm it.lbits_ it k
  if r < 0 then
    return (r, it, k)
  if it.lbits_ = PAGEOFFBITS then
    let k ← it.setPe (pa ||| perm) k
    return (0, it, k)
  return (0, it, k)

def map (pa perm : Nat) (it : VmIter) (k : Kernel) : Except Fault (VmIter × Kernel) := do
  let (r, it, k) ← tryMap L pa perm it k
  assert (r = 0)
  return (it, k)

end

end VmIter

/-! ## `ptiter` -/

structure PtIter where
  pt_ : Nat
  pep_ : Nat
  lbits_ : Nat
  va_ : Nat

namespace PtIter

open VmIter (initial_lbits done_lbits)

/-- The loop of `down`, with the rounds left. -/
def downLoop (mem : ByteMem) : Nat → Nat → Bool → PtIter → Except Fault PtIter
  | 0, _, _, _ => .error .diverged
  | rounds + 1, stop_lbits, skip, it =>
    if it.lbits_ < done_lbits then
      let pe := mem.read it.pep_ 8
      if skip = false ∧ pe &&& (PTE_P ||| PTE_PS) = PTE_P then
        if it.lbits_ = stop_lbits then .ok it
        else
          let lbits := it.lbits_ - PAGEINDEXBITS
          downLoop mem rounds stop_lbits skip
            { it with
              lbits_ := lbits
              pep_ := entryAddr (pe &&& PTE_PAMASK) (entryIndex it.va_ lbits) }
      else
        let va := ((it.va_ ||| lbitsMask it.lbits_) + 1) % 2 ^ 64
        if (va ^^^ it.va_) &&& lbitsUpper (it.lbits_ + PAGEINDEXBITS) ≠ 0 then
          -- up one level
          if va = 0 ∧ it.lbits_ = initial_lbits then .ok { it with lbits_ := done_lbits }
          else
            downLoop mem rounds (it.lbits_ + PAGEINDEXBITS) false
              { it with
                lbits_ := initial_lbits
                pep_ := entryAddr it.pt_ (entryIndex it.va_ initial_lbits) }
        else
          downLoop mem rounds stop_lbits false
            { it with
              pep_ := it.pep_ + 8
              va_ := if vaIsCanonical va = true then va else VA_HIGHMIN }
    else .ok it

/-- The rounds `down` may take: it leaves at most three pages' entries
behind before it stops. -/
def downRounds : Nat := 4 * 512

def down (mem : ByteMem) (skip : Bool) (it : PtIter) : Except Fault PtIter :=
  downLoop mem downRounds (PAGEOFFBITS + PAGEINDEXBITS) skip it

/-- The constructor `ptiter(pt)`. -/
def new (mem : ByteMem) (pt : Nat) : Except Fault PtIter :=
  down mem false { pt_ := pt, pep_ := entryAddr pt 0, lbits_ := initial_lbits, va_ := 0 }

def done (it : PtIter) : Bool := it.lbits_ = done_lbits

def kptr (mem : ByteMem) (it : PtIter) : Nat := mem.read it.pep_ 8 &&& PTE_PAMASK

def next (mem : ByteMem) (it : PtIter) : Except Fault PtIter := down mem true it

end PtIter

end SystemsProjects.WeensyOS
