/-
SystemsProjects.WeensyOS.PageSymbols — what the symbols of the memory
viewer say.

`PageUse` has the uses of a physical page, each with its symbol, and
`Uses` says which one a page has. The mark of a page tells the users of
the page apart: a process is a bit, so `symbol_at` finds the only user, or
that there are several (`markSymbol_one`, `markSymbol_many`). Over marks
that are up to date `symbol_at` gives the symbol of the page's use, and
reports no error (`Marked.symbolAt`); a page has one use only
(`Uses.unique`).
-/
import SystemsProjects.WeensyOS.Marks

namespace SystemsProjects.WeensyOS

open SystemsProjects.Base
open SystemsProjects.Base.RadixTree

/-! ## Uses -/

/-- What a physical page is used for. -/
inductive PageUse where
  | console
  | reserved
  /-- Code, data, or the page of marks. -/
  | kernel
  | free
  /-- Allocated, but held by nobody. -/
  | leaked
  /-- A page-table page of a process. -/
  | table (pid : Nat)
  /-- Mapped by one process. -/
  | user (pid : Nat)
  /-- Mapped by several. -/
  | shared

/-- The color of a process. -/
def processColor (pid : Nat) : Nat := MemUsage.colors.getD (pid % 5) 0 <<< 8

def processName (pid : Nat) : Nat := (MemUsage.names.getD pid (Char.ofNat 0)).toNat

/-- The symbol for a use. -/
def PageUse.symbol : PageUse → Nat
  | .console => 'C'.toNat ||| 0x0700
  | .reserved => 'R'.toNat ||| 0x0700
  | .kernel => 'K'.toNat ||| 0x0D00
  | .free => '.'.toNat ||| 0x0700
  | .leaked => 'L'.toNat ||| 0x0300
  | .table pid =>
    (0x4000 ||| if processColor pid = 0x0C00 then 0x0F00 else processColor pid) ||| processName pid
  | .user pid => processColor pid ||| processName pid
  | .shared => 'S'.toNat ||| 0x0F00

/-- Process `pid` may access the page at `p`. -/
def MapsPage (k : Kernel) (pid p : Nat) : Prop :=
  Live k pid ∧ ∃ vpn w, InUserRange vpn ∧ leaf k.mem (k.root pid) vpn = frameEntry p w

/-- The uses of the page at `p`, where the page of marks is at `v`. -/
inductive Uses (L : Layout) (k : Kernel) (v p : Nat) : PageUse → Prop where
  | console (h : p = CONSOLE_ADDR) : Uses L k v p .console
  | reserved (hne : p ≠ CONSOLE_ADDR) (h : reservedPhysicalAddress p = true) :
    Uses L k v p .reserved
  | image (hr : reservedPhysicalAddress p = false) (h : allocatablePhysicalAddress L p = false) :
    Uses L k v p .kernel
  | marks (h : p = v) : Uses L k v p .kernel
  | free (h : Free L k p) : Uses L k v p .free
  | leaked (hp : IsPage L p) (hne : p ≠ v) (hpos : 0 < k.refs p)
      (h : ∀ pid, Live k pid → holds k.mem (k.root pid) p = 0) : Uses L k v p .leaked
  | table {pid : Nat} (hlive : Live k pid) (h : IsTable k.mem (k.root pid) p) :
    Uses L k v p (.table pid)
  | user {pid : Nat} (hp : IsPage L p) (h : MapsPage k pid p)
      (hone : ∀ i, MapsPage k i p → i = pid) : Uses L k v p (.user pid)
  | shared {pid pid' : Nat} (hp : IsPage L p) (h : MapsPage k pid p) (h' : MapsPage k pid' p)
      (hne : pid ≠ pid') : Uses L k v p .shared

/-! ## A mark -/

namespace MemUsage

section

variable {L : Layout} {k : Kernel} {v p pid pid' w b refs n : Nat}

theorem testBit_flag {i : Nat} : (2 ^ i).testBit b = true ↔ b = i := by
  rw [Nat.testBit_two_pow, decide_eq_true_eq, eq_comm]

theorem testBit_fProcess (h1 : 1 ≤ pid) (h2 : pid < PID_MAX) :
    (fProcess pid).testBit b = true ↔ b = pid + 2 := by
  have h2 : pid < 16 := h2
  have hpow : fProcess pid = 2 ^ (pid + 2) := by
    rw [fProcess, if_neg (by omega), if_pos (by omega), Int.toNat_natCast, Nat.shiftLeft_eq,
      Nat.pow_add, Nat.mul_comm]
  rw [hpow, testBit_flag]

/-- The process of the lowest bit. -/
theorem markedPid_eq (h1 : 1 ≤ pid) (h2 : pid < PID_MAX) (hset : w.testBit (pid + 2) = true)
    (hlow : ∀ i, 1 ≤ i → i < pid → w.testBit (i + 2) = false) : markedPid w = pid := by
  have h2 : pid < 16 := h2
  have hffs := ffs_of_lowest (w := 32) (x := w >>> 3) (i := pid - 1) (by omega)
    (by rw [Nat.testBit_shiftRight, show 3 + (pid - 1) = pid + 2 by omega]; exact hset)
    (fun j hj => by
      rw [Nat.testBit_shiftRight, show 3 + j = j + 1 + 2 by omega]
      exact hlow (j + 1) (by omega) (by omega))
  rw [markedPid, lsb, hffs]
  omega

theorem markedPid_zero (h : ∀ i, 1 ≤ i → w.testBit (i + 2) = false) : markedPid w = 0 := by
  refine ffs_of_zero fun i _ => ?_
  rw [Nat.testBit_shiftRight, show 3 + i = i + 1 + 2 by omega]
  exact h (i + 1) (by omega)

theorem and_flag (i : Nat) : w &&& 2 ^ i ≠ 0 ↔ w.testBit i = true := by
  rw [Nat.and_two_pow]
  cases w.testBit i <;> simp

/-- A mark with a process in it. -/
theorem markSymbol_process (h1 : 1 ≤ pid) (h2 : pid < PID_MAX)
    (hset : w.testBit (pid + 2) = true)
    (hlow : ∀ i, 1 ≤ i → i < pid → w.testBit (i + 2) = false)
    (hnot : ¬ (w.testBit 0 = true ∧ w.testBit 1 = true)) (hrefs : 0 < refs) :
    markSymbol true refs p w =
      ([], if w > fProcess pid ||| f_kernel ||| f_user ||| f_nonidentity then 'S'.toNat ||| 0x0F00
        else processSymbol w ||| processName pid) := by
  have hmarked := markedPid_eq h1 h2 hset hlow
  have h2 : pid < 16 := h2
  have hbig : 8 ≤ w &&& (2 ^ 32 - 1 - f_nonidentity) := by
    have hbit : (w &&& (2 ^ 32 - 1 - f_nonidentity)).testBit (pid + 2) = true := by
      rw [Nat.testBit_and, hset, Bool.true_and]
      interval_cases pid <;> decide
    refine Nat.le_trans ?_ (Nat.ge_two_pow_of_testBit hbit)
    exact Nat.pow_le_pow_right Nat.two_pos (show 3 ≤ pid + 2 by omega)
  have hboth : ¬ (w &&& f_kernel ≠ 0 ∧ w &&& f_user ≠ 0 ∧ true = true) := by
    rintro ⟨hk, hu, -⟩
    exact hnot ⟨(and_flag 0).mp hk, (and_flag 1).mp hu⟩
  have hdangling : ¬ (refs = 0 ∧ w &&& f_nonidentity ≠ 0) := fun h => by omega
  rw [markSymbol, hmarked]
  generalize w &&& (2 ^ 32 - 1 - f_nonidentity) = vx at hbig ⊢
  dsimp only
  rw [if_neg (show ¬ vx = 0 by omega), if_neg (show ¬ vx = 1 by omega),
    if_neg (show ¬ vx = 2 by omega), if_neg hboth, if_neg hdangling, if_neg hdangling]
  split <;> rfl

/-- **One user.** -/
theorem markSymbol_one (h1 : 1 ≤ pid) (h2 : pid < PID_MAX)
    (hone : ∀ i, 1 ≤ i → (w.testBit (i + 2) = true ↔ i = pid))
    (hnot : ¬ (w.testBit 0 = true ∧ w.testBit 1 = true)) (hrefs : 0 < refs) :
    markSymbol true refs p w =
      ([], if w.testBit 0 = true then (PageUse.table pid).symbol
        else (PageUse.user pid).symbol) := by
  have hset := (hone pid h1).mpr rfl
  have hlow : ∀ i, 1 ≤ i → i < pid → w.testBit (i + 2) = false := by
    intro i hi hlt
    rw [Bool.eq_false_iff]
    exact fun h => absurd ((hone i hi).mp h) (Nat.ne_of_lt hlt)
  have hmarked := markedPid_eq h1 h2 hset hlow
  have hle : ¬ w > fProcess pid ||| f_kernel ||| f_user ||| f_nonidentity := by
    refine Nat.not_lt_of_le (Nat.le_of_testBit fun b hb => ?_)
    rw [Nat.testBit_or, Nat.testBit_or, Nat.testBit_or]
    by_cases hlt : b < 3
    · have hcases : b = 0 ∨ b = 1 ∨ b = 2 := by omega
      rcases hcases with rfl | rfl | rfl <;> simp [f_kernel, f_user, f_nonidentity, Nat.testBit]
    · have heq := (hone (b - 2) (by omega)).mp (by rw [show b - 2 + 2 = b by omega]; exact hb)
      have hpid := (testBit_fProcess (b := b) h1 h2).mpr (by omega)
      rw [hpid]
      rfl
  rw [markSymbol_process h1 h2 hset hlow hnot hrefs, if_neg hle, processSymbol, hmarked]
  by_cases hk : w.testBit 0 = true
  · rw [if_pos hk, if_pos (show w &&& f_kernel ≠ 0 from (and_flag 0).mpr hk)]
    rfl
  · rw [if_neg hk, if_neg (show ¬ w &&& f_kernel ≠ 0 from mt (and_flag 0).mp hk)]
    rfl

/-- **Several users.** -/
theorem markSymbol_many (h1 : 1 ≤ pid) (hlt : pid < pid') (h2 : pid' < PID_MAX)
    (hset : w.testBit (pid + 2) = true) (hset' : w.testBit (pid' + 2) = true)
    (hlow : ∀ i, 1 ≤ i → i < pid → w.testBit (i + 2) = false)
    (hnot : ¬ (w.testBit 0 = true ∧ w.testBit 1 = true)) (hrefs : 0 < refs) :
    markSymbol true refs p w = ([], PageUse.shared.symbol) := by
  have hpid : pid < PID_MAX := hlt.trans h2
  have hgt : w > fProcess pid ||| f_kernel ||| f_user ||| f_nonidentity := by
    have hflags : fProcess pid < 2 ^ (pid + 3) := by
      refine Nat.lt_pow_two_of_testBit _ fun b hb => ?_
      rw [Bool.eq_false_iff]
      intro h
      have := (testBit_fProcess h1 hpid).mp h
      omega
    have hsmall : ∀ f, f < 8 → f < 2 ^ (pid + 3) := fun f hf =>
      Nat.lt_of_lt_of_le hf (Nat.pow_le_pow_right Nat.two_pos (show 3 ≤ pid + 3 by omega))
    have hor := Nat.or_lt_two_pow (Nat.or_lt_two_pow (Nat.or_lt_two_pow hflags
      (hsmall f_kernel (by decide))) (hsmall f_user (by decide))) (hsmall f_nonidentity (by decide))
    have hle := Nat.pow_le_pow_right Nat.two_pos (show pid + 3 ≤ pid' + 2 by omega)
    exact Nat.lt_of_lt_of_le hor (Nat.le_trans hle (Nat.ge_two_pow_of_testBit hset'))
  rw [markSymbol_process h1 hpid hset hlow hnot hrefs, if_pos hgt]
  rfl

theorem testBit_tableFlags (h1 : 1 ≤ pid) (h2 : pid < PID_MAX) :
    (f_kernel ||| fProcess pid).testBit b = true ↔ b = 0 ∨ b = pid + 2 := by
  rw [Nat.testBit_or, Bool.or_eq_true, testBit_fProcess h1 h2, show f_kernel = 2 ^ 0 from rfl,
    testBit_flag]

/-- The flag for mappings that are no identity is apart. -/
theorem testBit_pageFlags {e : Nat} (h1 : 1 ≤ pid) (h2 : pid < PID_MAX) (hb : b ≠ 2) :
    (pageFlags (fProcess pid) n e).testBit b = true ↔ b = 1 ∨ b = pid + 2 := by
  have huser : f_user.testBit b = true ↔ b = 1 := testBit_flag (i := 1)
  have hother : f_nonidentity.testBit b = false :=
    Bool.eq_false_iff.mpr fun hset => hb ((testBit_flag (i := 2)).mp hset)
  rw [pageFlags]
  split
  · rw [Nat.testBit_or, Bool.or_eq_true, huser, testBit_fProcess h1 h2]
  · rw [Nat.testBit_or, Nat.testBit_or, hother, Bool.or_false, Bool.or_eq_true, huser,
      testBit_fProcess h1 h2]

/-! ## The marks of a page -/

/-- The page-table page at `p`, by its number. -/
theorem exists_table {mem : ByteMem} {root : Nat} (ht : Tree mem root) (hal : p % 4096 = 0) :
    (∃ q, IsTable mem root q ∧ q / 4096 = p / 4096) ↔ IsTable mem root p := by
  constructor
  · rintro ⟨q, hq, hpage⟩
    rwa [(div_page_inj (ht.table_aligned hq) hal).mp hpage] at hq
  · exact fun h => ⟨p, h, rfl⟩

/-- The marks of a process for a page other than the console. -/
theorem pageMarks_iff {mem : ByteMem} {root f : Nat} (hs : Space L mem root) (hal : p % 4096 = 0)
    (hne : p ≠ CONSOLE_ADDR) :
    PageMarks f (leaf mem root) 0 (p / 4096) b ↔
      ∃ vpn w, IsPage L p ∧ InUserRange vpn ∧ leaf mem root vpn = frameEntry p w ∧
        (pageFlags f vpn (frameEntry p w)).testBit b = true := by
  constructor
  · rintro ⟨vpn, -, -, huser, hpage, hbit⟩
    rcases hs.entries vpn with hentry | ⟨hvpn, q, w, hq, hentry⟩
    · rw [hentry] at huser hpage
      rw [kernelEntry_user huser] at hpage
      have hconsole : 0xB8 = p / 4096 := hpage
      exact absurd (show p = 0xB8000 by omega) hne
    · rw [hentry] at hpage hbit
      rw [hq.frameEntry_and_pamask] at hpage
      obtain rfl := (div_page_inj hq.aligned hal).mp hpage
      exact ⟨vpn, w, hq, hvpn, hentry, hbit⟩
  · rintro ⟨vpn, w, hp, hvpn, hentry, hbit⟩
    have hlow : vpn < 2 ^ 35 := Nat.lt_trans hvpn.lt (by decide)
    refine ⟨vpn, Nat.zero_le vpn, hlow, ?_, ?_, ?_⟩
    · rw [hentry]
      exact userEntry_frameEntry hal w
    · rw [hentry, hp.frameEntry_and_pamask]
    · rwa [hentry]

end

end MemUsage

/-- The page of marks at `v` is up to date. -/
structure Marked (L : Layout) (k : Kernel) (v : Nat) : Prop where
  page : IsPage L v
  used : k.refs v = 1
  unheld : total k v = 0
  marks : k.mem.Flags v 1024 (MemUsage.Marks L k v)

section

variable {L : Layout} {k k' : Kernel} {v p pid w b : Nat}

/-- A process has a number from 1 on. -/
theorem Housed.pid_pos (h : Housed L k) (hlive : Live k pid) : 1 ≤ pid := by
  refine Nat.pos_of_ne_zero ?_
  rintro rfl
  exact h.first hlive

/-- A process that holds a page has it as a page-table page, or maps it. -/
theorem holds_cases (hinv : Inv L k) (hlive : Live k pid)
    (hpos : 0 < holds k.mem (k.root pid) p) :
    IsPage L p ∧ (IsTable k.mem (k.root pid) p ∨ MapsPage k pid p) := by
  have hspace := hinv.spaces pid hlive
  refine ⟨hspace.isPage_of_holds hpos, (holds_pos.mp hpos).imp_right ?_⟩
  rintro ⟨vpn, -, hne⟩
  obtain ⟨hvpn, -, w, hentry⟩ := hspace.frameRef_ne_zero hne
  exact ⟨hlive, vpn, w, hvpn, hentry⟩

theorem MapsPage.holds (h : MapsPage k pid p) (hp : IsPage L p) :
    0 < holds k.mem (k.root pid) p := by
  obtain ⟨-, vpn, w, hvpn, hentry⟩ := h
  exact holds_of_entry hvpn hp hentry

/-- A mapped page is nobody's page-table page. -/
theorem MapsPage.not_table {i : Nat} (h : MapsPage k pid p) (hinv : Inv L k) (hp : IsPage L p)
    (hlive : Live k i) : ¬ IsTable k.mem (k.root i) p := by
  obtain ⟨hlive', vpn, w, hvpn, hentry⟩ := h
  exact hinv.frame_not_table hlive' hlive hvpn hp hentry

/-- **The bits of a mark**, but for the flag apart. -/
theorem marks_iff (hinv : Inv L k) (hhoused : Housed L k) (hv : v % 4096 = 0)
    (hal : p % 4096 = 0) (hne : p ≠ CONSOLE_ADDR) (hb : b ≠ 2) :
    MemUsage.Marks L k v (p / 4096) b ↔
      (IsTable k.mem L.kernelPagetable p ∨ v = p) ∧ b = 0 ∨
        ∃ pid, Live k pid ∧ (IsTable k.mem (k.root pid) p ∧ (b = 0 ∨ b = pid + 2) ∨
          IsPage L p ∧ MapsPage k pid p ∧ (b = 1 ∨ b = pid + 2)) := by
  have hkernel : MemUsage.f_kernel.testBit b = true ↔ b = 0 := MemUsage.testBit_flag (i := 0)
  rw [MemUsage.Marks, MemUsage.exists_table hhoused.kernel.tree hal, div_page_inj hv hal, hkernel]
  refine or_congr_right (exists_congr fun pid => and_congr_right fun hlive => ?_)
  have hspace := hinv.spaces pid hlive
  have h1 := hhoused.pid_pos hlive
  rw [MemUsage.exists_table hspace.tree hal, MemUsage.testBit_tableFlags h1 hlive.1,
    MemUsage.pageMarks_iff hspace hal hne]
  refine or_congr_right ?_
  simp only [MemUsage.testBit_pageFlags h1 hlive.1 hb]
  constructor
  · rintro ⟨vpn, w, hp, hvpn, hentry, hbit⟩
    exact ⟨hp, ⟨hlive, vpn, w, hvpn, hentry⟩, hbit⟩
  · rintro ⟨hp, ⟨-, vpn, w, hvpn, hentry⟩, hbit⟩
    exact ⟨vpn, w, hp, hvpn, hentry, hbit⟩

end

/-! ## `symbol_at` -/

section

variable {L : Layout} {k : Kernel} {v p pid b : Nat}

/-- The mark of the page at `p`. -/
abbrev markAt (k : Kernel) (v p : Nat) : Nat := k.mem.read (v + 4 * (p / 4096)) 4

theorem Marked.bits (h : Marked L k v) (hinv : Inv L k) (hhoused : Housed L k)
    (hal : p % 4096 = 0) (hlow : p < MEMSIZE_PHYSICAL) (hne : p ≠ CONSOLE_ADDR) (hb : b ≠ 2) :
    (markAt k v p).testBit b = true ↔
      (IsTable k.mem L.kernelPagetable p ∨ v = p) ∧ b = 0 ∨
        ∃ pid, Live k pid ∧ (IsTable k.mem (k.root pid) p ∧ (b = 0 ∨ b = pid + 2) ∨
          IsPage L p ∧ MapsPage k pid p ∧ (b = 1 ∨ b = pid + 2)) := by
  have hlow : p < 0x200000 := hlow
  exact (h.marks (p / 4096) (by omega) b).trans
    (marks_iff hinv hhoused h.page.aligned hal hne hb)

/-- The processes of a mark. -/
theorem Marked.process (h : Marked L k v) (hinv : Inv L k) (hhoused : Housed L k)
    (hal : p % 4096 = 0) (hlow : p < MEMSIZE_PHYSICAL) (hne : p ≠ CONSOLE_ADDR) (h1 : 1 ≤ pid) :
    (markAt k v p).testBit (pid + 2) = true ↔
      Live k pid ∧ 0 < holds k.mem (k.root pid) p := by
  rw [h.bits hinv hhoused hal hlow hne (show pid + 2 ≠ 2 by omega)]
  constructor
  · rintro (⟨-, hzero⟩ | ⟨i, hlive, ⟨ht, hbit⟩ | ⟨hp, hmaps, hbit⟩⟩)
    · omega
    · obtain rfl : i = pid := by omega
      exact ⟨hlive, holds_pos.mpr (.inl ht)⟩
    · obtain rfl : i = pid := by omega
      exact ⟨hlive, hmaps.holds hp⟩
  · rintro ⟨hlive, hpos⟩
    obtain ⟨hp, hcases⟩ := holds_cases hinv hlive hpos
    exact .inr ⟨pid, hlive,
      hcases.imp (fun ht => ⟨ht, .inr rfl⟩) fun hmaps => ⟨hp, hmaps, .inr rfl⟩⟩

/-- The pages of the first part of `symbol_at`. -/
theorem symbolAt_low {mu : MemUsage} (hal : p % 4096 = 0) (hlow : p < MEMSIZE_PHYSICAL)
    (hcount : k.refs p ≤ PID_MAX) :
    mu.symbolAt L k p =
      if p = CONSOLE_ADDR then ([], PageUse.console.symbol)
      else if reservedPhysicalAddress p = true ∧ MemUsage.markedPid (markAt k mu.v_ p) ≠ 0 then
        ([⟨p, if p = 0 then "nullptr physical page mapped for user"
            else "reserved physical page mapped for user",
          MemUsage.markedPid (markAt k mu.v_ p)⟩], 'R'.toNat ||| 0x0C00)
      else if reservedPhysicalAddress p = true then ([], PageUse.reserved.symbol)
      else if allocatablePhysicalAddress L p = false ∧
          MemUsage.markedPid (markAt k mu.v_ p) ≠ 0 ∧ mu.separate_tables_ = true then
        ([⟨p, "kernel data page mapped for user", MemUsage.markedPid (markAt k mu.v_ p)⟩],
          'K'.toNat ||| 0xCD00)
      else if allocatablePhysicalAddress L p = false then ([], PageUse.kernel.symbol)
      else MemUsage.markSymbol mu.separate_tables_ (k.refs p) p (markAt k mu.v_ p) := by
  have hlow : p < 0x200000 := hlow
  have hpn : p / PAGESIZE % 2 ^ 32 = p / 4096 := Nat.mod_eq_of_lt (show p / 4096 < 2 ^ 32 by omega)
  have hvalid : ¬ (p / 4096 < NPAGES ∧ ¬ k.physpages (p / 4096) ≤ PID_MAX) :=
    fun hc => hc.2 hcount
  have hmax : ¬ p ≥ MemUsage.maxpa := Nat.not_le_of_lt (show p < 1024 * 4096 by omega)
  have hconsole : p ≥ CONSOLE_ADDR ∧ p < CONSOLE_ADDR + PAGESIZE ↔ p = CONSOLE_ADDR := by
    show p ≥ 0xB8000 ∧ p < 0xB8000 + 4096 ↔ p = 0xB8000
    omega
  have hmem : ¬ p ≥ MEMSIZE_PHYSICAL := Nat.not_le_of_lt hlow
  rw [MemUsage.symbolAt]
  simp only [hpn, if_neg hvalid, if_neg hmax, hconsole, if_neg hmem, List.nil_append]
  by_cases hr : reservedPhysicalAddress p = true
  · simp only [hr, Bool.not_true, Bool.false_and, true_and, if_true]
    rfl
  · rw [Bool.not_eq_true] at hr
    simp only [hr, Bool.not_false, Bool.true_and, Bool.false_eq_true, false_and, if_false,
      Bool.not_eq_true']
    rfl

/-- `v & ~f_nonidentity` leaves the flag out. -/
theorem and_identity {w c : Nat} (h : ∀ b, b ≠ 2 → w.testBit b = c.testBit b) :
    w &&& (2 ^ 32 - 1 - MemUsage.f_nonidentity) = c &&& (2 ^ 32 - 1 - MemUsage.f_nonidentity) := by
  have hclear : (2 ^ 32 - 1 - MemUsage.f_nonidentity).testBit 2 = false := by decide
  refine Nat.eq_of_testBit_eq fun b => ?_
  rw [Nat.testBit_and, Nat.testBit_and]
  by_cases hb : b = 2
  · rw [hb, hclear, Bool.and_false, Bool.and_false]
  · rw [h b hb]

/-- A page that only the kernel has marked. -/
theorem markSymbol_kernel {w refs : Nat} (hbits : ∀ b, b ≠ 2 → (w.testBit b = true ↔ b = 0)) :
    MemUsage.markSymbol true refs p w = ([], PageUse.kernel.symbol) := by
  have hvx := and_identity (w := w) (c := MemUsage.f_kernel) fun b hb => by
    rw [Bool.eq_iff_iff, hbits b hb]
    exact (MemUsage.testBit_flag (i := 0)).symm
  rw [MemUsage.markSymbol, hvx]
  rfl

/-- A page that nobody has marked. -/
theorem markSymbol_none {w refs : Nat} (hnone : ∀ b, b ≠ 2 → w.testBit b = false) :
    MemUsage.markSymbol true refs p w =
      ([], if refs ≠ 0 then PageUse.leaked.symbol else PageUse.free.symbol) := by
  have hvx := and_identity (w := w) (c := 0) fun b hb => by
    rw [hnone b hb, Nat.zero_testBit]
  rw [MemUsage.markSymbol, hvx, Nat.zero_and]
  dsimp only
  rw [if_pos rfl]
  split <;> rfl

/-- A page that the kernel hands out is neither the console nor
reserved. -/
theorem IsPage.handed_out (hp : IsPage L p) :
    p ≠ CONSOLE_ADDR ∧ reservedPhysicalAddress p = false := by
  have hallocatable := hp.2
  refine ⟨?_, ?_⟩
  · rintro rfl
    exact absurd hp.bounds.2.2.1 (by decide)
  · rw [Bool.eq_false_iff]
    intro hr
    rw [allocatablePhysicalAddress, hr] at hallocatable
    cases hallocatable

/-- The page of marks has no users. -/
theorem Marked.ne_of_held (h : Marked L k v) (hlive : Live k pid)
    (hpos : 0 < holds k.mem (k.root pid) p) : p ≠ v := by
  rintro rfl
  exact absurd (MemUsage.not_table_of_unheld h.unheld hlive) (Nat.ne_of_gt hpos)

/-- The kernel's flag on a page that it hands out. -/
theorem Marked.kernel_bit (h : Marked L k v) (hinv : Inv L k) (hhoused : Housed L k)
    (hp : IsPage L p) (hv : p ≠ v) :
    (markAt k v p).testBit 0 = true ↔ ∃ i, Live k i ∧ IsTable k.mem (k.root i) p := by
  have hnot : ¬ (IsTable k.mem L.kernelPagetable p ∨ v = p) := by
    rintro (ht | heq)
    · exact hhoused.kernel.not_page ht hp
    · exact hv heq.symm
  rw [h.bits hinv hhoused hp.aligned hp.bounds.2.1 hp.handed_out.1 (by decide)]
  simp [hnot]

/-- The user's flag. -/
theorem Marked.user_bit (h : Marked L k v) (hinv : Inv L k) (hhoused : Housed L k)
    (hp : IsPage L p) : (markAt k v p).testBit 1 = true ↔ ∃ i, MapsPage k i p := by
  rw [h.bits hinv hhoused hp.aligned hp.bounds.2.1 hp.handed_out.1 (by decide)]
  constructor
  · rintro (⟨-, hbit⟩ | ⟨i, -, ⟨-, hbit⟩ | ⟨-, hmaps, -⟩⟩)
    · omega
    · omega
    · exact ⟨i, hmaps⟩
  · rintro ⟨i, hmaps⟩
    exact .inr ⟨i, hmaps.1, .inr ⟨hp, hmaps, .inl rfl⟩⟩

/-- A page that one process or several hold. -/
theorem Marked.symbol_held (h : Marked L k v) (hinv : Inv L k) (hhoused : Housed L k)
    (hp : IsPage L p) (hlive : Live k pid) (hpos : 0 < holds k.mem (k.root pid) p)
    (hleast : ∀ i < pid, ¬ (Live k i ∧ 0 < holds k.mem (k.root i) p)) :
    ∃ u, Uses L k v p u ∧
      MemUsage.markSymbol true (k.refs p) p (markAt k v p) = ([], u.symbol) := by
  have hrefs := hinv.refs_pos hlive hpos
  have h1 := hhoused.pid_pos hlive
  have hprocess : ∀ i, 1 ≤ i → ((markAt k v p).testBit (i + 2) = true ↔
      Live k i ∧ 0 < holds k.mem (k.root i) p) :=
    fun i hi => h.process hinv hhoused hp.aligned hp.bounds.2.1 hp.handed_out.1 hi
  have hzero := h.kernel_bit hinv hhoused hp (h.ne_of_held hlive hpos)
  have hone := h.user_bit hinv hhoused hp
  have hnot : ¬ ((markAt k v p).testBit 0 = true ∧ (markAt k v p).testBit 1 = true) := by
    rintro ⟨h0, h1⟩
    obtain ⟨i, hi, ht⟩ := hzero.mp h0
    obtain ⟨j, hmaps⟩ := hone.mp h1
    exact hmaps.not_table hinv hp hi ht
  by_cases hmany : ∃ i, i ≠ pid ∧ Live k i ∧ 0 < holds k.mem (k.root i) p
  · obtain ⟨i, hi, hlive', hpos'⟩ := hmany
    have hlt : pid < i := by
      by_contra hge
      exact hleast i (by omega) ⟨hlive', hpos'⟩
    have hmaps : ∀ a b, a ≠ b → Live k a → Live k b → 0 < holds k.mem (k.root a) p →
        0 < holds k.mem (k.root b) p → MapsPage k a p := by
      intro a b hab ha hb hposa hposb
      refine (holds_cases hinv ha hposa).2.resolve_left fun ht => ?_
      exact absurd (hinv.private_alone ha hb hab (.inl ht)) (Nat.ne_of_gt hposb)
    refine ⟨.shared, .shared hp (hmaps pid i hi.symm hlive hlive' hpos hpos')
      (hmaps i pid hi hlive' hlive hpos' hpos) hi.symm, ?_⟩
    refine MemUsage.markSymbol_many h1 hlt hlive'.1 ((hprocess pid h1).mpr ⟨hlive, hpos⟩)
      ((hprocess i (by omega)).mpr ⟨hlive', hpos'⟩) (fun j hj hlt' => ?_) hnot hrefs
    rw [Bool.eq_false_iff]
    exact fun hset => hleast j hlt' ((hprocess j hj).mp hset)
  · have honly : ∀ i, Live k i → 0 < holds k.mem (k.root i) p → i = pid := by
      intro i hi hposi
      by_contra hcon
      exact hmany ⟨i, hcon, hi, hposi⟩
    have hbits : ∀ i, 1 ≤ i → ((markAt k v p).testBit (i + 2) = true ↔ i = pid) := by
      intro i hi
      rw [hprocess i hi]
      constructor
      · exact fun hc => honly i hc.1 hc.2
      · rintro rfl
        exact ⟨hlive, hpos⟩
    rw [MemUsage.markSymbol_one h1 hlive.1 hbits hnot hrefs]
    rcases (holds_cases hinv hlive hpos).2 with ht | hmaps
    · exact ⟨.table pid, .table hlive ht, by rw [if_pos (hzero.mpr ⟨pid, hlive, ht⟩)]⟩
    · refine ⟨.user pid, .user hp hmaps fun i hi => honly i hi.1 (hi.holds hp), ?_⟩
      rw [if_neg]
      rw [hzero]
      rintro ⟨i, hi, ht⟩
      exact hmaps.not_table hinv hp hi ht

/-- **`symbol_at`** gives the symbol of a page's use, and no error. -/
theorem Marked.symbolAt (h : Marked L k v) (hinv : Inv L k) (hhoused : Housed L k)
    (hal : p % 4096 = 0) (hlow : p < MEMSIZE_PHYSICAL) (hcount : k.refs p ≤ PID_MAX) :
    ∃ u, Uses L k v p u ∧
      MemUsage.symbolAt L { v_ := v, separate_tables_ := true } k p = ([], u.symbol) := by
  rw [symbolAt_low hal hlow hcount]
  by_cases hne : p = CONSOLE_ADDR
  · exact ⟨.console, .console hne, by rw [if_pos hne]⟩
  rw [if_neg hne]
  by_cases hp : IsPage L p
  · have hallocatable := hp.2
    have hreserved : ¬ reservedPhysicalAddress p = true := by
      rw [hp.handed_out.2]
      exact Bool.false_ne_true
    rw [if_neg fun hc => hreserved hc.1, if_neg hreserved,
      if_neg fun hc => Bool.false_ne_true (hc.1.symm.trans hallocatable),
      if_neg fun hc => Bool.false_ne_true (hc.symm.trans hallocatable)]
    by_cases hheld : ∃ pid, Live k pid ∧ 0 < holds k.mem (k.root pid) p
    · classical
      obtain ⟨hlive, hpos⟩ := Nat.find_spec hheld
      exact h.symbol_held hinv hhoused hp hlive hpos fun i hi => Nat.find_min hheld hi
    · -- nobody but the kernel
      have hbits : ∀ b, b ≠ 2 → ((markAt k v p).testBit b = true ↔ v = p ∧ b = 0) := by
        intro b hb
        rw [h.bits hinv hhoused hal hlow hne hb, or_iff_right (hhoused.kernel.not_page · hp)]
        refine or_iff_left ?_
        rintro ⟨i, hlive, ⟨ht, -⟩ | ⟨-, hmaps, -⟩⟩
        · exact hheld ⟨i, hlive, holds_pos.mpr (.inl ht)⟩
        · exact hheld ⟨i, hlive, hmaps.holds hp⟩
      by_cases hv : v = p
      · refine ⟨.kernel, .marks hv.symm, markSymbol_kernel fun b hb => ?_⟩
        rw [hbits b hb, and_iff_right hv]
      · rw [markSymbol_none fun b hb => by
          rw [Bool.eq_false_iff]
          exact fun hset => hv ((hbits b hb).mp hset).1]
        by_cases hrefs : k.refs p = 0
        · exact ⟨.free, .free ⟨hp, hrefs⟩, by rw [if_neg (not_not_intro hrefs)]⟩
        · refine ⟨.leaked, .leaked hp (Ne.symm hv) (Nat.pos_of_ne_zero hrefs) fun pid hlive => ?_,
            by rw [if_pos hrefs]⟩
          by_contra hpos
          exact hheld ⟨pid, hlive, Nat.pos_of_ne_zero hpos⟩
  · have hmarked : MemUsage.markedPid (markAt k v p) = 0 := by
      refine MemUsage.markedPid_zero fun i hi => ?_
      rw [Bool.eq_false_iff, ne_eq, h.process hinv hhoused hal hlow hne hi]
      rintro ⟨hlive, hpos⟩
      exact hp (holds_cases hinv hlive hpos).1
    dsimp only
    rw [if_neg fun hc => hc.2 hmarked]
    by_cases hr : reservedPhysicalAddress p = true
    · exact ⟨.reserved, .reserved hne hr, by rw [if_pos hr]⟩
    · have hallocatable : allocatablePhysicalAddress L p = false := by
        rw [Bool.eq_false_iff]
        exact fun hc => hp ⟨hal, hc⟩
      rw [Bool.not_eq_true] at hr
      refine ⟨.kernel, .image hr hallocatable, ?_⟩
      rw [if_neg (by rw [hr]; exact Bool.false_ne_true), if_neg fun hc => hc.2.1 hmarked,
        if_pos hallocatable]

/-! ## One use -/

open Classical in
/-- The use of a page, by who holds it. -/
noncomputable def useOf (L : Layout) (k : Kernel) (v p : Nat) : PageUse :=
  if p = CONSOLE_ADDR then .console
  else if reservedPhysicalAddress p = true then .reserved
  else if allocatablePhysicalAddress L p = false ∨ p = v then .kernel
  else if h : ∃ pid, Live k pid ∧ IsTable k.mem (k.root pid) p then .table h.choose
  else if h : ∃ pid, MapsPage k pid p then
    if ∀ pid, MapsPage k pid p → pid = h.choose then .user h.choose else .shared
  else if k.refs p = 0 then .free
  else .leaked

open Classical in
/-- The use of a page that the kernel hands out. -/
theorem useOf_page (hp : IsPage L p) (hv : p ≠ v) :
    useOf L k v p =
      if h : ∃ pid, Live k pid ∧ IsTable k.mem (k.root pid) p then .table h.choose
      else if h : ∃ pid, MapsPage k pid p then
        if ∀ pid, MapsPage k pid p → pid = h.choose then .user h.choose else .shared
      else if k.refs p = 0 then .free
      else .leaked := by
  have hnot : ¬ (allocatablePhysicalAddress L p = false ∨ p = v) := by
    rintro (ha | heq)
    · exact Bool.false_ne_true (ha.symm.trans hp.2)
    · exact hv heq
  obtain ⟨hconsole, hr⟩ := hp.handed_out
  rw [useOf, if_neg hconsole, if_neg (by rw [hr]; exact Bool.false_ne_true), if_neg hnot]

/-- A page that nobody holds. -/
theorem useOf_unheld (hp : IsPage L p) (hv : p ≠ v)
    (hnone : ∀ pid, Live k pid → ¬ 0 < holds k.mem (k.root pid) p) :
    useOf L k v p = if k.refs p = 0 then .free else .leaked := by
  have htable : ¬ ∃ pid, Live k pid ∧ IsTable k.mem (k.root pid) p := by
    rintro ⟨pid, hlive, ht⟩
    exact hnone pid hlive (holds_pos.mpr (.inl ht))
  have hmaps : ¬ ∃ pid, MapsPage k pid p := by
    rintro ⟨pid, hmaps⟩
    exact hnone pid hmaps.1 (hmaps.holds hp)
  rw [useOf_page hp hv, dif_neg htable, dif_neg hmaps]

/-- A page that processes map. -/
theorem MapsPage.useOf_eq (h : MapsPage k pid p) (hinv : Inv L k) (hmarked : Marked L k v)
    (hp : IsPage L p) :
    ∃ i, MapsPage k i p ∧ ((∀ j, MapsPage k j p → j = i) → useOf L k v p = .user i) ∧
      (¬ (∀ j, MapsPage k j p → j = i) → useOf L k v p = .shared) := by
  have hsome : ∃ pid, MapsPage k pid p := ⟨pid, h⟩
  have htable : ¬ ∃ pid, Live k pid ∧ IsTable k.mem (k.root pid) p := by
    rintro ⟨i, hlive, ht⟩
    exact h.not_table hinv hp hlive ht
  refine ⟨hsome.choose, hsome.choose_spec, fun hone => ?_, fun hmany => ?_⟩
  · rw [useOf_page hp (hmarked.ne_of_held h.1 (h.holds hp)), dif_neg htable, dif_pos hsome,
      if_pos hone]
  · rw [useOf_page hp (hmarked.ne_of_held h.1 (h.holds hp)), dif_neg htable, dif_pos hsome,
      if_neg hmany]

/-- **A page has one use.** -/
theorem Uses.eq_useOf {u : PageUse} (h : Uses L k v p u) (hinv : Inv L k)
    (hmarked : Marked L k v) : u = useOf L k v p := by
  cases h with
  | console hc => rw [useOf, if_pos hc]
  | reserved hne hr => rw [useOf, if_neg hne, if_pos hr]
  | image hr ha =>
    have hne : p ≠ CONSOLE_ADDR := by
      rintro rfl
      exact absurd hr (by decide)
    rw [useOf, if_neg hne, if_neg (by rw [hr]; exact Bool.false_ne_true), if_pos (.inl ha)]
  | marks hv =>
    obtain ⟨hne, hr⟩ := hmarked.page.handed_out
    rw [hv, useOf, if_neg hne, if_neg (by rw [hr]; exact Bool.false_ne_true), if_pos (.inr rfl)]
  | free hfree =>
    have hv : p ≠ v := by
      rintro rfl
      exact absurd (hmarked.used.symm.trans hfree.2) Nat.one_ne_zero
    rw [useOf_unheld hfree.1 hv fun pid hlive hpos => hinv.not_free hlive hpos hfree,
      if_pos hfree.2]
  | leaked hp hv hpos hnone =>
    rw [useOf_unheld hp hv fun pid hlive => Nat.not_lt_of_le (Nat.le_of_eq (hnone pid hlive)),
      if_neg (Nat.ne_of_gt hpos)]
  | @table pid hlive ht =>
    have hpos := holds_pos.mpr (.inl ht)
    have hsome : ∃ pid, Live k pid ∧ IsTable k.mem (k.root pid) p := ⟨pid, hlive, ht⟩
    rw [useOf_page ((hinv.spaces pid hlive).isPage_of_holds hpos) (hmarked.ne_of_held hlive hpos),
      dif_pos hsome]
    congr 1
    by_contra hne
    obtain ⟨hlive', ht'⟩ := hsome.choose_spec
    have hzero := hinv.private_alone hlive hlive' hne (.inl ht)
    exact absurd hzero (Nat.ne_of_gt (holds_pos.mpr (.inl ht')))
  | @user pid hp hmaps hone =>
    obtain ⟨i, hi, huser, -⟩ := hmaps.useOf_eq hinv hmarked hp
    obtain rfl := hone i hi
    exact (huser hone).symm
  | @shared pid pid' hp hmaps hmaps' hne =>
    obtain ⟨i, -, -, hshared⟩ := hmaps.useOf_eq hinv hmarked hp
    exact (hshared fun hone => hne ((hone pid hmaps).trans (hone pid' hmaps').symm)).symm

theorem Uses.unique {u u' : PageUse} (h : Uses L k v p u) (h' : Uses L k v p u')
    (hinv : Inv L k) (hmarked : Marked L k v) : u = u' :=
  (h.eq_useOf hinv hmarked).trans (h'.eq_useOf hinv hmarked).symm

end

end SystemsProjects.WeensyOS
