/-
SystemsProjects.WeensyOS.NewProcess — a finished table, given to a process.

`process_setup` and `fork` build a page table aside and then put it into a
free slot of `ptable`. The invariant asks of the table that it maps the
kernel's pages, frames of its own where it is writable (`Ready`), and
otherwise only frames that somebody holds and nobody may write.
-/
import SystemsProjects.WeensyOS.ProcessSetup

namespace SystemsProjects.WeensyOS

open SystemsProjects.Base
open SystemsProjects.Base.RadixTree

/-- A slot of `ptable` set. -/
def Kernel.setProc (k : Kernel) (pid : Nat) (p : Proc) : Kernel :=
  { k with ptable := Function.update k.ptable pid p }

/-- A page that somebody holds and nobody may write. -/
def Shareable (L : Layout) (k : Kernel) (p : Nat) : Prop :=
  0 < total k p ∧ ∀ pid, Live k pid → ¬ Private L k.mem (k.root pid) p

/-- The table at `pt` under construction is fit for a process. -/
structure Ready (L : Layout) (k₀ k : Kernel) (pt : Nat) (lf : Nat → Nat) : Prop where
  building : Building L k₀ k pt lf fun _ => 0
  tables : LowTables k.mem pt true
  entries : ∀ vpn, lf vpn = kernelEntry vpn ∨
    InUserRange vpn ∧ ∃ p w, IsPage L p ∧ lf vpn = frameEntry p w
  writable : ∀ vpn p, InUserRange vpn → IsPage L p → lf vpn = frameEntry p true → Free L k₀ p
  shared : ∀ p, ¬ Free L k₀ p → 0 < holds k.mem pt p → holds k.mem pt p = 1 ∧ Shareable L k₀ p

/-- Every process has its stack page. -/
def Stacked (L : Layout) (k : Kernel) : Prop :=
  ∀ pid, Live k pid → ∃ q, IsPage L q ∧ leaf k.mem (k.root pid) 0x2FF = frameEntry q true

section

variable {L : Layout} {k₀ k k' : Kernel} {pt pid p : Nat} {lf : Nat → Nat} {proc : Proc}

@[simp] theorem setProc_mem : (k.setProc pid proc).mem = k.mem := rfl

@[simp] theorem setProc_refs : (k.setProc pid proc).refs p = k.refs p := rfl

@[simp] theorem setProc_self : (k.setProc pid proc).ptable pid = proc :=
  Function.update_self _ _ _

@[simp] theorem setProc_root : (k.setProc pid proc).root pid = proc.pagetable := by
  simp [Kernel.setProc, Kernel.root]

theorem live_setProc (hpid : pid < PID_MAX) :
    Live (k.setProc pid proc) pid ↔ proc.state ≠ .free := by
  rw [Live, setProc_self, and_iff_right hpid]

/-- The processes hold sixteen references at most. -/
theorem Inv.total_le (h : Inv L k) (p : Nat) : total k p ≤ PID_MAX := by
  refine (Finset.sum_le_card_nsmul _ _ 1 fun pid _ => ?_).trans (by simp)
  rw [shares]
  split
  · rename_i hlive
    exact h.once pid hlive p
  · exact Nat.zero_le 1

/-- A page that a process maps read-only is nobody's own. -/
theorem Inv.shareable (h : Inv L k) {vpn : Nat} (hlive : Live k pid) (hvpn : InUserRange vpn)
    (hp : IsPage L p) (hentry : leaf k.mem (k.root pid) vpn = frameEntry p false) :
    Shareable L k p := by
  have hheld := holds_of_entry hvpn hp hentry
  refine ⟨?_, fun i hi hpriv => ?_⟩
  · have hle := shares_le_total (p := p) hlive
    rw [shares_live hlive] at hle
    omega
  · by_cases hne : i = pid
    · subst hne
      rcases hpriv with ht | ⟨-, vpn', hvpn', hwrite⟩
      · exact h.frame_not_table hlive hlive hvpn hp hentry ht
      · obtain rfl := h.mapped_once hlive hvpn hvpn' hp hentry hwrite
        rw [hentry] at hwrite
        exact absurd (frameEntry_inj hp.aligned hp.aligned hwrite).2 (by decide)
    · have hzero := h.private_alone hi hlive hne hpriv
      omega

/-- A shared page has a count that can grow. -/
theorem Shareable.refs_lt (hp : Shareable L k p) (hinv : Inv L k) (hexact : Exact k)
    (hal : p % 4096 = 0) : k.refs p ≤ PID_MAX := by
  rw [hexact p hal (.inl hp.1)]
  exact hinv.total_le p

theorem Ready.space (h : Ready L k₀ k pt lf) : Space L k.mem pt where
  tree := h.building.tree
  noLarge := h.building.noLarge
  tables := fun p hp => (h.building.tables p hp).1
  covered := fun va hva => (h.tables.covered_iff hva).mpr (.inr rfl)
  entries := by
    rw [h.building.leaf]
    exact h.entries

theorem Ready.holds_le_one (h : Ready L k₀ k pt lf) (p : Nat) : holds k.mem pt p ≤ 1 := by
  rcases Nat.eq_zero_or_pos (holds k.mem pt p) with hzero | hpos
  · omega
  · by_cases hfree : Free L k₀ p
    · have hrefs := h.building.refs p hfree.1.aligned
      have hone := (h.building.isFresh p hfree).1
      omega
    · exact Nat.le_of_eq (h.shared p hfree hpos).1

theorem Ready.refs_eq (h : Ready L k₀ k pt lf) (hp : p % 4096 = 0) :
    k.refs p = k₀.refs p + holds k.mem pt p := by
  have := h.building.refs p hp
  omega

/-- The pages in use that the table holds have counts that can grow. -/
def Ready.Counts (_ : Ready L k₀ k pt lf) : Prop :=
  ∀ p, ¬ Free L k₀ p → 0 < holds k.mem pt p → k₀.refs p < 255

theorem Ready.counts_of_exact (h : Ready L k₀ k pt lf) (hinv : Inv L k₀) (hexact : Exact k₀) :
    h.Counts := by
  intro p hfree hpos
  have hle := (h.shared p hfree hpos).2.refs_lt hinv hexact (h.space.aligned_of_holds hpos)
  exact Nat.lt_of_le_of_lt hle (by decide)

theorem Ready.refs_lt (h : Ready L k₀ k pt lf) (hinv : Inv L k₀) (hcounts : h.Counts) (p : Nat) :
    k.refs p < 256 := by
  refine refs_lt_all (fun q hal => ?_) p
  by_cases hfree : Free L k₀ q
  · exact Nat.lt_of_le_of_lt (h.building.isFresh q hfree).1 (by decide)
  · rw [h.refs_eq hal]
    rcases Nat.eq_zero_or_pos (holds k.mem pt q) with hzero | hpos
    · have := hinv.refs_lt q
      omega
    · have hone := (h.shared q hfree hpos).1
      have hlt := hcounts q hfree hpos
      omega

/-- Its private pages were free. -/
theorem Ready.free_of_private (h : Ready L k₀ k pt lf) (hp : Private L k.mem pt p) :
    Free L k₀ p := by
  rcases hp with ht | ⟨hpage, vpn, hvpn, hentry⟩
  · exact h.building.tables p ht
  · rw [h.building.leaf] at hentry
    exact h.writable vpn p hvpn hpage hentry

/-- The processes of before keep their tables. -/
theorem Ready.others (h : Ready L k₀ k pt lf) (hinv : Inv L k₀) :
    Others k₀ (k.setProc pid proc) pid where
  slot := by
    intro i hi
    rw [Kernel.setProc, h.building.ptable]
    exact Function.update_of_ne hi _ _
  tables := by
    intro i _ hlive p hp
    refine h.building.mem p ((hinv.spaces i hlive).tree.table_aligned hp) fun hfree => ?_
    exact absurd hp (hinv.free_not_table hlive hfree)

/-- **A finished table given to a free slot** keeps the invariant. -/
theorem Ready.inv (h : Ready L k₀ k pt lf) (hinv : Inv L k₀) (hcounts : h.Counts)
    (hpid : pid < PID_MAX) (hslot : (k₀.ptable pid).state = .free) (hproc : proc.pagetable = pt) :
    Inv L (k.setProc pid proc) := by
  have hdead : shares k₀ pid = fun _ => 0 := by
    funext p
    exact if_neg fun hlive => hlive.2 hslot
  refine hinv.change hpid (h.others hinv) (h.refs_lt hinv hcounts) (fun p hp => ?_)
    (fun i _ hlive p hp => ?_) fun _ => ?_
  · have hle : shares (k.setProc pid proc) pid p ≤ holds k.mem pt p := by
      rw [shares, setProc_root, hproc]
      split
      · exact Nat.le_refl _
      · exact Nat.zero_le _
    rw [hdead, setProc_refs, h.refs_eq hp]
    omega
  · -- a private page of another process gets no reference
    have hal := (hinv.spaces i hlive).aligned_of_holds hp.holds
    have hone := hinv.own i hlive p hp
    have hnot : ¬ Free L k₀ p := hinv.not_free hlive hp.holds
    have hzero : holds k.mem pt p = 0 := by
      refine Nat.eq_zero_of_not_pos fun hpos => ?_
      exact (h.shared p hnot hpos).2.2 i hlive hp
    rw [setProc_refs, h.refs_eq hal, hzero, hone]
  · refine ⟨?_, fun p => ?_, fun p hp => ?_⟩
    · rw [setProc_root, hproc]
      exact h.space
    · rw [setProc_root, hproc]
      exact h.holds_le_one p
    · rw [setProc_root, hproc] at hp
      have hfree := h.free_of_private hp
      have hrefs := h.refs_eq hfree.1.aligned
      have hone := (h.building.isFresh p hfree).1
      have hpos := hp.holds
      simp only [setProc_mem] at hpos
      rw [hfree.2] at hrefs
      rw [setProc_refs]
      omega

/-- No reference is lost. -/
theorem Ready.exact (h : Ready L k₀ k pt lf) (hinv : Inv L k₀) (hexact : Exact k₀)
    (hpid : pid < PID_MAX) (hslot : (k₀.ptable pid).state = .free) (hproc : proc.pagetable = pt)
    (hstate : proc.state ≠ .free) : Exact (k.setProc pid proc) := by
  intro p hp hcond
  have hdead : shares k₀ pid p = 0 := if_neg fun hlive => hlive.2 hslot
  have hnew : shares (k.setProc pid proc) pid p = holds k.mem pt p := by
    rw [shares_live ((live_setProc hpid).mpr hstate), setProc_root, hproc, setProc_mem]
  have hothers : Others k₀ (k.setProc pid proc) pid := h.others hinv
  have htotal := total_change (p := p) hpid fun i hi => hothers.shares hi p
  have hrefs := h.refs_eq hp
  have hbound := hinv.bound p hp
  have hex := hexact p hp
  rw [setProc_refs] at hcond ⊢
  rcases Nat.eq_zero_or_pos (holds k.mem pt p) with hzero | hpos
  · omega
  · by_cases hfree : Free L k₀ p
    · have hfree := hfree.2
      omega
    · have hsome := (h.shared p hfree hpos).2.1
      omega

/-- The others keep their stack pages. -/
theorem Others.stacked {a : Nat} (h : Others k k' a) (hstack : Stacked L k)
    (hnew : Live k' a → ∃ q, IsPage L q ∧ leaf k'.mem (k'.root a) 0x2FF = frameEntry q true) :
    Stacked L k' := by
  intro pid hlive
  by_cases hne : pid = a
  · subst hne
    exact hnew hlive
  · have hlive₀ := (h.live hne).mp hlive
    rw [Kernel.root, h.slot pid hne, (h.tables pid hne hlive₀).leaf]
    exact hstack pid hlive₀

theorem Keeps.stacked (h : Keeps k k') (hstack : Stacked L k) : Stacked L k' := by
  intro pid hlive
  have hlive := (h.live pid).mp hlive
  rw [h.root, (h.tables pid hlive).leaf]
  exact hstack pid hlive

theorem Ready.stacked (h : Ready L k₀ k pt lf) (hinv : Inv L k₀) (hstack : Stacked L k₀)
    (hproc : proc.pagetable = pt) (hentry : ∃ q, IsPage L q ∧ lf 0x2FF = frameEntry q true) :
    Stacked L (k.setProc pid proc) := by
  refine (h.others hinv).stacked hstack fun _ => ?_
  rw [setProc_root, hproc, setProc_mem, h.building.leaf]
  exact hentry

end

end SystemsProjects.WeensyOS
