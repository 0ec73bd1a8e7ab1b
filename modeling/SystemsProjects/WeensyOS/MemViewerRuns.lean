/-
SystemsProjects.WeensyOS.MemViewerRuns — the memory viewer in a running
kernel.

`memshow` stores only to its page of marks, which no process holds, and a
step of the kernel leaves that page alone (`step_hasMarks`). So in every
run with the viewer (`ShownReaches`) a picture has the symbols of what the
pages are used for and no errors, and the only way in which `memshow`
fails is that its first call gets no page (`viewer_truthful`).
-/
import SystemsProjects.WeensyOS.CheckedRuns
import SystemsProjects.WeensyOS.Isolation
import SystemsProjects.WeensyOS.PageSymbols

namespace SystemsProjects.WeensyOS

open SystemsProjects.Base
open SystemsProjects.Base.RadixTree

/-! ## The page of marks across steps -/

section

open MemUsage (HasMarks)

variable {L : Layout} {k k' : Kernel} {e : Event} {v : Nat}

theorem Keeps.hasMarks (h : Keeps k k') (hmarks : HasMarks L k v) : HasMarks L k' v := by
  refine hmarks.imp_right ?_
  rintro ⟨hpage, hrefs, htotal⟩
  exact ⟨hpage, by rw [h.refs v hpage.aligned (by omega), hrefs], (h.total v).trans htotal⟩

/-- **A step** leaves the page of marks alone. -/
theorem Effect.hasMarks (h : Effect L e k k') (hs : Steady L k) (hvalid : AllocValid e)
    (hmarks : HasMarks L k v) : HasMarks L k' v := by
  cases h with
  | keeps h => exact h.hasMarks hmarks
  | @alloc _ regs q he hcall h =>
    subst he
    refine hmarks.imp_right ?_
    rintro ⟨hpage, hrefs, htotal⟩
    have hlive' : Live k' k.current := (h.live _).mpr hs.live
    have hne : v ≠ q := by
      rintro rfl
      have := (h.taken.free v (List.mem_singleton_self v)).2
      omega
    have hholds := h.holds (hvalid hcall) v
    rw [if_neg hne] at hholds
    have hold := MemUsage.not_table_of_unheld htotal hs.live
    have hchange := total_change (p := v) hs.live.1
      fun pid hpid => (h.others hs.inv hs.live).shares hpid v
    rw [shares_live hs.live, shares_live hlive', h.root] at hchange
    exact ⟨hpage, by rw [h.refs_of_pos hpage.aligned (by omega), hrefs], by omega⟩
  | @fork k₁ regs pid pt lf he hcall hcan hslot h =>
    refine hmarks.imp_right ?_
    rintro ⟨hpage, hrefs, htotal⟩
    obtain ⟨-, hpid, hfree⟩ := findFree_eq_some hslot
    have hready := h.ready hcan hs.stack
    have hused : ¬ Free L k v := fun hf => by
      have := hf.2
      omega
    have hzero : holds k₁.mem pt v = 0 := by
      refine Nat.eq_zero_of_not_pos fun hpos => ?_
      have hsome := (hready.shared v hused hpos).2.1
      omega
    have hdead : shares k pid v = 0 := if_neg fun hlive => hlive.2 hfree
    have hnew : shares (k₁.setProc pid (childProc k pt pid)) pid v = 0 := by
      rw [shares, setProc_root, setProc_mem]
      split
      · exact hzero
      · rfl
    have hothers : Others k (k₁.setProc pid (childProc k pt pid)) pid := hready.others hs.inv
    have hchange := total_change (p := v) hpid fun i hi => hothers.shares hi v
    refine ⟨hpage, ?_, by omega⟩
    rw [setProc_refs, hready.refs_eq hpage.aligned, hzero, hrefs]
  | exit h =>
    refine hmarks.imp_right ?_
    rintro ⟨hpage, hrefs, htotal⟩
    have hold := MemUsage.not_table_of_unheld htotal hs.live
    have hchange := total_change (p := v) hs.live.1 fun pid hpid => h.others.shares hpid v
    rw [shares_live hs.live, shares, if_neg h.not_live] at hchange
    exact ⟨hpage, by rw [h.refs v hpage.aligned, hold, hrefs], by omega⟩

theorem step_hasMarks (hs : Steady L k) (hok : CountedForks 255 k e) (h : step L e k = .ok k')
    (hmarks : HasMarks L k v) : HasMarks L k' v := by
  obtain ⟨k₁, k₂, ⟨halike, -⟩, hs₁, heffect, hafter, -⟩ :=
    (step_stepped hs hok.1 hok.2 h).before hs
  exact hafter.keeps.hasMarks (heffect.hasMarks hs₁ hok.1 (halike.keeps.hasMarks hmarks))

/-! ## The kernel with the viewer's page -/

namespace MemUsage

theorem Viewed.steady (h : Viewed L v k k') (hs : Steady L k) : Steady L k' := by
  have hkeeps := h.keeps hs.inv
  refine ⟨hkeeps.inv hs.inv, ?_, hkeeps.stacked hs.stack⟩
  rw [h.current]
  exact (h.live _).mpr hs.live

theorem Viewed.housed (h : Viewed L v k k') (hinv : Inv L k) (hhoused : Housed L k) :
    Housed L k' := by
  have hconfines : Confines L k k' := (h.keeps hinv).confines fun p hp hnot _ => by
    refine h.mem p hp ?_
    rintro rfl
    exact hnot h.page
  exact hconfines.housed hhoused

theorem Viewed.counts {m : Nat} (h : Viewed L v k k') (hm : 0 < m)
    (hcounts : ∀ p, p % 4096 = 0 → k.refs p ≤ m) : ∀ p, p % 4096 = 0 → k'.refs p ≤ m := by
  intro p hp
  by_cases hne : p = v
  · rw [hne, h.used]
    exact hm
  · rw [h.refs p hp hne]
    exact hcounts p hp

theorem Viewed.hasMarks (h : Viewed L v k k') (hinv : Inv L k) : HasMarks L k' v :=
  .inr ⟨h.page, h.used, ((h.keeps hinv).total v).trans h.unheld⟩

theorem Viewed.pageView (h : Viewed L v k k') (hs : Steady L k) {vpn : Nat}
    (hvpn : vpn < MEMSIZE_VIRTUAL / PAGESIZE) : pageView k' vpn = pageView k vpn := by
  have hsame := h.sameTables hs.inv hs.live
  have hspace := hs.inv.spaces _ hs.live
  have hroot : k'.cur.pagetable = k.root k.current := by
    rw [Kernel.cur, h.current]
    exact h.root k.current
  rw [WeensyOS.pageView, WeensyOS.pageView, hroot, (hsame.space hspace).userPage_mul hvpn,
    hsame.leaf]
  exact (hspace.userPage_mul hvpn).symm

/-- The page of marks does not make a `fork` count too far. -/
theorem Viewed.forkBelow {m : Nat} (h : Viewed L v k k') (hs : Steady L k)
    (hbelow : ForkBelow m k e) : ForkBelow m k' e := by
  cases e with
  | store va byte => exact hbelow
  | exception regs => exact hbelow
  | syscall regs =>
    refine fun hcall => (hbelow hcall).imp (fun hnone => ?_) fun hshares => ?_
    · rw [findFree, h.ptable]
      exact hnone
    · intro vpn hvpn p hview
      rw [h.pageView hs hvpn] at hview
      have hlt := hshares vpn hvpn p hview
      have hspace := hs.inv.spaces _ hs.live
      have hview : userPage k.mem (k.root k.current) (vpn * PAGESIZE) = some (p, false) := hview
      rw [hspace.userPage_mul hvpn] at hview
      rcases hspace.entries vpn with hentry | ⟨hrange, q, w, hq, hentry⟩
      · rw [hentry, entryPage_kernelEntry_iff] at hview
        exact absurd hview.2.2 Bool.false_ne_true
      · rw [hentry, entryPage_frameEntry hq] at hview
        cases hview
        have hne : p ≠ v := by
          rintro rfl
          have hzero := not_table_of_unheld h.unheld hs.live
          exact absurd hzero (Nat.ne_of_gt (holds_of_entry hrange hq hentry))
        rwa [h.refs p hq.aligned hne]

/-- The marks are those of the kernel with the page of marks. -/
theorem Viewed.marked (h : Viewed L v k k') (hinv : Inv L k) (hk : KernelTable L k.mem)
    (hmarks : k'.mem.Flags v 1024 (Marks L k v)) : Marked L k' v where
  page := h.page
  used := h.used
  unheld := ((h.keeps hinv).total v).trans h.unheld
  marks := by
    refine hmarks.congr fun pn _ b => ?_
    have hprocess : ∀ pid, ProcessMarks k' pid pn b ↔ ProcessMarks k pid pn b := by
      intro pid
      rw [ProcessMarks, ProcessMarks, h.live, h.root]
      refine and_congr_right fun hlive => ?_
      have hsame := h.sameTables hinv hlive
      rw [funext hsame.leaf]
      simp only [hsame.isTable]
    rw [Marks, Marks]
    simp only [hprocess, (h.kernelTables hk).isTable]

end MemUsage

theorem eventRegs_alike (e : Event) (k : Kernel) :
    Alike k (eventRegs e k) ∧ (eventRegs e k).current = k.current := by
  cases e with
  | store va byte => exact ⟨.refl k, rfl⟩
  | syscall regs => exact ⟨saveRegs_alike regs k, rfl⟩
  | exception regs => exact ⟨saveRegs_alike regs k, rfl⟩

end

/-! ## Pictures -/

/-- The symbol of page `vpn` of a process, of its entry. -/
def VirtualSymbol (L : Layout) (k : Kernel) (v root vpn s : Nat) : Prop :=
  leaf k.mem root vpn &&& PTE_P = 0 ∧ s = ' '.toNat ∨
    leaf k.mem root vpn &&& PTE_P ≠ 0 ∧ ∃ u, Uses L k v (leaf k.mem root vpn &&& PTE_PAMASK) u ∧
      s = if UserEntry (leaf k.mem root vpn) then userSymbol u.symbol else u.symbol

/-- **What a picture should be**: the symbols of what the pages are used
for, and those of the pages that a process has, without errors. -/
structure Truthful (L : Layout) (k : Kernel) (v : Nat) (picture : Picture) : Prop where
  errors : picture.errors = []
  physical : List.Forall₂ (fun pn s => ∃ u, Uses L k v (pn * PAGESIZE) u ∧ s = u.symbol)
    (List.range NPAGES) picture.physical
  virtual : ∃ pid, picture.process = some pid ∧ Live k pid ∧
    List.Forall₂ (VirtualSymbol L k v (k.root pid))
      (List.range (MEMSIZE_VIRTUAL / PAGESIZE)) picture.virtual

section

variable {L : Layout} {k k' : Kernel} {v n pid root rounds : Nat} {it : VmIter}

/-- What an entry of a process maps is physical memory. -/
theorem Space.pa_lt {mem : ByteMem} {vpn : Nat} (h : Space L mem root)
    (hpresent : leaf mem root vpn &&& PTE_P ≠ 0) :
    (leaf mem root vpn &&& PTE_PAMASK) % 4096 = 0 ∧
      leaf mem root vpn &&& PTE_PAMASK < MEMSIZE_PHYSICAL := by
  rcases h.entries vpn with hentry | ⟨-, q, w, hq, hentry⟩
  · rw [hentry] at hpresent ⊢
    rw [kernelEntry] at hpresent ⊢
    split at hpresent
    · rename_i hvpn
      have hlt : vpn < 0x80 := hvpn.2
      rw [if_pos hvpn, or_and_pamask (Nat.mul_mod_left _ 4096) (show vpn * 4096 < 2 ^ 52 by omega)
        (by decide)]
      exact ⟨Nat.mul_mod_left _ 4096, show vpn * 4096 < 0x200000 by omega⟩
    · rename_i hvpn
      rw [if_neg hvpn]
      split at hpresent
      · rename_i hconsole
        rw [if_pos hconsole]
        decide
      · exact absurd (Nat.zero_and _) hpresent
  · rw [hentry, hq.frameEntry_and_pamask]
    exact ⟨hq.aligned, hq.bounds.2.1⟩

/-- The symbol of one page. -/
theorem virtualSymbol_spec (hinv : Inv L k) (hhoused : Housed L k)
    (hcounts : ∀ p, p % 4096 = 0 → k.refs p ≤ PID_MAX) (hmarked : Marked L k v)
    (hspace : Space L k.mem root) (hn : n < MEMSIZE_VIRTUAL / PAGESIZE)
    (hsees : VmIter.Sees k.mem root (n * 4096) it) :
    ∃ s, virtualSymbol L { v_ := v, separate_tables_ := true } k it = ([], s) ∧
      VirtualSymbol L k v root n s := by
  have hn : n < 768 := hn
  have hlow : n * 4096 < MEMSIZE_VIRTUAL := show n * 4096 < 0x300000 by omega
  have hslot : n * 4096 / 4096 = n := Nat.mul_div_cancel n (by decide)
  have hpresent := hsees.present_iff hlow
  have huser := hsees.user_iff hlow
  rw [hslot] at hpresent huser
  rw [virtualSymbol]
  by_cases hp : leaf k.mem root n &&& PTE_P = 0
  · rw [if_pos (by rw [hpresent]; exact not_not_intro hp)]
    exact ⟨_, rfl, .inl ⟨hp, rfl⟩⟩
  · obtain ⟨hal, hpa⟩ := hspace.pa_lt hp
    obtain ⟨u, huses, hsymbol⟩ := hmarked.symbolAt hinv hhoused hal hpa (hcounts _ hal)
    rw [if_neg (by rw [hpresent]; exact not_not_intro hp),
      hsees.pa_page (show n < 2 ^ 35 by omega) hp, hsymbol]
    refine ⟨_, rfl, .inr ⟨hp, u, huses, ?_⟩⟩
    simp only [huser]

/-- The loop over the pages of a process. -/
theorem virtualLoop_spec (hinv : Inv L k) (hhoused : Housed L k)
    (hcounts : ∀ p, p % 4096 = 0 → k.refs p ≤ PID_MAX) (hmarked : Marked L k v)
    (hspace : Space L k.mem root) {m : Nat} (hm : n + m = 768)
    (hrounds : m < rounds) (hnew : VmIter.new k.mem root (n * 4096) = .ok it) :
    ∃ l, virtualLoop L { v_ := v, separate_tables_ := true } k rounds it = .ok ([], l) ∧
      List.Forall₂ (VirtualSymbol L k v root) (List.range' n m) l := by
  induction m generalizing it n rounds with
  | zero =>
    obtain ⟨rounds, rfl⟩ : ∃ r, rounds = r + 1 := ⟨rounds - 1, by omega⟩
    refine ⟨[], ?_, .nil⟩
    rw [virtualLoop, if_neg]
    · rfl
    · rw [VmIter.va_of_new hnew]
      show ¬ n * 4096 < 768 * 4096
      omega
  | succ m ih =>
    obtain ⟨rounds, rfl⟩ : ∃ r, rounds = r + 1 := ⟨rounds - 1, by omega⟩
    have hva := VmIter.va_of_new hnew
    obtain ⟨it₀, hnew₀, hsees⟩ := VmIter.new_sees hspace.tree (.inl hspace.noLarge)
      (VmIter.canonical_mul (show n < 2 ^ 35 by omega))
    obtain rfl : it = it₀ := Except.ok.inj (hnew.symm.trans hnew₀)
    obtain ⟨s, hsymbol, hs⟩ := virtualSymbol_spec hinv hhoused hcounts hmarked hspace
      (show n < 768 by omega) hsees
    obtain ⟨it', hnew', -⟩ := VmIter.new_sees hspace.tree (.inl hspace.noLarge)
      (VmIter.canonical_mul (show n + 1 < 2 ^ 35 by omega))
    have hadvance : it.advance k.mem PAGESIZE = .ok it' := by
      have hnext : (it.va_ + PAGESIZE) % 2 ^ 64 = (n + 1) * 4096 := by
        rw [hva]
        show (n * 4096 + 4096) % 2 ^ 64 = (n + 1) * 4096
        omega
      rw [VmIter.advance, hnext, VmIter.find_eq_new hspace.tree.aligned
        (show n * 4096 < 2 ^ 64 by omega) (show (n + 1) * 4096 < 2 ^ 64 by omega) hnew hva, hnew']
    obtain ⟨l, hloop, hl⟩ := ih (show n + 1 + m = 768 by omega)
      (show m < rounds by omega) hnew'
    refine ⟨s :: l, ?_, List.Forall₂.cons hs hl⟩
    rw [virtualLoop, if_pos (by rw [hva]; show n * 4096 < 768 * 4096; omega), hsymbol]
    dsimp only
    rw [hadvance, ok_bind, hloop]
    rfl

/-! ## `memshow` -/

/-- The search passes over the processes it has tried only if they cannot
be shown. -/
theorem searchShown_none {showing tries i : Nat} (h : (searchShown k tries showing).1 = none)
    (hi : i < tries) (hlt : showing < PID_MAX) :
    ¬ ((k.ptable ((showing + i) % PID_MAX)).state ≠ .free ∧
      (k.ptable ((showing + i) % PID_MAX)).pagetable ≠ 0) := by
  have hlt : showing < 16 := hlt
  induction tries generalizing showing i with
  | zero => omega
  | succ tries ih =>
    rw [searchShown] at h
    split at h
    · cases h
    · rename_i hskip
      cases i with
      | zero => rwa [show (showing + 0) % PID_MAX = showing from Nat.mod_eq_of_lt hlt]
      | succ i =>
        have hnext := ih h (Nat.lt_of_succ_lt_succ hi) (Nat.mod_lt _ (by decide))
          (Nat.mod_lt _ (by decide))
        rwa [show ((showing + 1) % PID_MAX + i) % PID_MAX = (showing + (i + 1)) % PID_MAX by
          show ((showing + 1) % 16 + i) % 16 = (showing + (i + 1)) % 16
          omega] at hnext

theorem searchShown_some {showing tries i : Nat} (h : (searchShown k tries showing).1 = some i)
    (hlt : showing < PID_MAX) : Live k i := by
  induction tries generalizing showing with
  | zero => cases h
  | succ tries ih =>
    rw [searchShown] at h
    split at h
    · rename_i hshown
      cases h
      exact ⟨hlt, hshown.1⟩
    · exact ih h (Nat.mod_lt _ (by decide))

theorem searchShown_lt {showing tries : Nat} (hlt : showing < PID_MAX) :
    (searchShown k tries showing).2 < PID_MAX := by
  induction tries generalizing showing with
  | zero => exact hlt
  | succ tries ih =>
    rw [searchShown]
    split
    · exact hlt
    · exact ih (Nat.mod_lt _ (by decide))

/-- **The search** finds a process if there is one. -/
theorem searchShown_spec {showing : Nat} (hinv : Inv L k) (hlive : Live k pid)
    (hlt : showing < PID_MAX) :
    ∃ i, (searchShown k PID_MAX showing).1 = some i ∧ Live k i := by
  cases hfound : (searchShown k PID_MAX showing).1 with
  | some i => exact ⟨i, rfl, searchShown_some hfound hlt⟩
  | none =>
    have hlt : showing < 16 := hlt
    have hpid : pid < 16 := hlive.1
    have hskip := searchShown_none (i := (pid + 16 - showing) % 16) hfound
      (Nat.mod_lt _ (by decide)) hlt
    rw [show (showing + (pid + 16 - showing) % 16) % PID_MAX = pid by
      show (showing + (pid + 16 - showing) % 16) % 16 = pid
      omega] at hskip
    have hroot := MemUsage.root_ne ((hinv.spaces pid hlive).tables _ isNode_root)
    exact absurd ⟨hlive.2, hroot.1⟩ hskip

/-- The viewer's variables: the process to show has a slot, the page of
marks is nobody's. -/
structure Viewer.Sound (L : Layout) (k : Kernel) (vw : Viewer) : Prop where
  showing : vw.showing < PID_MAX
  marks : MemUsage.HasMarks L k vw.mu.v_

/-- **`console_memviewer`** draws a truthful picture. -/
theorem consoleMemviewer_spec {mu : MemUsage} (hinv : Inv L k) (hhoused : Housed L k)
    (hcounts : ∀ p, p % 4096 = 0 → k.refs p ≤ PID_MAX) (hlive : Live k pid)
    (hmarks : MemUsage.HasMarks L k mu.v_) :
    (consoleMemviewer L (some pid) mu k = .error .assertion ∧ mu.v_ = 0 ∧ OutOfPages L k) ∨
      ∃ picture v k', consoleMemviewer L (some pid) mu k =
          .ok (picture, { v_ := v, separate_tables_ := true }, k') ∧
        MemUsage.Viewed L v k k' ∧ Truthful L k' v picture := by
  have hfirst : (k.ptable 0).state = .free := by
    by_contra hstate
    exact hhoused.first ⟨by decide, hstate⟩
  rw [consoleMemviewer, assert_true hfirst, ok_bind]
  rcases MemUsage.refresh_spec hinv hhoused hlive hmarks with
    ⟨hrun, hzero, hnone⟩ | ⟨v, k', hrun, hview, hflags⟩
  · exact .inl ⟨by rw [hrun]; rfl, hzero, hnone⟩
  · refine .inr ?_
    have hinv' := (hview.keeps hinv).inv hinv
    have hhoused' := hview.housed hinv hhoused
    have hcounts' := hview.counts (by decide) hcounts
    have hmarked := hview.marked hinv hhoused.kernel.toKernelTable hflags
    have hlive' := (hview.live pid).mpr hlive
    have hspace := hinv'.spaces pid hlive'
    have hroot := MemUsage.root_ne (hspace.tables _ isNode_root)
    obtain ⟨it, hnew, -⟩ := VmIter.new_sees hspace.tree (.inl hspace.noLarge)
      (VmIter.canonical_mul (show 0 < 2 ^ 35 by decide))
    obtain ⟨l, hloop, hl⟩ := virtualLoop_spec (n := 0) (m := 768) hinv' hhoused' hcounts'
      hmarked hspace rfl (show 768 < MemUsage.max_view_va / PAGESIZE + 1 by decide) hnew
    have hsymbols : ∀ pn ∈ List.range NPAGES, ∃ u, Uses L k' v (pn * PAGESIZE) u ∧
        MemUsage.symbolAt L { v_ := v, separate_tables_ := true } k' (pn * PAGESIZE) =
          ([], u.symbol) := by
      intro pn hpn
      have hpn : pn < 512 := List.mem_range.mp hpn
      have hal : pn * PAGESIZE % 4096 = 0 := Nat.mul_mod_left _ 4096
      exact hmarked.symbolAt hinv' hhoused' hal (show pn * 4096 < 0x200000 by omega)
        (hcounts' _ hal)
    have hvirtual : consoleMemviewerVirtual L { v_ := v, separate_tables_ := true } k' pid =
        .ok ([], l) := by
      rw [consoleMemviewerVirtual, assert_true hroot.1, ok_bind]
      rw [Nat.zero_mul] at hnew
      rw [show VmIter.new k'.mem (k'.ptable pid).pagetable 0 = .ok it from hnew, ok_bind]
      exact hloop
    let symbols := (List.range NPAGES).map fun pn =>
      MemUsage.symbolAt L { v_ := v, separate_tables_ := true } k' (pn * PAGESIZE)
    refine ⟨{ errors := symbols.flatMap Prod.fst ++ [], physical := symbols.map Prod.snd,
              process := some pid, virtual := l }, v, k', ?_, hview, ?_⟩
    · rw [hrun, ok_bind]
      dsimp only
      rw [hvirtual, ok_bind]
      rfl
    · refine ⟨?_, ?_, pid, rfl, hlive', ?_⟩
      · rw [List.append_nil, List.flatMap_eq_nil_iff]
        intro s hs
        obtain ⟨pn, hpn, rfl⟩ := List.mem_map.mp hs
        obtain ⟨u, -, hsymbol⟩ := hsymbols pn hpn
        rw [hsymbol]
      · rw [List.map_map, List.forall₂_map_right_iff, List.forall₂_same]
        intro pn hpn
        obtain ⟨u, huses, hsymbol⟩ := hsymbols pn hpn
        exact ⟨u, huses, by rw [Function.comp_apply, hsymbol]⟩
      · rw [List.range_eq_range']
        exact hl

/-- `memshow` from the process at which it searches. -/
theorem memshow_eq {vw : Viewer} (hlt : vw.showing < PID_MAX) (ticks : UInt64) :
    ∃ showing last_ticks, showing < PID_MAX ∧ memshow L ticks vw k = (do
      let (p, showing) := searchShown k PID_MAX showing
      let (picture, mu, k) ← consoleMemviewer L p vw.mu k
      return (picture, { mu := mu, last_ticks := last_ticks, showing := showing }, k)) := by
  rw [memshow]
  by_cases hdue : vw.last_ticks = 0 ∨
      (ticks.toNat + 2 ^ 64 - vw.last_ticks) % 2 ^ 64 ≥ HZ / 2
  · refine ⟨(vw.showing + 1) % PID_MAX, ticks.toNat % 2 ^ 32, Nat.mod_lt _ (by decide), ?_⟩
    simp only [if_pos hdue]
  · refine ⟨vw.showing, vw.last_ticks, hlt, ?_⟩
    simp only [if_neg hdue]

/-- **`memshow`** draws a truthful picture, unless its first call gets no
page. -/
theorem memshow_spec {vw : Viewer} (hinv : Inv L k) (hhoused : Housed L k)
    (hcounts : ∀ p, p % 4096 = 0 → k.refs p ≤ PID_MAX) (hlive : Live k pid)
    (hvw : vw.Sound L k) (ticks : UInt64) :
    (memshow L ticks vw k = .error .assertion ∧ vw.mu.v_ = 0 ∧ OutOfPages L k) ∨
      ∃ picture vw' k', memshow L ticks vw k = .ok (picture, vw', k') ∧
        MemUsage.Viewed L vw'.mu.v_ k k' ∧ vw'.Sound L k' ∧ Truthful L k' vw'.mu.v_ picture := by
  obtain ⟨showing, last_ticks, hlt, heq⟩ := memshow_eq (L := L) (k := k) hvw.showing ticks
  rw [heq]
  obtain ⟨i, hfound, hi⟩ := searchShown_spec hinv hlive hlt
  have hnext : (searchShown k PID_MAX showing).2 < PID_MAX := searchShown_lt hlt
  generalize searchShown k PID_MAX showing = found at hfound hnext ⊢
  obtain ⟨p, showing'⟩ := found
  obtain rfl : p = some i := hfound
  dsimp only
  rcases consoleMemviewer_spec hinv hhoused hcounts hi hvw.marks with
    ⟨hrun, hzero, hnone⟩ | ⟨picture, v, k', hrun, hview, htruth⟩
  · exact .inl ⟨by rw [hrun]; rfl, hzero, hnone⟩
  · refine .inr ⟨picture, ⟨{ v_ := v, separate_tables_ := true }, last_ticks, showing'⟩, k', ?_,
      hview, ⟨hnext, hview.hasMarks hinv⟩, htruth⟩
    rw [hrun, ok_bind]
    rfl

end

/-! ## Runs -/

/-- The kernel and the viewer's variables in a run of a kernel that shows
its memory; before each event `ok` holds of the kernel and the event. -/
inductive ShownReaches (L : Layout) (P : Programs) (command : Option String) (mem : ByteMem)
    (ok : Kernel → Event → Prop) : Viewer → Kernel → Prop where
  | boot {k : Kernel} (h : Boots L P command mem k) :
    ShownReaches L P command mem ok Viewer.initial k
  | step {vw vw' : Viewer} {k k' : Kernel} {e : Event} {ticks : UInt64} {picture : Option Picture}
      (h : ShownReaches L P command mem ok vw k) (hok : ok k e)
      (hstep : stepShown L ticks e vw k = .ok (picture, vw', k')) :
    ShownReaches L P command mem ok vw' k'

/-- What every state of such a run has. -/
structure Shown (L : Layout) (vw : Viewer) (k : Kernel) : Prop where
  steady : Steady L k
  housed : Housed L k
  counts : ∀ p, p % 4096 = 0 → k.refs p ≤ PID_MAX
  viewer : vw.Sound L k

section

variable {L : Layout} {P : Programs} {command : Option String} {mem : ByteMem} {vw vw' : Viewer}
  {k k' : Kernel} {e : Event} {picture : Option Picture} {ticks : UInt64}

/-- The registers are saved before the picture is drawn. -/
theorem Shown.event (h : Shown L vw k) (e : Event) : Shown L vw (eventRegs e k) := by
  obtain ⟨halike, hcur⟩ := eventRegs_alike e k
  have hlive : Live (eventRegs e k) (eventRegs e k).current := by
    rw [hcur]
    exact (halike.live _).mpr h.steady.live
  refine ⟨halike.steady hlive h.steady.inv h.steady.stack, halike.confines.housed h.housed,
    fun p hp => ?_, h.viewer.showing, halike.keeps.hasMarks h.viewer.marks⟩
  rw [halike.refs]
  exact h.counts p hp

theorem Shown.memshow_spec (h : Shown L vw k) (ticks : UInt64) :
    (memshow L ticks vw k = .error .assertion ∧ vw.mu.v_ = 0 ∧ OutOfPages L k) ∨
      ∃ picture vw' k', memshow L ticks vw k = .ok (picture, vw', k') ∧ Shown L vw' k' ∧
        MemUsage.Viewed L vw'.mu.v_ k k' ∧ Truthful L k' vw'.mu.v_ picture := by
  refine (WeensyOS.memshow_spec h.steady.inv h.housed h.counts h.steady.live h.viewer
    ticks).imp_right ?_
  rintro ⟨picture, vw', k', hrun, hview, hvw', htruth⟩
  exact ⟨picture, vw', k', hrun, ⟨hview.steady h.steady, hview.housed h.steady.inv h.housed,
    hview.counts (by decide) h.counts, hvw'⟩, hview, htruth⟩

/-- A step of the kernel without a picture. -/
theorem Shown.step (h : Shown L vw k) (hok : CountedForks PID_MAX k e)
    (hstep : step L e k = .ok k') : Shown L vw k' := by
  have hok' : CountedForks 255 k e := ⟨hok.1, hok.2.mono (by decide)⟩
  exact {
    steady := step_steady h.steady hok' hstep
    housed := (step_confines h.steady hok' hstep).housed h.housed
    counts := step_counts h.steady (by decide) (by decide) hok h.counts hstep
    viewer := ⟨h.viewer.showing, step_hasMarks h.steady hok' hstep h.viewer.marks⟩ }

/-- **A step with the viewer.** -/
theorem Shown.stepShown (h : Shown L vw k) (hok : CountedForks PID_MAX k e)
    (hstep : stepShown L ticks e vw k = .ok (picture, vw', k')) : Shown L vw' k' := by
  rw [WeensyOS.stepShown] at hstep
  by_cases hshows : shows e = true
  · rw [if_pos hshows] at hstep
    obtain ⟨halike, hcur⟩ := eventRegs_alike e k
    have hevent := h.event e
    rcases hevent.memshow_spec ticks with ⟨hrun, -⟩ | ⟨drawn, vw₁, k₁, hrun, h₁, hview, -⟩
    · rw [hrun] at hstep
      cases hstep
    · rw [hrun] at hstep
      obtain ⟨k₂, hk₂, hstep⟩ := bind_eq_ok (x := WeensyOS.step L e k₁) hstep
      cases hstep
      exact h₁.step ⟨hok.1, hview.forkBelow hevent.steady (hok.2.congr halike hcur)⟩ hk₂
  · rw [if_neg hshows] at hstep
    obtain ⟨k₂, hk₂, hstep⟩ := bind_eq_ok (x := WeensyOS.step L e k) hstep
    cases hstep
    exact h.step hok hk₂

theorem Boots.shown (h : Boots L P command mem k) : Shown L Viewer.initial k where
  steady := h.sane.steady
  housed := h.housed
  counts := fun _ hp => h.sane.refs_le hp
  viewer := ⟨by decide, .inl rfl⟩

theorem ShownReaches.shown (h : ShownReaches L P command mem (CountedForks PID_MAX) vw k) :
    Shown L vw k := by
  induction h with
  | boot h => exact h.shown
  | step _ hok hstep ih => exact ih.stepShown hok hstep

/-- The page of marks is taken from no process: the viewer leaves them as
isolated as they are without it. -/
theorem ShownReaches.isolated (h : ShownReaches L P command mem (CountedForks PID_MAX) vw k) :
    Isolated L k :=
  h.shown.steady.isolated h.shown.counts

/-- **The pictures of a running kernel are truthful.** Whatever comes
next, `memshow` changes nothing but its page of marks and draws each page
with the symbol of its use, without errors; it fails only if its first
call gets no page. -/
theorem viewer_truthful (h : ShownReaches L P command mem (CountedForks PID_MAX) vw k)
    (e : Event) (ticks : UInt64) :
    (memshow L ticks vw (eventRegs e k) = .error .assertion ∧ vw.mu.v_ = 0 ∧
        OutOfPages L (eventRegs e k)) ∨
      ∃ picture vw' k', memshow L ticks vw (eventRegs e k) = .ok (picture, vw', k') ∧
        MemUsage.Viewed L vw'.mu.v_ (eventRegs e k) k' ∧ Truthful L k' vw'.mu.v_ picture := by
  refine ((h.shown.event e).memshow_spec ticks).imp_right ?_
  rintro ⟨picture, vw', k', hrun, -, hview, htruth⟩
  exact ⟨picture, vw', k', hrun, hview, htruth⟩

/-- The first picture of a kernel that has just started. -/
theorem viewer_truthful_first :
    ∃ k picture vw' k', Boots smallLayout (emptySegment 0x100000 0x1000) none zeroed k ∧
      memshow smallLayout 0 Viewer.initial k = .ok (picture, vw', k') ∧
      Truthful smallLayout k' vw'.mu.v_ picture := by
  obtain ⟨k, -, hboots, hroom, -⟩ := boots_emptySegment
  rcases viewer_truthful (.boot hboots) (.store 0 0) 0 with
    ⟨-, -, hout⟩ | ⟨picture, vw', k', hrun, -, htruth⟩
  · exact absurd hout hroom
  · exact ⟨k, picture, vw', k', hboots, hrun, htruth⟩

end

end SystemsProjects.WeensyOS
