/-
SystemsProjects.WeensyOS.ForkLoop — the loop of `fork` over the parent's
pages.

A page that the parent may not write costs a page-table page at most, a
page it may write a frame first. If the frame was the last free page and a
page-table page is missing, the frame is not given back: this is the one
way to fail that leaves a trace (`LeavesPage`).
-/
import SystemsProjects.WeensyOS.Forking

namespace SystemsProjects.WeensyOS

open SystemsProjects.Base
open SystemsProjects.Base.RadixTree

/-- After the copies of all pages below 2 MB one page is free, and the next
page to copy is one that the process may write. -/
def LeavesPage (L : Layout) (k : Kernel) : Prop :=
  (freePages L k).length = 5 + ownPages k 0x200 ∧
    ∃ vpn, 0x200 ≤ vpn ∧ vpn < 0x300 ∧ (pageView k vpn).any Prod.snd = true ∧
      ∀ n, 0x200 ≤ n → n < vpn → pageView k n = none

/-- `fork` ran out of pages: all is as before, or a page is lost. -/
structure ForkFailed (L : Layout) (k₀ k : Kernel) : Prop where
  few : (freePages L k₀).length < 5 + ownPages k₀ 0x300
  undone : (Undone L k₀ k (fun _ => 0) ∧ ¬ LeavesPage L k₀) ∨
    ∃ q, Free L k₀ q ∧ (Undone L k₀ k fun p => if p = q then 1 else 0) ∧ LeavesPage L k₀

section

variable {L : Layout} {k₀ k k' : Kernel} {pt n p q e e' va : Nat} {lf : Nat → Nat} {w : Bool}
  {it : VmIter} {mem mem' : ByteMem}

theorem not_leavesPage_of_lt (h : (freePages L k).length < 5 + ownPages k 0x200) :
    ¬ LeavesPage L k := by
  rintro ⟨heq, -⟩
  omega

/-- With a page-table page for the addresses from 2 MB on, no frame is the
first one there. -/
theorem not_leavesPage_of_high (hlen : (freePages L k).length = 5 + ownPages k n)
    (hhigh : hasHigh k n = true) : ¬ LeavesPage L k := by
  rintro ⟨heq, vpn, hle, hlt, hown, hfirst⟩
  obtain ⟨m, hm, hlow, hsome⟩ := hasHigh_iff.mp hhigh
  have hvm : vpn ≤ m := by
    by_contra hnot
    rw [hfirst m hlow (Nat.lt_of_not_le hnot)] at hsome
    cases hsome
  have hmono := ownPages_mono (k := k) (show vpn + 1 ≤ n by omega)
  have hbase := ownPages_mono (k := k) hle
  have hne : vpn ≠ CONSOLE_ADDR / PAGESIZE := by
    rintro rfl
    exact absurd hle (by decide)
  rw [ownPages, if_pos ⟨hne, hown⟩] at hmono
  omega

/-- Out of pages without one. -/
theorem not_leavesPage_of_low (hlen : (freePages L k).length ≤ 4 + ownPages k n)
    (hhigh : hasHigh k n = false) : ¬ LeavesPage L k := by
  refine not_leavesPage_of_lt ?_
  rcases Nat.lt_or_ge n 0x200 with hlow | hhi
  · have hmono := ownPages_mono (k := k) (Nat.le_of_lt hlow)
    omega
  · have heq := ownPages_low hhi hhigh
    omega

theorem CopyOf.mono (h : CopyOf L k₀ mem e e')
    (hsame : ∀ q, Free L k₀ q → e' = frameEntry q true → SamePage mem mem' q) :
    CopyOf L k₀ mem' e e' := by
  cases h with
  | absent => exact .absent
  | shared hp => exact .shared hp
  | copied hp hq hbytes =>
    exact .copied hp hq fun i hi => (hsame _ hq rfl i hi).trans (hbytes i hi)

theorem Maps.extends {l : List Nat} (h : Maps L k k' pt va l) : Extends L k k' pt where
  isTable := fun p hp => ((h.tables p).mp hp).imp_right h.drawn.free
  grows := h.grows
  free := fun p hp => by
    rw [← mem_freePages, h.drawn.order]
    exact List.mem_append_right _ (mem_freePages.mpr hp)
  mem := fun p hp hused hnot => h.mem p hp fun ht =>
    ((h.tables p).mp ht).elim hnot fun hl => hused (h.drawn.free hl)

/-- A page of the parent that the child does not get. -/
theorem Forking.skip (h : Forking L k₀ k pt n lf) (hown : ownPages k₀ (n + 1) = ownPages k₀ n)
    (hhigh : hasHigh k₀ (n + 1) = hasHigh k₀ n)
    (habsent : InUserRange n → leaf k₀.mem (k₀.root k₀.current) n = 0) :
    Forking L k₀ k pt (n + 1) lf where
  building := h.building
  below := by
    intro vpn hvpn hrange
    rcases Nat.lt_succ_iff_lt_or_eq.mp hvpn with hlt | rfl
    · exact h.below vpn hlt hrange
    · rw [habsent hrange, h.rest vpn fun hnot => Nat.lt_irrefl _ hnot.1, kernelEntry_of_user hrange]
      exact .absent
  rest := fun vpn hvpn => h.rest vpn fun hlt => hvpn ⟨Nat.lt_succ_of_lt hlt.1, hlt.2⟩
  tables := by
    rw [hhigh]
    exact h.tables
  free := by
    rw [hown, hhigh]
    exact h.free
  room := by
    rw [hown, hhigh]
    exact h.room

/-- A page of the parent that the child gets. -/
theorem Forking.next (h : Forking L k₀ k pt n lf) (hrange : InUserRange n)
    (hb : Building L k₀ k' pt (Function.update lf n e) fun _ => 0) (hkept : Extends L k k' pt)
    (hcopy : CopyOf L k₀ k'.mem (leaf k₀.mem (k₀.root k₀.current) n) e)
    (htables : LowTables k'.mem pt (hasHigh k₀ (n + 1)))
    (hfree : freePages L k' = (freePages L k₀).drop
      (4 + ownPages k₀ (n + 1) + if hasHigh k₀ (n + 1) = true then 1 else 0))
    (hroom : 4 + ownPages k₀ (n + 1) + (if hasHigh k₀ (n + 1) = true then 1 else 0) ≤
      (freePages L k₀).length) :
    Forking L k₀ k' pt (n + 1) (Function.update lf n e) where
  building := hb
  below := by
    intro vpn hvpn hvrange
    rw [Function.update_apply]
    split
    · rename_i heq
      rw [heq]
      exact hcopy
    · rename_i hne
      refine (h.below vpn (by omega) hvrange).mono fun q hq hentry => ?_
      obtain ⟨hused, hnot⟩ := h.building.mapped hvrange hq.1 hentry
      exact hkept.mem q hq.1.aligned hused hnot
  rest := by
    intro vpn hvpn
    rw [Function.update_apply, if_neg]
    · exact h.rest vpn fun hlt => hvpn ⟨Nat.lt_succ_of_lt hlt.1, hlt.2⟩
    · rintro rfl
      exact hvpn ⟨Nat.lt_succ_self _, hrange⟩
  tables := htables
  free := hfree
  room := hroom

/-- What the iterator shows as long as the parent's table is unchanged. -/
theorem CanFork.sees (hs : CanFork L k₀) (hva : va ≤ MEMSIZE_VIRTUAL)
    (hnew : VmIter.new k.mem (k₀.root k₀.current) va = .ok it)
    (hsame : SameTables k₀.mem k.mem (k₀.root k₀.current))
    (hsame' : SameTables k₀.mem mem (k₀.root k₀.current)) :
    VmIter.Sees mem (k₀.root k₀.current) va it := by
  have hcanon := VmIter.canonical_of_lt hva
  obtain ⟨it', hnew', hsees⟩ := VmIter.new_sees (hsame'.tree hs.space.tree)
    (.inl (hsame'.noLarge hs.space.noLarge)) hcanon
  rw [VmIter.new_congr hs.space.tree hsame' hcanon,
    ← VmIter.new_congr hs.space.tree hsame hcanon, hnew] at hnew'
  cases hnew'
  exact hsees

/-! ## One round -/

/-- How a round at page `n` ends. -/
def RoundEnds (L : Layout) (k₀ : Kernel) (pt n : Nat) (out : Except Fault (Option Int × Kernel)) :
    Prop :=
  LoopEnds out (fun k' => ∃ lf, Forking L k₀ k' pt (n + 1) lf) fun r k' => r = -1 ∧
  ForkFailed L k₀ k'

/-- What the iterator shows of a page of the parent. -/
theorem sees_frame {root : Nat} (hsees : VmIter.Sees mem root (n * 4096) it)
    (hrange : InUserRange n)
    (hp : IsPage L p) (hentry : leaf mem root n = frameEntry p w) :
    (it.present mem = true ∧ it.user mem = true) ∧ (it.writable mem = true ↔ w = true) ∧
      it.pa mem = p := by
  have hlow : n * 4096 < MEMSIZE_VIRTUAL := by
    have hlt := hrange.lt
    show n * 4096 < 0x300000
    omega
  have hdiv : n * 4096 / 4096 = n := Nat.mul_div_cancel n (by decide)
  have huser := userEntry_frameEntry hp.aligned w
  refine ⟨⟨?_, ?_⟩, ?_, ?_⟩
  · rw [hsees.present_iff hlow, hdiv, hentry]
    exact huser.present
  · rw [hsees.user_iff hlow, hdiv, hentry]
    exact huser
  · rw [hsees.writable_iff hlow, hdiv, hentry]
    exact frameEntry_writable hp.aligned
  · rw [hsees.pa_eq (by rw [slot_page hlow, hdiv, hentry]; exact huser.present),
      slot_page hlow, hdiv,
      hentry, hp.frameEntry_and_pamask, Nat.mul_mod_left, Nat.add_zero]

/-- A page of the kernel, or no page at all, is not for the child. -/
theorem Forking.roundKernel (h : Forking L k₀ k pt n lf) (hs : CanFork L k₀) (hn : n < 768)
    (hsees : VmIter.Sees k.mem (k₀.root k₀.current) (n * 4096) it)
    (hentry : leaf k₀.mem (k₀.root k₀.current) n = kernelEntry n) :
    RoundEnds L k₀ pt n (forkUserPage L pt it k) := by
  have hlow : n * 4096 < MEMSIZE_VIRTUAL := show n * 4096 < 0x300000 by omega
  have hview : pageView k₀ n = entryPage (kernelEntry n) := by rw [hs.pageView_eq hn, hentry]
  rw [entryPage_kernelEntry] at hview
  refine .inl ⟨k, ?_, lf, h.skip ?_ ?_ fun hrange => by rw [hentry, kernelEntry_of_user hrange]⟩
  · have hleaf : leaf k.mem (k₀.root k₀.current) (n * 4096 / 4096) = kernelEntry n := by
      rw [(h.building.sameTables hs hs.live).leaf, Nat.mul_div_cancel n (by decide), hentry]
    rw [forkUserPage]
    by_cases huser : UserEntry (kernelEntry n)
    · -- the console, which has been mapped already
      have hva : it.va_ = CONSOLE_ADDR := by rw [hsees.va_eq, kernelEntry_user huser]; rfl
      rw [if_neg (by rw [hsees.present_iff hlow, hsees.user_iff hlow, hleaf]
                     exact not_not_intro ⟨huser.present, huser⟩), if_pos hva]
      rfl
    · rw [if_pos (by rw [hsees.user_iff hlow, hleaf]; exact fun h' => huser h'.2)]
      rfl
  · rw [ownPages, if_neg, Nat.add_zero]
    rintro ⟨hne, hany⟩
    rw [hview, if_neg hne] at hany
    exact Bool.false_ne_true hany
  · rw [hasHigh_succ, hview]
    by_cases hhigh : 0x200 ≤ n
    · have hne : n ≠ CONSOLE_ADDR / PAGESIZE := by
        rintro rfl
        exact absurd hhigh (by decide)
      rw [if_neg hne, Option.isSome_none, Bool.and_false, Bool.or_false]
    · rw [decide_eq_false hhigh, Bool.false_and, Bool.or_false]

/-- The free pages once page `n` is mapped. -/
theorem Forking.drops {m l : Nat} (h : Forking L k₀ k pt n lf) (hl : l ≤ (freePages L k).length)
    (hm : 4 + ownPages k₀ n + (if hasHigh k₀ n = true then 1 else 0) + l = m) :
    (freePages L k).drop l = (freePages L k₀).drop m ∧ m ≤ (freePages L k₀).length := by
  have hlen := congrArg List.length h.free
  have hroom := h.room
  rw [List.length_drop] at hlen
  rw [h.free, List.drop_drop, hm]
  exact ⟨rfl, by omega⟩

theorem Forking.length_eq (h : Forking L k₀ k pt n lf) :
    (freePages L k₀).length =
      4 + ownPages k₀ n + (if hasHigh k₀ n = true then 1 else 0) + (freePages L k).length := by
  have hlen := congrArg List.length h.free
  have hroom := h.room
  rw [List.length_drop] at hlen
  omega

/-- The pages ran out before page `n`, and the child still lacks one. -/
theorem Forking.outOfPages (h : Forking L k₀ k pt n lf) (hn : n ≤ 0x300)
    (hnil : freePages L k = [])
    (hlacks : hasHigh k₀ n = true → ownPages k₀ n < ownPages k₀ 0x300)
    (hundone : Undone L k₀ k' fun _ => 0) : ForkFailed L k₀ k' := by
  have hlen := h.length_eq
  rw [hnil, List.length_nil, Nat.add_zero] at hlen
  have hmono := ownPages_mono (k := k₀) hn
  by_cases hhigh : hasHigh k₀ n = true
  · rw [if_pos hhigh] at hlen
    have hlt := hlacks hhigh
    exact ⟨by omega, .inl ⟨hundone, not_leavesPage_of_high (by omega) hhigh⟩⟩
  · rw [if_neg hhigh] at hlen
    exact ⟨by omega, .inl ⟨hundone,
      not_leavesPage_of_low (Nat.le_of_eq hlen) (Bool.eq_false_of_not_eq_true hhigh)⟩⟩

/-- `++physpages[n].refcount`, for a page of memory. -/
theorem shareFrame_eq (hp : IsPage L p) :
    shareFrame p k = .ok (k.setRefcount (p / 4096) (k.physpages (p / 4096) + 1)) := by
  have hb := hp.bounds
  have hmod : p % 2 ^ 32 = p := Nat.mod_eq_of_lt (by omega)
  rw [shareFrame, hmod]
  simp only [if_pos (show p < 2 ^ 31 by omega), PAGESIZE]
  rw [if_pos (show p / 4096 < 512 by omega)]

section

variable (hp : p % 4096 = 0) (hused : ¬ Free L k p) (hrefs : k.refs p < 255)
include hp hused hrefs

/-- One more reference on a page in use leaves the free pages as they are. -/
theorem freePages_share :
    freePages L (k.setRefcount (p / 4096) (k.physpages (p / 4096) + 1)) = freePages L k := by
  refine List.filter_congr fun r _ => decide_eq_decide.mpr (and_congr_right fun hr => ?_)
  simp only [Kernel.setRefcount, Kernel.refs, Function.update_apply]
  by_cases heq : r / 4096 = p / 4096
  · obtain rfl := (div_page_inj hr.aligned hp).mp heq
    have hsmall : k.physpages (r / 4096) < 255 := hrefs
    have hne : ¬ k.physpages (r / 4096) = 0 := fun hzero => hused ⟨hr, hzero⟩
    rw [if_pos rfl]
    omega
  · rw [if_neg heq]

theorem Extends.share (pt : Nat) :
    Extends L k (k.setRefcount (p / 4096) (k.physpages (p / 4096) + 1)) pt where
  isTable := fun _ hr => .inl hr
  grows := fun _ _ _ _ hr => hr
  free := fun r hr => by
    rw [← mem_freePages, ← freePages_share hp hused hrefs]
    exact mem_freePages.mpr hr
  mem := fun _ _ _ _ => .refl _ _

end

theorem lacking_eq_one {high : Bool} (h : lacking high va = 1) : high = false ∧ 0x200000 ≤ va := by
  by_contra hnot
  rw [lacking, if_neg hnot] at h
  cases h

theorem lacking_page {high : Bool} (n : Nat) :
    lacking high (n * 4096) = if high = false ∧ 0x200 ≤ n then 1 else 0 := by
  have hiff : 0x200000 ≤ n * 4096 ↔ 0x200 ≤ n := by omega
  simp only [lacking, hiff]

/-- A page the parent may only read: the child shares it. -/
theorem Forking.roundShared (h : Forking L k₀ k pt n lf) (hs : CanFork L k₀)
    (hrange : InUserRange n)
    (hnew : VmIter.new k.mem (k₀.root k₀.current) (n * 4096) = .ok it) (hp : IsPage L p)
    (hentry : leaf k₀.mem (k₀.root k₀.current) n = frameEntry p false) :
    RoundEnds L k₀ pt n (forkUserPage L pt it k) := by
  have hdiv : n * 4096 / 4096 = n := Nat.mul_div_cancel n (by decide)
  have hlt : n < 768 := hrange.lt
  have hlow : n * 4096 ≤ MEMSIZE_VIRTUAL := show n * 4096 ≤ 0x300000 by omega
  have hsame := h.building.sameTables hs hs.live
  have hview : pageView k₀ n = some (p, false) := by
    rw [hs.pageView_eq hlt, hentry, entryPage_frameEntry hp]
  have hown : ownPages k₀ (n + 1) = ownPages k₀ n := by
    rw [ownPages, hview, if_neg fun hany => Bool.false_ne_true hany.2, Nat.add_zero]
  have hhigh : hasHigh k₀ (n + 1) = (hasHigh k₀ n || decide (0x200 ≤ n)) := by
    rw [hasHigh_succ, hview, Option.isSome_some, Bool.and_true]
  have hused := hs.inv.not_free hs.live (holds_of_entry hrange hp hentry)
  have hcount := hs.refs_lt hrange hp hentry
  have hrefs : k.refs p < 255 := by
    have hrefs := h.building.refs p hp.aligned
    have hzero : holds k.mem pt p = 0 := by
      refine Nat.eq_zero_of_not_pos fun hpos => ?_
      -- the parent would map the page twice
      obtain ⟨vpn, hvpn, hvrange, -, hentry'⟩ := h.readOnly hused hpos
      exact Nat.ne_of_lt hvpn (hs.inv.mapped_once hs.live hvrange hrange hp hentry' hentry)
    omega
  obtain ⟨⟨hpresent, huser⟩, hwritable, hpa⟩ :=
    sees_frame (hs.sees hlow hnew hsame hsame) hrange hp ((hsame.leaf n).trans hentry)
  have hconsole : ¬ it.va_ = CONSOLE_ADDR := by
    rw [VmIter.va_of_new hnew]
    have h1 : 0x100 ≤ n := hrange.1
    show n * 4096 ≠ 0xB8000
    omega
  have hempty : lf (n * 4096 / 4096) = 0 := by
    rw [hdiv, h.rest n fun hnot => Nat.lt_irrefl n hnot.1, kernelEntry_of_user hrange]
  -- a reference is taken after the page is mapped
  have howed : Building L k₀ k pt lf fun r => (if r = p then -1 else 0) + if r = p then 1 else 0 :=
    h.building.congr fun r _ => by split <;> rfl
  rw [RoundEnds, forkUserPage, if_neg (not_not_intro ⟨hpresent, huser⟩), if_neg hconsole,
    if_neg (by rw [hwritable]; exact Bool.false_ne_true), VmIter.va_of_new hnew, hpa]
  rcases howed.tryMapFrame h.tables (Nat.mul_mod_left n 4096) (by rw [hdiv]; exact hrange) hempty hp
    false (fun r hr => by rw [if_neg fun heq : r = p => hused (heq ▸ hr)])
    with ⟨k₁, l, hrun, hlen, hmaps, htables, hb⟩ | ⟨k₁, hrun, hlack, hnil, -, hb⟩
  · have hsame₁ := hb.sameTables hs hs.live
    have hpa₁ : it.pa k₁.mem = p := (sees_frame (hs.sees hlow hnew hsame hsame₁) hrange hp
      ((hsame₁.leaf n).trans hentry)).2.2
    have hfresh : p ∉ l := fun hmem => hused (h.building.free_of (hmaps.drawn.free hmem))
    have hrefs₁ : k₁.refs p < 255 := by
      rw [hmaps.drawn.refs p hp.aligned, if_neg hfresh]
      exact hrefs
    have hused₁ : ¬ Free L k₁ p := fun hfree =>
      hused (h.building.free_of (hmaps.extends.free p hfree))
    have hb₂ := hb.share hp.aligned hused (by omega)
    rw [hdiv] at hb₂
    have hdrop : freePages L (k₁.setRefcount (p / 4096) (k₁.physpages (p / 4096) + 1)) =
        (freePages L k).drop l.length := by
      rw [freePages_share hp.aligned hused₁ hrefs₁, hmaps.drawn.order, List.drop_left' rfl]
    obtain ⟨hfree, hroom⟩ := h.drops (l := l.length)
      (by rw [hmaps.drawn.order, List.length_append]; omega)
      (show _ = 4 + ownPages k₀ (n + 1) + if hasHigh k₀ (n + 1) = true then 1 else 0 by
        rw [hlen, lacking_page, hown, hhigh]
        cases hasHigh k₀ n <;> by_cases hle : 0x200 ≤ n <;> simp [hle])
    refine .inl ⟨_, ?_, _, h.next hrange (hb₂.congr fun r _ => by split <;> rfl)
      (hmaps.extends.trans (.share hp.aligned hused₁ hrefs₁ pt)) ?_ ?_ (hdrop.trans hfree) hroom⟩
    · rw [show PTE_P ||| PTE_U = framePerm false from rfl, hrun]
      simp only [ok_bind, hpa₁, shareFrame_eq hp]
      rfl
    · rw [hentry]
      exact .shared hp
    · rw [hhigh]
      have hiff : 0x200000 ≤ n * 4096 ↔ 0x200 ≤ n := by omega
      simp only [hiff] at htables
      exact htables
  · have hb₁ : Building L k₀ k₁ pt lf fun _ => 0 := hb.congr fun r _ => by split <;> rfl
    obtain ⟨k₂, habandon, hundone⟩ := hb₁.abandon hs.inv (h.droppable hs) fun _ _ => rfl
    refine .inr ⟨-1, k₂, ?_, rfl, h.outOfPages (Nat.le_of_lt hlt) hnil (fun hbefore => ?_) hundone⟩
    · rw [show PTE_P ||| PTE_U = framePerm false from rfl, hrun]
      exact habandon
    · rw [(lacking_eq_one hlack).1] at hbefore
      cases hbefore

/-- A frame, with a copy of a page in use. -/
theorem Building.copyFrame (h : Building L k₀ k pt lf fun _ => 0) (hq : Free L k q)
    (hp : p % 4096 = 0) (hused : ¬ Free L k₀ p) :
    Building L k₀ ((k.take q).memcpy q p PAGESIZE) pt lf (fun r => 0 + if r = q then 1 else 0) ∧
      SameTables k.mem ((k.take q).memcpy q p PAGESIZE).mem pt ∧
      Extends L k ((k.take q).memcpy q p PAGESIZE) pt ∧
      ∀ i < 4096, ((k.take q).memcpy q p PAGESIZE).mem (q + i) = k₀.mem (p + i) := by
  have hqal := hq.1.aligned
  have htake := h.take hq
  have hcopy : ∀ r, r % 4096 = 0 → r ≠ q →
      SamePage (k.take q).mem ((k.take q).memcpy q p PAGESIZE).mem r := fun r hr hne =>
    samePage_copy hr hqal hne
  have hsame : ∀ r, r % 4096 = 0 → r ≠ q → SamePage k.mem ((k.take q).memcpy q p PAGESIZE).mem r :=
    fun r hr hne => (samePage_fill hr hqal hne).trans (hcopy r hr hne)
  have htables : SameTables k.mem ((k.take q).memcpy q p PAGESIZE).mem pt := by
    intro r hr
    refine hsame r (h.tree.table_aligned hr) ?_
    rintro rfl
    exact h.free_not_table hq hr
  have htables' : ∀ r, IsTable (k.take q).mem pt r → r ≠ q := by
    rintro r hr rfl
    exact absurd (htake.table_once hr).2.2 (by rw [if_pos rfl]; decide)
  refine ⟨htake.store fun r hr hkept => ?_, htables, ⟨fun r hr => .inl ((htables.isTable r).mp hr),
    fun d hd x r hr => (htables.tableAt hd x).trans hr, fun r hr => ((free_take hq).mp hr).1,
    fun r hr hnot _ => hsame r hr ?_⟩, fun i hi => ?_⟩
  · refine hcopy r hr ?_
    rintro rfl
    -- the page taken is no page-table page
    exact htables' r (hkept (h.free_of hq) fun hfree => ((free_take hq).mp hfree).2 rfl) rfl
  · rintro rfl
    exact hnot hq
  · have hpq : p ≠ q := by
      rintro rfl
      exact hused (h.free_of hq)
    show (k.take q).mem.copy q p 4096 (q + i) = _
    rw [ByteMem.copy, ByteMem.update_offset hi]
    exact (samePage_fill hp hqal hpq i hi).trans (h.mem p hp (fun hfree => absurd hfree hused) i hi)

/-- A page the parent may write: the child gets a copy. -/
theorem Forking.roundCopied (h : Forking L k₀ k pt n lf) (hs : CanFork L k₀)
    (hrange : InUserRange n)
    (hnew : VmIter.new k.mem (k₀.root k₀.current) (n * 4096) = .ok it) (hp : IsPage L p)
    (hentry : leaf k₀.mem (k₀.root k₀.current) n = frameEntry p true) :
    RoundEnds L k₀ pt n (forkUserPage L pt it k) := by
  have hdiv : n * 4096 / 4096 = n := Nat.mul_div_cancel n (by decide)
  have hlt : n < 768 := hrange.lt
  have hlow : n * 4096 ≤ MEMSIZE_VIRTUAL := show n * 4096 ≤ 0x300000 by omega
  have hsame := h.building.sameTables hs hs.live
  have hview : pageView k₀ n = some (p, true) := by
    rw [hs.pageView_eq hlt, hentry, entryPage_frameEntry hp]
  have hpage : n ≠ CONSOLE_ADDR / PAGESIZE := by
    rintro rfl
    exact absurd hrange.1 (by decide)
  have hown : ownPages k₀ (n + 1) = ownPages k₀ n + 1 := by
    rw [ownPages, hview, if_pos ⟨hpage, rfl⟩]
  have hhigh : hasHigh k₀ (n + 1) = (hasHigh k₀ n || decide (0x200 ≤ n)) := by
    rw [hasHigh_succ, hview, Option.isSome_some, Bool.and_true]
  obtain ⟨⟨hpresent, huser⟩, hwritable, -⟩ :=
    sees_frame (hs.sees hlow hnew hsame hsame) hrange hp ((hsame.leaf n).trans hentry)
  have hconsole : ¬ it.va_ = CONSOLE_ADDR := by
    rw [VmIter.va_of_new hnew]
    have h1 : 0x100 ≤ n := hrange.1
    show n * 4096 ≠ 0xB8000
    omega
  rw [RoundEnds, forkUserPage, if_neg (not_not_intro ⟨hpresent, huser⟩), if_neg hconsole,
    if_pos (hwritable.mpr rfl), VmIter.va_of_new hnew]
  cases hpages : freePages L k with
  | nil =>
    -- no page for the frame
    rw [kalloc_nil hpages]
    obtain ⟨k', habandon, hundone⟩ := h.building.abandon hs.inv (h.droppable hs) fun _ _ => rfl
    have hmono := ownPages_mono (k := k₀) (show n + 1 ≤ 0x300 from hlt)
    exact .inr ⟨-1, k', habandon, rfl,
      h.outOfPages (Nat.le_of_lt hlt) hpages (fun _ => by omega) hundone⟩
  | cons q rest =>
    have hq : Free L k q := mem_freePages.mp (hpages ▸ List.mem_cons_self)
    have hqal := hq.1.aligned
    rw [kalloc_cons hpages]
    have htake := h.building.take hq
    have hpa : it.pa (k.take q).mem = p := (sees_frame (hs.sees hlow hnew hsame
      (htake.sameTables hs hs.live)) hrange hp
      (((htake.sameTables hs hs.live).leaf n).trans hentry)).2.2
    have hused := hs.inv.not_free hs.live (holds_of_entry hrange hp hentry)
    obtain ⟨hb, htables, hkept, hbytes⟩ := h.building.copyFrame hq hp.aligned hused
    have hempty : lf (n * 4096 / 4096) = 0 := by
      rw [hdiv, h.rest n fun hnot => Nat.lt_irrefl n hnot.1, kernelEntry_of_user hrange]
    have hrest : freePages L ((k.take q).memcpy q p PAGESIZE) = rest :=
      (freePages_congr rfl).trans (freePages_take hpages)
    simp only [hpa]
    rw [show PTE_P ||| PTE_U ||| PTE_W = framePerm true from rfl]
    rcases hb.tryMapFrame (htables.lowTables h.tables) (Nat.mul_mod_left n 4096)
      (by rw [hdiv]; exact hrange) hempty hq.1 true (fun _ _ => Int.le_refl 0)
      with ⟨k₁, l, hrun, hlen, hmaps, hlow₁, hb₁⟩ | ⟨k₁, hrun, hlack, hnil, -, hb₁⟩
    · rw [hdiv] at hb₁
      have hdrop : freePages L k₁ = (freePages L k).drop (l.length + 1) := by
        rw [hpages, List.drop_succ_cons, ← hrest, hmaps.drawn.order, List.drop_left' rfl]
      have hle : l.length + 1 ≤ (freePages L k).length := by
        rw [hpages, List.length_cons, ← hrest, hmaps.drawn.order, List.length_append]
        omega
      obtain ⟨hfree, hroom⟩ := h.drops hle (show _ = 4 + ownPages k₀ (n + 1) +
          if hasHigh k₀ (n + 1) = true then 1 else 0 by
        rw [hlen, lacking_page, hown, hhigh]
        cases hasHigh k₀ n <;> by_cases hle : 0x200 ≤ n <;> simp [hle] <;> omega)
      refine .inl ⟨k₁, by rw [hrun]; rfl, _, h.next hrange hb₁ (hkept.trans hmaps.extends) ?_ ?_
        (hdrop.trans hfree) hroom⟩
      · rw [hentry]
        refine .copied hp (h.building.free_of hq) fun i hi => ?_
        have hnot := (hb₁.mapped hrange hq.1 (Function.update_self _ _ _)).2
        rw [hmaps.mem q hqal hnot i hi]
        exact hbytes i hi
      · rw [hhigh]
        have hiff : 0x200000 ≤ n * 4096 ↔ 0x200 ≤ n := by omega
        simp only [hiff] at hlow₁
        exact hlow₁
    · -- the frame was the last page, and stays taken
      obtain ⟨k₂, habandon, hundone⟩ := hb₁.abandon hs.inv (h.droppable hs) fun r hr => by
        rw [if_neg fun heq : r = q => hr (heq ▸ h.building.free_of hq), Int.add_zero]
      obtain ⟨hbefore, hle⟩ := lacking_eq_one hlack
      have hle : 0x200 ≤ n := by omega
      have hlen := h.length_eq
      rw [hrest] at hnil
      rw [hbefore, if_neg Bool.false_ne_true, hpages, List.length_cons, hnil,
        List.length_nil] at hlen
      have hmono := ownPages_mono (k := k₀) (show n + 1 ≤ 0x300 from hlt)
      refine .inr ⟨-1, k₂, ?_, rfl, by omega, .inr
        ⟨q, h.building.free_of hq, ?_, ?_, n, hle, hlt, ?_, ?_⟩⟩
      · rw [hrun]
        exact habandon
      · simpa only [Int.zero_add] using hundone
      · rw [ownPages_low hle hbefore] at hlen
        omega
      · rw [hview]
        rfl
      · intro m hm hmn
        by_contra hsome
        have htrue : hasHigh k₀ n = true :=
          hasHigh_iff.mpr ⟨m, hmn, hm, Option.isSome_iff_ne_none.mpr hsome⟩
        rw [hbefore] at htrue
        cases htrue

/-- A page of the parent. -/
theorem Forking.round (h : Forking L k₀ k pt n lf) (hs : CanFork L k₀) (hn : n < 768)
    (hnew : VmIter.new k.mem (k₀.root k₀.current) (n * 4096) = .ok it)
    (hsees : VmIter.Sees k.mem (k₀.root k₀.current) (n * 4096) it) :
    RoundEnds L k₀ pt n (forkUserPage L pt it k) := by
  rcases hs.space.entries n with hkernel | ⟨hrange, p, w, hp, hentry⟩
  · exact h.roundKernel hs hn hsees hkernel
  · cases w with
    | false => exact h.roundShared hs hrange hnew hp hentry
    | true => exact h.roundCopied hs hrange hnew hp hentry

/-! ## The loop -/

/-- **The loop of `fork`** goes through, or fails for want of a page. -/
theorem Forking.loop (h : Forking L k₀ k pt 0 lf) (hs : CanFork L k₀) :
    LoopEnds (forPages (k₀.root k₀.current) 0 MEMSIZE_VIRTUAL (forkUserPage L pt) k)
      (fun k' => ∃ lf, Forking L k₀ k' pt 768 lf) fun r k' => r = -1 ∧ ForkFailed L k₀ k' := by
  let I : Nat → Kernel → Prop := fun va k' => ∃ lf, Forking L k₀ k' pt (va / 4096) lf
  refine forPages_rule (I := I) hs.space.tree (fun _ _ _ => .inl hs.space.noLarge)
    (fun va k' hI => ?_) (fun va k' it _ hlimit hva hI hnew hsees => ?_) rfl rfl (Nat.zero_le _)
    (Nat.le_refl _) ⟨lf, h⟩
  · obtain ⟨lf, hI⟩ := hI
    exact hI.building.sameTables hs hs.live
  · obtain ⟨lf, hI⟩ := hI
    have hlimit : va < 0x300000 := hlimit
    have hmul : va / 4096 * 4096 = va := by omega
    have hround := hI.round hs (show va / 4096 < 768 by omega) (by rw [hmul]; exact hnew)
      (by rw [hmul]; exact hsees)
    have hnext : (va + 4096) / 4096 = va / 4096 + 1 := Nat.add_div_right va (by decide)
    simp only [I, hnext]
    exact hround

/-- The table before the loop, with the kernel's pages and the console. -/
theorem Forking.start (hb : Building L k₀ k pt kernelEntry fun _ => 0)
    (htables : LowTables k.mem pt false) (hfree : freePages L k = (freePages L k₀).drop 4)
    (hroom : 4 ≤ (freePages L k₀).length) : Forking L k₀ k pt 0 kernelEntry where
  building := hb
  below := fun vpn hvpn => absurd hvpn (Nat.not_lt_zero vpn)
  rest := fun _ _ => rfl
  tables := htables
  free := hfree
  room := hroom

/-- **The child's page table**, begun in the state `k₀`. -/
theorem forkPagetable_spec {l : List Nat} (hs : CanFork L k₀) (hfirst : freePages L k₀ = pt :: l)
    (hb : Building L k₀ k pt (fun _ => 0) fun _ => 0) (hroot : RootOnly k.mem pt)
    (hfree : freePages L k = l) :
    LoopEnds (forkPagetable L pt k) (fun k' => ∃ lf, Forking L k₀ k' pt 768 lf)
      fun r k' => r = -1 ∧ ForkFailed L k₀ k' := by
  have hparent : k.cur.pagetable = k₀.root k₀.current := by
    rw [Kernel.cur, hb.ptable, hb.current]
  rw [forkPagetable]
  simp only [hparent]
  rcases forkKernelPages_spec hs hb hroot with
    ⟨hthree, k₁, hrun, hb₁, htables, hdrop⟩ | ⟨hfew, k₁, hrun, hundone⟩
  · obtain ⟨k₂, hconsole, hb₂, htables₂, hsame⟩ := hb₁.tryMapConsole htables
    have hroom : 4 ≤ (freePages L k₀).length := by
      rw [hfirst, List.length_cons, ← hfree]
      exact Nat.succ_le_succ hthree
    have hdrop₂ : freePages L k₂ = (freePages L k₀).drop 4 := by
      rw [hsame, hdrop, hfree, hfirst, List.drop_succ_cons]
    rw [hrun]
    simp only [ok_bind, Option.isSome_none, Bool.false_eq_true, if_false, hconsole, Int.lt_irrefl]
    exact (Forking.start hb₂ htables₂ hdrop₂ hroom).loop hs
  · rw [hrun]
    have hlen : (freePages L k₀).length < 4 := by
      rw [hfirst, List.length_cons, ← hfree]
      omega
    exact .inr ⟨-1, k₁, rfl, rfl, by omega, .inl ⟨hundone, not_leavesPage_of_lt (by omega)⟩⟩

end

end SystemsProjects.WeensyOS
