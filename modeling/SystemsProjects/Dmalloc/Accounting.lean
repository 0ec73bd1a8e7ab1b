/-
SystemsProjects.Dmalloc.Accounting — the counters and the leak report of
the debugging allocator.

The same facts are kept three times: in the counters, in `g_active`, and
in the headers between the client's own bytes. `Accounts` ties all three
to a log of the calls (`Site`: a block, and where it was allocated).
`accounts_of_logged` carries it through the runs of a client that frees
only what it holds and writes only inside its blocks.

Counters are 64-bit words. The number of outstanding blocks stays below
2^64, as the blocks lie apart in the address space
(`Books.length_live_lt`); the number of all blocks ever returned need not.
-/
import SystemsProjects.Dmalloc.NoFalseAlarms
import Mathlib.Data.List.Perm.Subperm
import Mathlib.Algebra.Order.Ring.Nat

namespace SystemsProjects.Dmalloc

open SystemsProjects.Base ByteMem

/-! ## The log -/

/-- A block that is outstanding, and the call that allocated it. -/
structure Site where
  block : Block
  file : Nat
  line : Nat
  deriving DecidableEq, Repr

/-- The header of the block names the call. -/
def Site.Named (mem : ByteMem) (site : Site) : Prop :=
  (readInfo mem (site.block.ptr - 48)).file = site.file ∧
    (readInfo mem (site.block.ptr - 48)).line = site.line

/-- The line of the leak report that accounts for the block. -/
def Site.leakLine (site : Site) : LeakLine :=
    ⟨site.file, site.line, site.block.ptr, site.block.size⟩

/-- The log after an allocation that returned `ptr`. -/
def recordCall (ptr sz file line : Nat) (log : List Site) : List Site :=
  if ptr = 0 then log else ⟨⟨ptr, sz⟩, wrap file, wrap line⟩ :: log

/-- The log after a step. -/
def Op.record (w : World) (log : List Site) : Op → List Site
  | .dmalloc sz file line b => recordCall (Dmalloc.dmalloc sz file line b w.s).1 sz file line log
  | .dcalloc nmemb sz file line b =>
    recordCall (Dmalloc.dcalloc nmemb sz file line b w.s).1 (nmemb * sz) file line log
  | .dfree ptr _ _ => log.filter fun site => site.block.ptr ≠ ptr
  | .write _ _ => log

/-- The runs of a well-behaved client, with the log of its calls. -/
inductive Logged (mem : ByteMem) : World → List Site → Prop
  | start : Logged mem (World.initial mem) []
  | step {w w' : World} {log : List Site} {op : Op} (h : Logged mem w log)
      (hadm : op.Admissible w) (hok : WellBehaved w op) (hw : w.step op = some w') :
      Logged mem w' (op.record w log)

theorem Logged.reaches {mem : ByteMem} {w : World} {log : List Site} (h : Logged mem w log) :
    Reaches WellBehaved mem w := by
  induction h with
  | start => exact .refl
  | step _ hadm hok hw ih => exact ih.tail ⟨_, hadm, hok, hw⟩

/-- Every run has a log. -/
theorem logged_of_reaches {mem : ByteMem} {w : World} (h : Reaches WellBehaved mem w) :
    ∃ log, Logged mem w log := by
  induction h with
  | refl => exact ⟨[], .start⟩
  | tail _ hstep ih =>
    obtain ⟨op, hadm, hok, hw⟩ := hstep
    obtain ⟨log, hlog⟩ := ih
    exact ⟨_, hlog.step hadm hok hw⟩

/-! ## The active map -/

namespace ActiveMap

/-- Ascending keys, each with the header in front of it. -/
structure Sorted (active : ActiveMap) : Prop where
  ascending : active.Pairwise fun a b => a.1 < b.1
  header : ∀ item ∈ active, item.2 = item.1 - 48

variable {active : ActiveMap} {key value : Nat}

theorem mem_assign {item : Nat × Nat} (h : item ∈ active.assign key value) :
    item = (key, value) ∨ item ∈ active := by
  induction active with
  | nil => exact .inl (List.mem_singleton.mp h)
  | cons head rest ih =>
    obtain ⟨k, v⟩ := head
    unfold assign at h
    split at h
    · exact List.mem_cons.mp h
    · split at h
      · exact (List.mem_cons.mp h).imp_right (List.mem_cons_of_mem _)
      · cases List.mem_cons.mp h with
        | inl he => exact .inr (he ▸ List.mem_cons_self)
        | inr hm => exact (ih hm).imp_right (List.mem_cons_of_mem _)

theorem ascending_assign (h : active.Pairwise fun a b => a.1 < b.1) :
    (active.assign key value).Pairwise fun a b => a.1 < b.1 := by
  induction active with
  | nil => exact List.pairwise_singleton _ _
  | cons head rest ih =>
    obtain ⟨k, v⟩ := head
    obtain ⟨hhead, hrest⟩ := List.pairwise_cons.mp h
    unfold assign
    split
    · rename_i hlt
      refine List.pairwise_cons.mpr ⟨List.forall_mem_cons.mpr ⟨hlt, fun item hitem => ?_⟩, h⟩
      exact Nat.lt_trans hlt (hhead item hitem)
    · split
      · rename_i he
        subst he
        exact List.pairwise_cons.mpr ⟨hhead, hrest⟩
      · rename_i hnlt hne
        refine List.pairwise_cons.mpr ⟨fun item hitem => ?_, ih hrest⟩
        cases mem_assign hitem with
        | inl he =>
          rw [he]
          show k < key
          omega
        | inr hm => exact hhead item hm

theorem Sorted.assign (h : active.Sorted) (hvalue : value = key - 48) :
    Sorted (active.assign key value) where
  ascending := ascending_assign h.ascending
  header := by
    intro item hitem
    cases mem_assign hitem with
    | inl he => rw [he]; exact hvalue
    | inr hm => exact h.header item hm

theorem Sorted.erase (h : active.Sorted) : Sorted (active.erase key) where
  ascending := h.ascending.filter _
  header := fun item hitem => h.header item (List.mem_of_mem_filter hitem)

end ActiveMap

/-! ## The accounts -/

/-- The total requested size of some blocks. -/
def totalRequested (blocks : List Block) : Nat := (blocks.map Block.size).sum

/-- The counters, the map and the headers agree with the log. -/
structure Accounts (w : World) (log : List Site) : Prop where
  live : log.map Site.block = w.live
  headers : ∀ site ∈ log, site.Named w.s.mem
  sorted : w.s.active.Sorted
  nactive : w.s.stats.nactive = wrap w.live.length
  activeSize : w.s.stats.activeSize = wrap (totalRequested w.live)
  ntotal : w.s.stats.ntotal = wrap w.returned.length
  totalSize : w.s.stats.totalSize = wrap (totalRequested w.returned)

theorem accounts_initial (mem : ByteMem) : Accounts (World.initial mem) [] where
  live := rfl
  headers := by simp
  sorted := ⟨List.Pairwise.nil, fun _ h => absurd h List.not_mem_nil⟩
  nactive := rfl
  activeSize := rfl
  ntotal := rfl
  totalSize := rfl

/-- Taking a block out of distinct blocks. -/
theorem perm_release {live : List Block} (hnd : (live.map Block.ptr).Nodup) {blk : Block}
    (hblk : blk ∈ live) : live.Perm (blk :: live.filter fun other => other.ptr ≠ blk.ptr) := by
  have herase : live.erase blk = live.filter fun other => other.ptr ≠ blk.ptr := by
    rw [hnd.of_map.erase_eq_filter]
    refine List.filter_congr fun other hother => ?_
    by_cases he : other = blk
    · simp [he]
    · have hptr : other.ptr ≠ blk.ptr := fun hp => he (List.inj_on_of_nodup_map hnd hother hblk hp)
      simp [he, hptr]
  rw [← herase]
  exact List.perm_cons_erase hblk

section Step

variable {w w' : World} {log : List Site}

/-- The log holds the live blocks. -/
theorem Accounts.mem_live (h : Accounts w log) {site : Site} (hsite : site ∈ log) :
    site.block ∈ w.live := by
  rw [← h.live]
  exact List.mem_map_of_mem hsite

/-- The headers of logged blocks that stay live are not touched. -/
theorem Accounts.headers_step (h : Accounts w log) (hs : Sound w) {op : Op}
    (hok : WellBehaved w op) (hstep : StepKind w w' op) {site : Site} (hsite : site ∈ log)
    (hlive : site.block ∈ w'.live) :
    site.Named w'.s.mem := by
  have hroom := (hs.books.placed _ (h.mem_live hsite)).room
  have hsame : readInfo w'.s.mem (site.block.ptr - 48) = readInfo w.s.mem (site.block.ptr - 48) :=
    readInfo_congr fun a h1 h2 =>
      hs.books.frame hok hstep (h.mem_live hsite) hlive h1 (by omega) (.inl (by omega))
  unfold Site.Named
  rw [hsame]
  exact h.headers site hsite

theorem Accounts.failed (h : Accounts w log) {s' : State} (hs : Fails w.s s') :
    Accounts ⟨s', w.live, w.returned⟩ log := by
  obtain ⟨nfail, failSize, rfl⟩ := hs
  exact ⟨h.live, h.headers, h.sorted, h.nactive, h.activeSize, h.ntotal, h.totalSize⟩

theorem Accounts.handedOut (h : Accounts w log) {s' : State} {blk : Block} {file line : Nat}
    (hs : HandsOut w.s s' blk) (hcall : NamesCall s'.mem blk.ptr file line)
    (hkept : ∀ site ∈ log, site.Named s'.mem) :
    Accounts ⟨s', blk :: w.live, blk :: w.returned⟩ (⟨blk, wrap file, wrap line⟩ :: log) where
  live := congrArg (blk :: ·) h.live
  headers := List.forall_mem_cons.mpr ⟨⟨hcall.file, hcall.line⟩, hkept⟩
  sorted := by
    dsimp only
    rw [hs.active]
    exact h.sorted.assign rfl
  nactive := by
    dsimp only
    rw [hs.stats]
    show wrap (w.s.stats.nactive + 1) = _
    rw [h.nactive, wrap_add, List.length_cons]
  activeSize := by
    dsimp only
    rw [hs.stats]
    show wrap (w.s.stats.activeSize + blk.size) = _
    rw [h.activeSize, wrap_add, totalRequested, Nat.add_comm]
    rfl
  ntotal := by
    dsimp only
    rw [hs.stats]
    show wrap (w.s.stats.ntotal + 1) = _
    rw [h.ntotal, wrap_add, List.length_cons]
  totalSize := by
    dsimp only
    rw [hs.stats]
    show wrap (w.s.stats.totalSize + blk.size) = _
    rw [h.totalSize, wrap_add, totalRequested, Nat.add_comm]
    rfl

/-- The counters after a release. -/
theorem release_stats (s : State) (ptr hdrPos n : Nat) :
    (release s ptr hdrPos n).stats =
      { nactive := wrap (s.stats.nactive + SIZE_MAX)
        activeSize := wrap (s.stats.activeSize + (2 ^ 64 - n))
        ntotal := s.stats.ntotal
        totalSize := s.stats.totalSize
        nfail := s.stats.nfail
        failSize := s.stats.failSize
        heapMin := s.stats.heapMin
        heapMax := s.stats.heapMax } := by
  obtain ⟨mem, ⟨nactive, activeSize, ntotal, totalSize, nfail, failSize, heapMin, heapMax⟩,
    active, base⟩ := s
  rfl

/-- A release subtracts one block and its size. -/
theorem Accounts.released (h : Accounts w log) (hs : Sound w) {blk : Block} (hblk : blk ∈ w.live)
    (hkept : ∀ site ∈ log, site.block.ptr ≠ blk.ptr →
      site.Named (release w.s blk.ptr (blk.ptr - 48) blk.size).mem) :
    Accounts ⟨release w.s blk.ptr (blk.ptr - 48) blk.size,
      w.live.filter fun other => other.ptr ≠ blk.ptr, w.returned⟩
      (log.filter fun site => site.block.ptr ≠ blk.ptr) := by
  have hperm := perm_release hs.books.nodup hblk
  have hlength := hperm.length_eq
  have htotal := (hperm.map Block.size).sum_nat
  have hsize : blk.size < 2 ^ 64 := by
    have := (hs.books.placed blk hblk).fits
    omega
  rw [List.length_cons] at hlength
  rw [List.map_cons, List.sum_cons] at htotal
  refine ⟨?_, ?_, h.sorted.erase, ?_, ?_, ?_, ?_⟩
  · rw [← h.live, List.filter_map]
    rfl
  · intro site hsite
    rw [List.mem_filter, decide_eq_true_eq] at hsite
    exact hkept site hsite.1 hsite.2
  · dsimp only
    rw [release_stats]
    dsimp only
    rw [h.nactive, wrap_add, hlength]
    unfold wrap SIZE_MAX
    omega
  · dsimp only
    rw [release_stats]
    dsimp only
    rw [h.activeSize, wrap_add, totalRequested, htotal]
    unfold wrap totalRequested
    omega
  · dsimp only
    rw [release_stats]
    exact h.ntotal
  · dsimp only
    rw [release_stats]
    exact h.totalSize

theorem mem_allocated {out : Nat × State} {sz : Nat} {blk : Block} (h : blk ∈ w.live) :
    blk ∈ (w.allocated out sz).live := by
  unfold World.allocated
  split
  · exact h
  · exact List.mem_cons_of_mem _ h

theorem accounts_allocated {out : Nat × State} {sz file line : Nat} (h : Accounts w log)
    (hcases : (out.1 = 0 ∧ Fails w.s out.2) ∨ (out.1 ≠ 0 ∧ HandsOut w.s out.2 ⟨out.1, sz⟩))
    (hcall : out.1 ≠ 0 → NamesCall out.2.mem out.1 file line)
    (hkept : ∀ site ∈ log, site.Named out.2.mem) :
    Accounts (w.allocated out sz) (recordCall out.1 sz file line log) := by
  obtain ⟨hzero, hfail⟩ | ⟨hne, hout⟩ := hcases
  · rw [World.allocated, recordCall, if_pos hzero, if_pos hzero]
    exact h.failed hfail
  · rw [World.allocated, recordCall, if_neg hne, if_neg hne]
    exact h.handedOut hout (hcall hne) hkept

/-- Every step of a well-behaved client keeps the accounts. -/
theorem accounts_step (h : Accounts w log) (hs : Sound w) {op : Op} (hadm : op.Admissible w)
    (hok : WellBehaved w op) (hw : w.step op = some w') : Accounts w' (op.record w log) := by
  have hkind := step_cases hadm hw
  have hkept : ∀ site ∈ log, site.block ∈ w'.live → site.Named w'.s.mem :=
    fun site hsite hlive => h.headers_step hs hok hkind hsite hlive
  cases op with
  | dmalloc sz file line b =>
    cases hw
    refine accounts_allocated h (dmalloc_cases _ _ hadm)
      (dmalloc_namesCall hadm) fun site hsite => ?_
    have hsame := hkept site hsite (mem_allocated (h.mem_live hsite))
    rwa [allocated_s] at hsame
  | dcalloc nmemb sz file line b =>
    cases hw
    refine accounts_allocated h (dcalloc_cases hadm) (dcalloc_namesCall hadm) fun site hsite => ?_
    have hsame := hkept site hsite (mem_allocated (h.mem_live hsite))
    rwa [allocated_s] at hsame
  | dfree ptr file line =>
    by_cases hne : ptr = 0
    · subst hne
      cases hw
      have hpos : ∀ blk ∈ w.live, blk.ptr ≠ 0 := by
        intro blk hblk
        have := (hs.books.placed blk hblk).room
        omega
      have hlive : w.live.filter (fun blk => blk.ptr ≠ 0) = w.live :=
        List.filter_eq_self.mpr fun blk hblk => decide_eq_true (hpos blk hblk)
      have hlog : log.filter (fun site => site.block.ptr ≠ 0) = log :=
        List.filter_eq_self.mpr fun site hsite => decide_eq_true (hpos _ (h.mem_live hsite))
      rw [Op.record, hlive, hlog]
      exact ⟨h.live, h.headers, h.sorted, h.nactive, h.activeSize, h.ntotal, h.totalSize⟩
    · obtain ⟨blk, hblk, rfl⟩ := List.mem_map.mp (hok.resolve_left hne)
      rw [World.step] at hw
      split at hw
      · cases hw
      rename_i msgs s' hfree
      have hrelease := dfree_returned hne hfree
      rw [(hs.books.hdrPos (List.mem_map_of_mem hblk)).2,
        (hs.intact blk hblk).allocSize] at hrelease
      subst hrelease
      cases hw
      refine h.released hs hblk fun site hsite hptr => hkept site hsite ?_
      exact List.mem_filter.mpr ⟨h.mem_live hsite, decide_eq_true hptr⟩
  | write addr data =>
    cases hw
    exact ⟨h.live, fun site hsite => hkept site hsite (h.mem_live hsite), h.sorted, h.nactive,
      h.activeSize, h.ntotal, h.totalSize⟩

end Step

theorem accounts_of_logged {mem : ByteMem} {w : World} {log : List Site} (h : Logged mem w log) :
    Accounts w log := by
  induction h with
  | start => exact accounts_initial mem
  | step hlog hadm hok hw ih => exact accounts_step ih (sound_of_reaches hlog.reaches) hadm hok hw

/-! ## The leak report -/

/-- The blocks in the map are the logged ones. -/
theorem Accounts.mem_active {w : World} {log : List Site} (h : Accounts w log) (hb : Books w)
    {item : Nat × Nat} :
    item ∈ w.s.active ↔ ∃ site ∈ log, item = (site.block.ptr, site.block.ptr - 48) := by
  constructor
  · intro hitem
    have hcount : w.s.active.count item.1 = true :=
      List.any_eq_true.mpr ⟨item, hitem, beq_self_eq_true _⟩
    obtain ⟨blk, hblk, hptr⟩ := List.mem_map.mp ((hb.active item.1).mp hcount)
    rw [← h.live] at hblk
    obtain ⟨site, hsite, rfl⟩ := List.mem_map.mp hblk
    exact ⟨site, hsite, Prod.ext hptr.symm (by rw [h.sorted.header item hitem, hptr])⟩
  · rintro ⟨site, hsite, rfl⟩
    have hcount := (hb.active site.block.ptr).mpr (List.mem_map_of_mem (h.mem_live hsite))
    obtain ⟨item, hitem, hkey⟩ := List.any_eq_true.mp hcount
    have hkey : item.1 = site.block.ptr := beq_iff_eq.mp hkey
    have hitem' : item = (site.block.ptr, site.block.ptr - 48) :=
      Prod.ext hkey (by rw [h.sorted.header item hitem, hkey])
    exact hitem' ▸ hitem

/-- A logged block's header reads back as its line of the report. -/
theorem Accounts.line_eq {w : World} {log : List Site} (h : Accounts w log) (hs : Sound w)
    {site : Site} (hsite : site ∈ log) :
    let info := readInfo w.s.mem (site.block.ptr - 48)
    LeakLine.mk info.file info.line site.block.ptr info.allocSize = site.leakLine := by
  obtain ⟨hfile, hline⟩ := h.headers site hsite
  have hsize := (hs.intact _ (h.mem_live hsite)).allocSize
  simp only [hfile, hline, hsize, Site.leakLine]

theorem Accounts.nodup_ptrs {w : World} {log : List Site} (h : Accounts w log) (hb : Books w) :
    ((log.map Site.leakLine).map LeakLine.ptr).Nodup := by
  have hptrs : (log.map Site.leakLine).map LeakLine.ptr = w.livePtrs := by
    rw [World.livePtrs, ← h.live, List.map_map, List.map_map]
    rfl
  rw [hptrs]
  exact hb.nodup

/-- The report lists the logged blocks. -/
theorem Accounts.mem_report {w : World} {log : List Site} (h : Accounts w log) (hs : Sound w)
    {l : LeakLine} : l ∈ printLeakReport w.s ↔ l ∈ log.map Site.leakLine := by
  unfold printLeakReport
  simp only [List.mem_map, List.mem_reverse, h.mem_active hs.books]
  constructor
  · rintro ⟨item, ⟨site, hsite, rfl⟩, rfl⟩
    exact ⟨site, hsite, (h.line_eq hs hsite).symm⟩
  · rintro ⟨site, hsite, rfl⟩
    exact ⟨_, ⟨site, hsite, rfl⟩, h.line_eq hs hsite⟩

theorem Accounts.nodup_report {w : World} {log : List Site} (h : Accounts w log) :
    ((printLeakReport w.s).map LeakLine.ptr).Nodup := by
  have hkeys : (printLeakReport w.s).map LeakLine.ptr = (w.s.active.map Prod.fst).reverse := by
    rw [printLeakReport, List.map_map, ← List.map_reverse]
    rfl
  rw [hkeys, List.nodup_reverse, List.Nodup, List.pairwise_map]
  exact h.sorted.ascending.imp fun hlt => Nat.ne_of_lt hlt

/-! ## The number of outstanding blocks -/

/-- Distinct pointers, all but 0, leave no room for 2^64 blocks. -/
theorem Books.length_live_lt {w : World} (h : Books w) : w.live.length < 2 ^ 64 := by
  have hsub : (0 :: w.livePtrs) ⊆ List.range (2 ^ 64) := by
    intro p hp
    rw [List.mem_range]
    cases List.mem_cons.mp hp with
    | inl he => rw [he]; exact Nat.two_pow_pos 64
    | inr hm =>
      obtain ⟨blk, hblk, rfl⟩ := List.mem_map.mp hm
      have := (h.placed blk hblk).fits
      omega
  have hnd : (0 :: w.livePtrs).Nodup := by
    refine List.nodup_cons.mpr ⟨fun hz => ?_, h.nodup⟩
    have := (h.hdrPos hz).1
    omega
  have hle := (List.subperm_of_subset hnd hsub).length_le
  rw [List.length_cons, List.length_range, World.livePtrs, List.length_map] at hle
  exact hle

/-- **The books balance**: in every world a well-behaved client reaches,
`nactive` and `active_size` are the number and the total size of the
outstanding blocks, `ntotal` and `total_size` those of all blocks ever
returned, as 64-bit words; the leak report has one line for each
outstanding block, with the file, line and size of its allocation; and
every block ever returned lies within the heap bounds. -/
theorem books_balance {mem : ByteMem} {w : World} {log : List Site} (h : Logged mem w log) :
    w.s.stats.nactive = w.live.length ∧
    w.s.stats.activeSize = wrap (totalRequested w.live) ∧
    w.s.stats.ntotal = wrap w.returned.length ∧
    w.s.stats.totalSize = wrap (totalRequested w.returned) ∧
    log.map Site.block = w.live ∧
    (printLeakReport w.s).Perm (log.map Site.leakLine) ∧
    ((printLeakReport w.s).map LeakLine.ptr).Nodup ∧
    ∀ blk ∈ w.returned, w.s.stats.heapMin ≤ blk.ptr ∧ blk.ptr + blk.size ≤ w.s.stats.heapMax := by
  have hacc := accounts_of_logged h
  have hs := sound_of_reaches h.reaches
  have hnactive : w.s.stats.nactive = w.live.length := by
    rw [hacc.nactive, wrap_of_lt hs.books.length_live_lt]
  have hperm : (printLeakReport w.s).Perm (log.map Site.leakLine) :=
    (List.perm_ext_iff_of_nodup hacc.nodup_report.of_map (hacc.nodup_ptrs hs.books).of_map).mpr
      fun _ => hacc.mem_report hs
  exact ⟨hnactive, hacc.activeSize, hacc.ntotal, hacc.totalSize, hacc.live, hperm,
    hacc.nodup_report, fun blk hblk => ⟨hs.books.heapMin blk hblk, hs.books.heapMax blk hblk⟩⟩

/-- Two blocks allocated, the first freed. -/
theorem books_balance_twoBlocks :
    ∃ w log, Logged (fun _ => 0) w log ∧ w.s.stats.nactive = w.live.length ∧
      w.live = [⟨256, 8⟩] ∧ (printLeakReport w.s).Perm [⟨5, 20, 256, 8⟩] := by
  have hfirst : (Op.dmalloc 24 5 10 ⟨16, fun _ => 0⟩).Admissible (World.initial fun _ => 0) :=
    .inr ⟨by decide, by decide, fun _ h => absurd h List.not_mem_nil⟩
  have h₁ := Logged.start.step hfirst trivial rfl
  have h₂ := h₁.step (show (Op.dmalloc 8 5 20 ⟨208, fun _ => 0⟩).Admissible _ from
    .inr ⟨by decide, by decide, by decide⟩) trivial rfl
  have h₃ := h₂.step (show (Op.dfree 64 5 30).Admissible _ from trivial) (.inr (by decide)) rfl
  have hbalance := books_balance h₃
  exact ⟨_, _, h₃, hbalance.1, rfl, hbalance.2.2.2.2.2.1⟩

end SystemsProjects.Dmalloc
