/-
SystemsProjects.WeensyOS.IteratorMoves — a `vmiter` that is moved about.

Over a table that is not modified, a `vmiter` that has not reached the end
is always the iterator a new walk for its address gives
(`realFind_eq_new`), whichever of its members moved it (`Fresh.run`). The
addresses of its mapping range are all mapped by one entry
(`Fresh.sameRange`), so `next` and `next_range` pass over no present page.
-/
import SystemsProjects.WeensyOS.TableWalk

namespace SystemsProjects.WeensyOS

open SystemsProjects.Base
open SystemsProjects.Base.RadixTree

namespace VmIter

/-! ## Moves -/

/-- The members that move an iterator. -/
inductive Move where
  | find (va : UInt64)
  | add (delta : Int)
  | sub (delta : Int)
  | next
  | nextRange

def Move.apply (mem : ByteMem) : Move → VmIter → Except Fault VmIter
  | .find va, it => it.find mem va.toNat
  | .add delta, it => it.add mem delta
  | .sub delta, it => it.sub mem delta
  | .next, it => it.next mem
  | .nextRange, it => it.nextRange mem

/-- Moves in order, as long as the end is not reached. -/
def run (mem : ByteMem) : List Move → VmIter → Except Fault VmIter
  | [], it => .ok it
  | m :: moves, it =>
    if it.done = true then .ok it
    else do
      let it ← m.apply mem it
      run mem moves it

/-- All physical addresses in the table are below 4 GB. -/
def LowEntries (mem : ByteMem) (root : Nat) : Prop :=
  ∀ p, IsTable mem root p → ∀ i < 512, entry mem p i &&& PTE_PAMASK < 2 ^ 32

section

variable {mem : ByteMem} {pt va a : Nat} {it : VmIter}

/-- A walk over low addresses does not panic. -/
theorem exists_new (hlow : LowEntries mem pt) (va : Nat) : ∃ it, new mem pt va = .ok it := by
  by_cases hcanon : vaIsCanonical va = true
  · have hroot : nodeAt (child mem) 512 pt 0 (slot 0 va) = some pt := by
      rw [slot_zero, nodeAt_root]
    obtain ⟨d, p, m, hstop, hdown, -⟩ := down_stops initial_perm (Nat.zero_le 3) hroot
    have hp := hlow p ⟨d, hstop.depth, _, hstop.node⟩ _ (entryIndex_lt va (39 - 9 * d))
    rw [if_neg (not_panics hp d)] at hdown
    exact ⟨_, (new_of_canonical mem pt hcanon).trans hdown⟩
  · exact ⟨_, new_of_not_canonical mem pt hcanon⟩

/-! ## Fresh iterators -/

/-- The iterator is the one a new walk for its address gives. -/
structure Fresh (mem : ByteMem) (pt : Nat) (it : VmIter) : Prop where
  va_lt : it.va_ < 2 ^ 64
  new_eq : new mem pt it.va_ = .ok it

theorem va_of_new (h : new mem pt va = .ok it) : it.va_ = va := by
  by_cases hcanon : vaIsCanonical va = true
  · rw [new_of_canonical mem pt hcanon, down] at h
    split at h
    · cases h
    · cases h
      exact (downLoop_fields _ _).1
  · rw [new_of_not_canonical mem pt hcanon] at h
    cases h
    rfl

theorem fresh_of_new (hva : va < 2 ^ 64) (h : new mem pt va = .ok it) : Fresh mem pt it := by
  obtain rfl := va_of_new h
  exact ⟨hva, h⟩

/-- What a walk leaves: the address is canonical and the loop has ended,
or it is not and there is no entry. -/
theorem Fresh.cases (h : Fresh mem pt it) :
    (vaIsCanonical it.va_ = true ∧ it = downLoop mem 39 (start pt it.va_) ∧ it.lbits_ ≤ 39 ∧
      down mem (start pt it.va_) = .ok it) ∨
    (¬ vaIsCanonical it.va_ = true ∧
      it = { pt_ := pt, pep_ := none, lbits_ := 47, perm_ := 0, va_ := it.va_ }) := by
  by_cases hcanon : vaIsCanonical it.va_ = true
  · have hnew := h.new_eq
    rw [new_of_canonical mem pt hcanon] at hnew
    have hloop : it = downLoop mem 39 (start pt it.va_) := by
      rw [down] at hnew
      split at hnew
      · cases hnew
      · exact (Except.ok.inj hnew).symm
    refine .inl ⟨hcanon, hloop, ?_, hnew⟩
    rw [hloop]
    exact lbits_downLoop_le 39 _
  · have hnew := h.new_eq
    rw [new_of_not_canonical mem pt hcanon] at hnew
    exact .inr ⟨hcanon, (Except.ok.inj hnew).symm⟩

theorem Fresh.not_done (h : Fresh mem pt it) : ¬ it.done = true := by
  rw [done, decide_eq_true_eq]
  rcases h.cases with ⟨-, -, hle, -⟩ | ⟨-, heq⟩
  · exact Nat.ne_of_lt (Nat.lt_of_le_of_lt hle (by decide))
  · rw [heq]
    show ¬ 47 = 64
    decide

/-! ## Mapping ranges -/

theorem placed_downLoop (hplaced : Placed it) (n : Nat) : Placed (downLoop mem n it) := by
  induction n generalizing it with
  | zero => exact hplaced
  | succ n ih =>
    by_cases h : Descends mem it
    · rw [downLoop_of_descends n h]
      exact ih placed_below
    · rw [downLoop_of_not_descends _ h]
      exact hplaced

theorem not_descends_downLoop {n : Nat} (hn : it.lbits_ ≤ n) :
    ¬ Descends mem (downLoop mem n it) := by
  induction n generalizing it with
  | zero =>
    intro h
    have hgt : it.lbits_ > 12 := h.1
    omega
  | succ n ih =>
    by_cases h : Descends mem it
    · have hgt : it.lbits_ > 12 := h.1
      have hlbits : (below mem it).lbits_ = it.lbits_ - 9 := rfl
      rw [downLoop_of_descends n h]
      exact ih (by omega)
    · rwa [downLoop_of_not_descends _ h]

/-- Addresses that differ from that of the iterator in the bits below its
level only have its entry. -/
theorem Fresh.sameRange (h : Fresh mem pt it) (hpt : pt % 4096 = 0) (ha : a < 2 ^ 64)
    (hsame : it.va_ / 2 ^ it.lbits_ = a / 2 ^ it.lbits_) :
    new mem pt a = .ok { it with va_ := a } := by
  rcases h.cases with ⟨hcanon, hloop, hle, hdown⟩ | ⟨hnot, heq⟩
  · have hcanon' : vaIsCanonical a = true := by
      rw [vaIsCanonical_iff h.va_lt] at hcanon
      rw [vaIsCanonical_iff ha, ← div_pow_congr hsame (by omega)]
      exact hcanon
    have hplaced : Placed it := hloop ▸ placed_downLoop (placed_start hpt it.va_) 39
    have hrepoint : repoint a it = { it with va_ := a } := by
      obtain ⟨p, -, hpep, hpep'⟩ := repoint_pep hplaced a
      have hindex : entryIndex a it.lbits_ = entryIndex it.va_ it.lbits_ :=
        (entryIndex_congr hsame (Nat.le_refl _)).symm
      rw [hindex, ← hpep] at hpep'
      rw [show repoint a it = { it with pep_ := (repoint a it).pep_, va_ := a } from rfl, hpep']
    have hwalk : downLoop mem 39 (start pt a) = { it with va_ := a } := by
      have hmoved : downLoop mem 39 (repoint a (start pt it.va_)) =
          downLoop mem 39 (repoint a (downLoop mem 39 (start pt it.va_))) :=
        downLoop_repoint (placed_start hpt it.va_) (Nat.le_refl 39) (by
          rw [show (start pt it.va_).va_ = it.va_ from rfl, ← hloop]
          exact div_pow_congr hsame (Nat.le_add_right _ 9))
      have hstop : ¬ Descends mem it := hloop ▸ not_descends_downLoop (Nat.le_refl 39)
      rw [repoint_start hpt, ← hloop, hrepoint] at hmoved
      rw [hmoved]
      exact downLoop_of_not_descends _ hstop
    rw [new_of_canonical mem pt hcanon', down, show (start pt a).lbits_ = 39 from rfl, hwalk]
    rw [down, show (start pt it.va_).lbits_ = 39 from rfl, ← hloop] at hdown
    have hpanic : ¬ (it.pe mem &&& PTE_PAMASK ≥ 0x100000000 ∧
        it.lbits_ < PAGEOFFBITS + 2 * PAGEINDEXBITS) := by
      intro hpanic
      rw [if_pos hpanic] at hdown
      cases hdown
    exact if_neg hpanic
  · have hnot' : ¬ vaIsCanonical a = true := by
      rw [show it.lbits_ = 47 by rw [heq]] at hsame
      rw [vaIsCanonical_iff h.va_lt] at hnot
      rwa [vaIsCanonical_iff ha, ← hsame]
    rw [new_of_not_canonical mem pt hnot', heq]

theorem ceil_le {l : Nat} (hva : va < 2 ^ 64) (hl : l ≤ 64) :
    (va / 2 ^ l + 1) * 2 ^ l ≤ 2 ^ 64 := by
  have hsplit : 2 ^ 64 = 2 ^ (64 - l) * 2 ^ l := by rw [← Nat.pow_add, Nat.sub_add_cancel hl]
  rw [hsplit] at hva ⊢
  exact Nat.mul_le_mul_right _ (Nat.div_lt_of_lt_mul (Nat.mul_comm _ _ ▸ hva))

/-- The addresses up to the next multiple of `2 ^ l`. -/
theorem div_eq_of_lt_ceil {l : Nat} (hle : va ≤ a) (hlt : a < (va / 2 ^ l + 1) * 2 ^ l) :
    va / 2 ^ l = a / 2 ^ l :=
  Nat.le_antisymm (Nat.div_le_div_right hle)
    (Nat.le_of_lt_succ (Nat.div_lt_of_lt_mul (Nat.mul_comm _ _ ▸ hlt)))

theorem lt_ceil (va l : Nat) : va < (va / 2 ^ l + 1) * 2 ^ l := by
  rw [Nat.mul_comm]
  exact Nat.lt_mul_div_succ va (Nat.two_pow_pos l)

/-- The range ends at `last_va`, or with the address space. -/
theorem Fresh.range (h : Fresh mem pt it) :
    0 < it.rangeSize ∧ it.va_ + it.rangeSize ≤ 2 ^ 64 ∧
      it.lastVa = (it.va_ + it.rangeSize) % 2 ^ 64 := by
  have hva := h.va_lt
  rcases h.cases with ⟨-, -, hle, -⟩ | ⟨hnot, heq⟩
  · have hlast : it.lastVa = (it.va_ / 2 ^ it.lbits_ + 1) * 2 ^ it.lbits_ % 2 ^ 64 := by
      rw [lastVa, if_neg (Nat.ne_of_lt (Nat.lt_of_le_of_lt hle (by decide))), or_lbitsMask]
    have hceil := ceil_le hva (show it.lbits_ ≤ 64 by omega)
    have hlt := lt_ceil it.va_ it.lbits_
    have hshort : (it.va_ / 2 ^ it.lbits_ + 1) * 2 ^ it.lbits_ ≤ it.va_ + 2 ^ 39 := by
      have hdiv := Nat.div_mul_le_self it.va_ (2 ^ it.lbits_)
      have hpow : 2 ^ it.lbits_ ≤ 2 ^ 39 := Nat.pow_le_pow_right Nat.two_pos hle
      rw [Nat.add_mul, Nat.one_mul]
      omega
    rw [rangeSize, hlast]
    omega
  · have hlast : it.lastVa = 2 ^ 64 - 2 ^ 47 := by
      rw [lastVa, if_pos (by rw [heq])]
      rfl
    rw [canonical_iff hva] at hnot
    rw [rangeSize, hlast]
    omega

/-! ## Where a move leads -/

/-- A step to `va`, or to the end if `va` is 0. -/
theorem Fresh.realFind_stepping (h : Fresh mem pt it) (hpt : pt % 4096 = 0)
    (hlow : LowEntries mem pt) (hva : va < 2 ^ 64) :
    ∃ it', realFind mem va true it = .ok it' ∧
      (va = 0 ∧ it'.done = true ∨ va ≠ 0 ∧ it'.va_ = va ∧ Fresh mem pt it') := by
  by_cases hzero : va = 0
  · subst hzero
    refine ⟨{ it with lbits_ := done_lbits, perm_ := 0, pep_ := none, va_ := 0 }, ?_,
      .inl ⟨rfl, rfl⟩⟩
    simp [realFind, down, downLoop, pe, Nat.zero_and]
  · have hfind : realFind mem va true it = realFind mem va false it := by
      simp [realFind, hzero]
    obtain ⟨it', hnew⟩ := exists_new hlow va
    refine ⟨it', ?_, .inr ⟨hzero, va_of_new hnew, fresh_of_new hva hnew⟩⟩
    rw [hfind, realFind_eq_new hpt h.va_lt hva h.new_eq, hnew]

theorem Fresh.find (h : Fresh mem pt it) (hpt : pt % 4096 = 0) (hlow : LowEntries mem pt)
    (hva : va < 2 ^ 64) : ∃ it', it.find mem va = .ok it' ∧ Fresh mem pt it' := by
  obtain ⟨it', hnew⟩ := exists_new hlow va
  refine ⟨it', ?_, fresh_of_new hva hnew⟩
  rw [find_eq_new hpt h.va_lt hva h.new_eq rfl, hnew]

theorem vaPlus_lt (va : Nat) (delta : Int) : vaPlus va delta < 2 ^ 64 := by
  rw [vaPlus]
  omega

/-- **Every move** leads to the end or to a fresh iterator. -/
theorem Fresh.apply (h : Fresh mem pt it) (hpt : pt % 4096 = 0) (hlow : LowEntries mem pt)
    (m : Move) : ∃ it', m.apply mem it = .ok it' ∧ (it'.done = true ∨ Fresh mem pt it') := by
  have hstep : ∀ {va}, va < 2 ^ 64 →
      ∃ it', realFind mem va true it = .ok it' ∧ (it'.done = true ∨ Fresh mem pt it') := by
    intro va hva
    obtain ⟨it', hrun, hend⟩ := h.realFind_stepping hpt hlow hva
    exact ⟨it', hrun, hend.imp And.right fun hfresh => hfresh.2.2⟩
  cases m with
  | find va =>
    obtain ⟨it', hrun, hfresh⟩ := h.find hpt hlow va.toNat_lt
    exact ⟨it', hrun, .inr hfresh⟩
  | add delta =>
    obtain ⟨it', hrun, hfresh⟩ := h.find hpt hlow (vaPlus_lt it.va_ delta)
    exact ⟨it', hrun, .inr hfresh⟩
  | sub delta =>
    obtain ⟨it', hrun, hfresh⟩ := h.find hpt hlow (vaPlus_lt it.va_ (-delta))
    exact ⟨it', hrun, .inr hfresh⟩
  | next => exact hstep (Nat.mod_lt _ (by decide))
  | nextRange =>
    refine hstep ?_
    rw [h.range.2.2]
    exact Nat.mod_lt _ (by decide)

theorem Fresh.run (h : Fresh mem pt it) (hpt : pt % 4096 = 0) (hlow : LowEntries mem pt)
    (moves : List Move) :
    ∃ it', run mem moves it = .ok it' ∧ (it'.done = true ∨ Fresh mem pt it') := by
  induction moves generalizing it with
  | nil => exact ⟨it, rfl, .inr h⟩
  | cons m moves ih =>
    obtain ⟨it', hmove, hend⟩ := h.apply hpt hlow m
    rw [VmIter.run, if_neg h.not_done, hmove, ok_bind]
    rcases hend with hdone | hfresh
    · cases moves with
      | nil => exact ⟨it', rfl, .inl hdone⟩
      | cons m' moves => exact ⟨it', if_pos hdone, .inl hdone⟩
    · exact ih hfresh

/-! ## What a move passes over -/

/-- The addresses behind that of `it` and before that of `it'`. -/
def Passes (it it' : VmIter) (a : Nat) : Prop :=
  it.va_ < a ∧ a < 2 ^ 64 ∧ (it'.done = true ∨ a < it'.va_)

def Absent (mem : ByteMem) (pt a : Nat) : Prop :=
  ∃ it, new mem pt a = .ok it ∧ it.present mem = false

theorem Fresh.absent (h : Fresh mem pt it) (hpt : pt % 4096 = 0) (ha : a < 2 ^ 64)
    (hsame : it.va_ / 2 ^ it.lbits_ = a / 2 ^ it.lbits_) (hperm : it.perm mem = 0) :
    Absent mem pt a := by
  refine ⟨_, h.sameRange hpt ha hsame, ?_⟩
  have hperm : ({ it with va_ := a } : VmIter).perm mem = 0 := hperm
  rw [present, hasPerm, hperm]
  decide

/-- **`next`** passes over no present page but the one it starts in. -/
theorem Fresh.next (h : Fresh mem pt it) (hpt : pt % 4096 = 0) (hlow : LowEntries mem pt) :
    ∃ it', it.next mem = .ok it' ∧
      ∀ a, Passes it it' a → a / PAGESIZE ≠ it.va_ / PAGESIZE → Absent mem pt a := by
  -- up to the next multiple of `2 ^ l` the addresses share their upper bits
  have hreach : ∀ {l : Nat}, l ≤ 64 → ∃ it',
      realFind mem (((it.va_ ||| lbitsMask l) + 1) % 2 ^ 64) true it = .ok it' ∧
        ∀ a, Passes it it' a → it.va_ / 2 ^ l = a / 2 ^ l := by
    intro l hl
    rw [or_lbitsMask]
    obtain ⟨it', hrun, hend⟩ := h.realFind_stepping hpt hlow
      (Nat.mod_lt ((it.va_ / 2 ^ l + 1) * 2 ^ l) (show 0 < 2 ^ 64 by decide))
    refine ⟨it', hrun, fun a ⟨hva, ha, hbefore⟩ => div_eq_of_lt_ceil (Nat.le_of_lt hva) ?_⟩
    have hceil := ceil_le h.va_lt hl
    rcases hend with ⟨hzero, hdone⟩ | ⟨hne, hva', hfresh⟩
    · have := lt_ceil it.va_ l
      omega
    · have hbefore := hbefore.resolve_left hfresh.not_done
      rw [hva'] at hbefore
      omega
  rw [VmIter.next]
  split
  · rename_i hskip
    have hl : it.lbits_ ≤ 64 := by
      rcases h.cases with ⟨-, -, hle, -⟩ | ⟨-, heq⟩
      · omega
      · rw [heq]
        show 47 ≤ 64
        decide
    obtain ⟨it', hrun, hsame⟩ := hreach hl
    exact ⟨it', hrun, fun a ha _ => h.absent hpt ha.2.1 (hsame a ha) hskip.2⟩
  · obtain ⟨it', hrun, hsame⟩ := hreach (show PAGEOFFBITS ≤ 64 by decide)
    exact ⟨it', hrun, fun a ha hne => absurd (hsame a ha).symm hne⟩

/-- **`next_range`** passes over no address outside its range. -/
theorem Fresh.nextRange (h : Fresh mem pt it) (hpt : pt % 4096 = 0) (hlow : LowEntries mem pt) :
    ∃ it', it.nextRange mem = .ok it' ∧ ∀ a, Passes it it' a → a < it.va_ + it.rangeSize := by
  obtain ⟨hpos, hle, hlast⟩ := h.range
  rw [VmIter.nextRange, hlast]
  obtain ⟨it', hrun, hend⟩ := h.realFind_stepping hpt hlow
    (Nat.mod_lt (it.va_ + it.rangeSize) (show 0 < 2 ^ 64 by decide))
  refine ⟨it', hrun, fun a ⟨hva, ha, hbefore⟩ => ?_⟩
  rcases hend with ⟨hzero, hdone⟩ | ⟨hne, hva', hfresh⟩
  · omega
  · have hbefore := hbefore.resolve_left hfresh.not_done
    rw [hva'] at hbefore
    omega

/-! ## A moved iterator and a new one -/

/-- The iterator shows what a new one for its address shows, and goes on
without passing over a present page. -/
structure Agrees (mem : ByteMem) (pt : Nat) (it : VmIter) : Prop where
  lookup : ∃ it', new mem pt it.va_ = .ok it' ∧ it.pa mem = it'.pa mem ∧
    it.perm mem = it'.perm mem ∧ it.lastVa = it'.lastVa ∧ it.rangeSize = it'.rangeSize
  next : ∃ it', it.next mem = .ok it' ∧
    ∀ a, Passes it it' a → a / PAGESIZE ≠ it.va_ / PAGESIZE → Absent mem pt a
  nextRange : ∃ it', it.nextRange mem = .ok it' ∧
    ∀ a, Passes it it' a → ¬ a < it.va_ + it.rangeSize → Absent mem pt a

/-- **An iterator moved in any way** from any start agrees with a new one
until it reaches the end. -/
theorem run_agrees (hpt : pt % 4096 = 0) (hlow : LowEntries mem pt) (va : UInt64)
    (moves : List Move) :
    ∃ it, (new mem pt va.toNat >>= run mem moves) = .ok it ∧
      (it.done = true ∨ Agrees mem pt it) := by
  obtain ⟨it₀, hnew⟩ := exists_new hlow va.toNat
  have hfresh₀ : Fresh mem pt it₀ := fresh_of_new va.toNat_lt hnew
  obtain ⟨it, hrun, hend⟩ := hfresh₀.run hpt hlow moves
  refine ⟨it, by rw [hnew, ok_bind, hrun], hend.imp_right fun hfresh => ?_⟩
  obtain ⟨it', hnext, hpasses⟩ := hfresh.nextRange hpt hlow
  exact ⟨⟨it, hfresh.new_eq, rfl, rfl, rfl, rfl⟩, hfresh.next hpt hlow, it', hnext,
    fun a ha hout => absurd (hpasses a ha) hout⟩

end

end VmIter

end SystemsProjects.WeensyOS
