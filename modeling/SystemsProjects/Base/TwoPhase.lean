/-
SystemsProjects.Base.TwoPhase — two-phase locked calls are linearizable.

A call is two-phase (`Prog.TwoPhase`) under `Covers` when it first
acquires locks, then acts only on cells whose lock it holds (exclusively,
or shared if the action does not write), then releases everything and
returns.

`linearizable`: in every state any interleaving reaches there is one
order of the calls that took effect such that running them one after
another gives every returned result and, when no call is under way, the
cell contents. The order respects real time.

The linearization point of a call is the moment it holds its last lock.
From there on its outcome is fixed: the invariant keeps, beside the real
cells, the contents `abs` the order leads to, and says that a cell held
exclusively by a call that has been ordered is `abs` once the rest of
that call has run, and every other cell is `abs` already.
-/
import SystemsProjects.Base.LockProgram
import SystemsProjects.Base.Transducer
import Mathlib.Data.List.Nodup

namespace SystemsProjects.Base

variable {S : CellSpec} {Loc Cid ρ : Type}

/-! ## Effect of a working call -/

/-- An action that never writes its cell. -/
def CellSpec.ReadOnly (S : CellSpec) (a : S.Act) : Prop := ∀ v, (S.sem a v).2 = v

/-- The locks allow action `a` on cell `l`. -/
def Covers (S : CellSpec) (H : Held Loc) (l : Loc) (a : S.Act) : Prop :=
  (l, .exclusive) ∈ H ∨ ((l, .shared) ∈ H ∧ S.ReadOnly a)

namespace Prog

variable [DecidableEq Loc]

theorem Shrinks.eval {p : Prog S Loc ρ} {H : Held Loc} (h : p.Shrinks H) (M : Loc → S.Val) :
    (p.eval M).2 = M := by
  induction p generalizing H with
  | ret r => rfl
  | unlock l m k ih => exact ih h.2
  | lock l m k _ => exact absurd h id
  | act l a k _ => exact absurd h id

/-- A working call writes only cells it holds exclusively. -/
theorem Works.eval_frame {p : Prog S Loc ρ} {H : Held Loc} (h : p.Works (Covers S) H)
    (M : Loc → S.Val) {l : Loc} (hl : (l, LockMode.exclusive) ∉ H) : (p.eval M).2 l = M l := by
  induction p generalizing M with
  | ret r => rfl
  | unlock l' m k _ => rw [Shrinks.eval h]
  | lock l' m k _ => exact absurd h id
  | act l' a k ih =>
    obtain ⟨hc, hk⟩ := h
    rw [eval_act, ih _ (hk _)]
    by_cases heq : l = l'
    · subst heq
      rcases hc with hx | ⟨-, hro⟩
      · exact absurd hx hl
      · rw [Function.update_self, hro]
    · rw [Function.update_of_ne heq]

/-- A working call sees only cells it holds. -/
theorem Works.eval_congr {p : Prog S Loc ρ} {H : Held Loc} (h : p.Works (Covers S) H)
    {M M' : Loc → S.Val} (hM : ∀ l m, (l, m) ∈ H → M l = M' l) :
    (p.eval M).1 = (p.eval M').1 ∧
      ∀ l m, (l, m) ∈ H → (p.eval M).2 l = (p.eval M').2 l := by
  induction p generalizing H M M' with
  | ret r => exact ⟨rfl, hM⟩
  | unlock l m k ih =>
    have hk : k.Shrinks (H.filter (· ≠ (l, m))) := h.2
    have h1 := ih hk.works (fun l' m' hm => hM l' m' (List.mem_of_mem_filter hm))
    refine ⟨h1.1, fun l' m' hm => ?_⟩
    rw [Shrinks.eval h, Shrinks.eval h]
    exact hM l' m' hm
  | lock l m k _ => exact absurd h id
  | act l a k ih =>
    obtain ⟨hc, hk⟩ := h
    have hl : M l = M' l := by
      rcases hc with hx | ⟨hs, -⟩
      · exact hM l _ hx
      · exact hM l _ hs
    simp only [eval_act, hl]
    apply ih _ (hk _)
    intro l' m' hm
    by_cases heq : l' = l
    · subst heq; simp
    · rw [Function.update_of_ne heq, Function.update_of_ne heq]
      exact hM l' m' hm

end Prog

/-! ## Sequential histories -/

variable [DecidableEq Loc]

/-- Run one call after the other, each on its own. -/
def seqStep (prog : Cid → Prog S Loc ρ) (M : Loc → S.Val) (i : Cid) :
    (Cid × ρ) × (Loc → S.Val) :=
  ((i, ((prog i).eval M).1), ((prog i).eval M).2)

theorem run_append_singleton {σ ι α : Type} (step : σ → ι → α × σ) (s : σ) (is : List ι)
    (i : ι) :
    run step s (is ++ [i]) =
      ((run step s is).1 ++ [(step (run step s is).2 i).1], (step (run step s is).2 i).2) := by
  rw [run_append]
  rfl

/-! ## The invariant -/

/-- What the proof keeps beside the state: the locks of each call, the
calls that took effect in order, their results, and the contents that
order leads to. -/
structure Ghost (S : CellSpec) (Loc Cid ρ : Type) where
  held : Cid → Held Loc
  order : List Cid
  result : Cid → ρ
  abs : Loc → S.Val

structure Inv (prog : Cid → Prog S Loc ρ) (M₀ : Loc → S.Val) (c : Config S Loc Cid ρ)
    (g : Ghost S Loc Cid ρ) : Prop where
  owners : ∀ l i m, (i, m) ∈ c.mem.owners l ↔ (l, m) ∈ g.held i
  excl : ∀ l i j m, (l, LockMode.exclusive) ∈ g.held i → (l, m) ∈ g.held j → j = i
  idle : ∀ i, c.status i = .idle → g.held i = [] ∧ i ∉ g.order
  /-- Before its linearization point a call has only acquired locks. -/
  pending : ∀ i p, c.status i = .running p → i ∉ g.order →
    p.TwoPhase (Covers S) (g.held i) ∧ ∀ M, p.eval M = (prog i).eval M
  /-- After it, the rest of the call leads to `abs`. -/
  working : ∀ i p, c.status i = .running p → i ∈ g.order →
    p.Works (Covers S) (g.held i) ∧ (p.eval c.mem.val).1 = g.result i ∧
      ∀ l, (l, LockMode.exclusive) ∈ g.held i → (p.eval c.mem.val).2 l = g.abs l
  returned : ∀ i r, c.status i = .returned r → g.held i = [] ∧ i ∈ g.order ∧ r = g.result i
  free : ∀ l, (∀ i ∈ g.order, (l, LockMode.exclusive) ∉ g.held i) → c.mem.val l = g.abs l
  replay : run (seqStep prog) M₀ g.order = (g.order.map (fun i => (i, g.result i)), g.abs)
  nodup : g.order.Nodup
  realTime : ∀ i j, i ∈ c.seen j → i ∈ g.order ∧ (j ∈ g.order → [i, j].Sublist g.order)

/-- Every call past its last acquisition has been ordered. -/
def Settled (c : Config S Loc Cid ρ) (g : Ghost S Loc Cid ρ) : Prop :=
  ∀ i p, c.status i = .running p → ¬ p.Growing → i ∈ g.order

theorem inv_initial (prog : Cid → Prog S Loc ρ) (M₀ : Loc → S.Val) :
    Inv prog M₀ (Config.initial M₀)
      ⟨fun _ => [], [], fun i => ((prog i).eval M₀).1, M₀⟩ where
  owners := by simp [Config.initial]
  excl := by simp
  idle := by simp
  pending := by simp [Config.initial]
  working := by simp
  returned := by simp [Config.initial]
  free := by simp [Config.initial]
  replay := rfl
  nodup := List.nodup_nil
  realTime := by simp [Config.initial]

variable [DecidableEq Cid] {prog : Cid → Prog S Loc ρ} {M₀ : Loc → S.Val}
  {c c' : Config S Loc Cid ρ} {g : Ghost S Loc Cid ρ}

/-- The linearization point: a call that holds all its locks is ordered
last, with the result it has on the contents reached so far. -/
theorem Inv.commit (h : Inv prog M₀ c g) {i : Cid} {p : Prog S Loc ρ}
    (hrun : c.status i = .running p) (hnew : i ∉ g.order) (hg : ¬ p.Growing) :
    Inv prog M₀ c
      { g with order := g.order ++ [i],
               result := Function.update g.result i ((prog i).eval g.abs).1,
               abs := ((prog i).eval g.abs).2 } := by
  obtain ⟨htwo, hev⟩ := h.pending i p hrun hnew
  have hworks := htwo.works hg
  -- every cell the call holds is up to date: no ordered call holds it exclusively
  have hfresh : ∀ l m, (l, m) ∈ g.held i → c.mem.val l = g.abs l := fun l m hm =>
    h.free l fun j hj hx => hnew (h.excl l j i m hx hm ▸ hj)
  have hcongr := hworks.eval_congr hfresh
  have hframe : ∀ l, (l, LockMode.exclusive) ∉ g.held i →
      ((prog i).eval g.abs).2 l = g.abs l := fun l hl => by
    rw [← hev]; exact hworks.eval_frame _ hl
  have hres : ∀ j ∈ g.order, Function.update g.result i ((prog i).eval g.abs).1 j = g.result j :=
    fun j hj => Function.update_of_ne (fun he : j = i => hnew (he ▸ hj)) _ _
  refine ⟨h.owners, h.excl, ?_, ?_, ?_, ?_, ?_, ?_, ?_, ?_⟩
  · intro j hj
    refine ⟨(h.idle j hj).1, ?_⟩
    rw [List.mem_append, List.mem_singleton, not_or]
    refine ⟨(h.idle j hj).2, ?_⟩
    rintro rfl
    rw [hrun] at hj
    cases hj
  · intro j q hj hn
    exact h.pending j q hj fun hm => hn (List.mem_append_left _ hm)
  · intro j q hj hm
    by_cases hji : j = i
    · subst hji
      rw [hrun] at hj
      cases hj
      refine ⟨hworks, ?_, fun l hl => ?_⟩
      · rw [hcongr.1, hev]
        exact (Function.update_self j _ g.result).symm
      · rw [hcongr.2 l _ hl, hev]
    · have hmo : j ∈ g.order := by
        rcases List.mem_append.mp hm with h1 | h1
        · exact h1
        · exact absurd (List.mem_singleton.mp h1) hji
      obtain ⟨hw, hr, hx⟩ := h.working j q hj hmo
      refine ⟨hw, hr.trans (hres j hmo).symm, fun l hl => ?_⟩
      rw [hx l hl]
      exact (hframe l fun hli => hji (h.excl l i j _ hli hl)).symm
  · intro j r hj
    obtain ⟨h1, h2, h3⟩ := h.returned j r hj
    exact ⟨h1, List.mem_append_left _ h2, h3.trans (hres j h2).symm⟩
  · intro l hl
    have hli := hl i (List.mem_append_right _ (List.mem_singleton_self i))
    rw [h.free l fun j hj => hl j (List.mem_append_left _ hj)]
    exact (hframe l hli).symm
  · have hmap : g.order.map (fun j => (j, Function.update g.result i ((prog i).eval g.abs).1 j))
        = g.order.map (fun j => (j, g.result j)) :=
      List.map_congr_left fun j hj => by rw [hres j hj]
    simp only [run_append_singleton, h.replay, seqStep, List.map_append, hmap, List.map_cons,
      List.map_nil, Function.update_self]
  · exact List.nodup_append.mpr ⟨h.nodup, List.nodup_singleton i, by
      intro a ha b hb
      rw [List.mem_singleton.mp hb]
      rintro rfl
      exact hnew ha⟩
  · intro a b hab
    obtain ⟨ha, hsub⟩ := h.realTime a b hab
    refine ⟨List.mem_append_left _ ha, fun hb => ?_⟩
    rcases List.mem_append.mp hb with hb | hb
    · exact (hsub hb).trans (List.sublist_append_left _ _)
    · rw [List.mem_singleton.mp hb]
      exact (List.singleton_sublist.mpr ha).append (List.Sublist.refl [i])

/-- Ordering the one call that may have passed its last acquisition. -/
theorem Inv.settle (h : Inv prog M₀ c g) (i : Cid)
    (hs : ∀ j p, c.status j = .running p → ¬ p.Growing → j ≠ i → j ∈ g.order) :
    ∃ g', Inv prog M₀ c g' ∧ Settled c g' := by
  by_cases hi : ∃ p, c.status i = .running p ∧ ¬ p.Growing ∧ i ∉ g.order
  · obtain ⟨p, hrun, hg, hnew⟩ := hi
    refine ⟨_, h.commit hrun hnew hg, fun j q hj hq => ?_⟩
    by_cases hji : j = i
    · subst hji; exact List.mem_append_right _ (List.mem_singleton_self j)
    · exact List.mem_append_left _ (hs j q hj hq hji)
  · refine ⟨g, h, fun j q hj hq => ?_⟩
    by_cases hji : j = i
    · subst hji
      by_contra hn
      exact hi ⟨q, hj, hq, hn⟩
    · exact hs j q hj hq hji

/-! ## Steps -/

section

variable (h : Inv prog M₀ c g) (hs : Settled c g)

include h

theorem Inv.invoke (htwo : ∀ i, (prog i).TwoPhase (Covers S) []) {i : Cid}
    (hi : c.status i = .idle) :
    Inv prog M₀
      { c with status := Function.update c.status i (.running (prog i)),
               seen := Function.update c.seen i {j | ∃ r, c.status j = .returned r} } g := by
  obtain ⟨hheld, hnot⟩ := h.idle i hi
  refine ⟨h.owners, h.excl, ?_, ?_, ?_, ?_, h.free, h.replay, h.nodup, ?_⟩
  · intro j hj
    by_cases hji : j = i
    · subst hji; simp at hj
    · exact h.idle j (by simpa [hji] using hj)
  · intro j q hj hn
    by_cases hji : j = i
    · subst hji
      simp only [Function.update_self, Status.running.injEq] at hj
      subst hj
      rw [hheld]
      exact ⟨htwo j, fun _ => rfl⟩
    · exact h.pending j q (by simpa [hji] using hj) hn
  · intro j q hj hm
    have hji : j ≠ i := fun he => hnot (he ▸ hm)
    exact h.working j q (by simpa [hji] using hj) hm
  · intro j r hj
    by_cases hji : j = i
    · subst hji; simp at hj
    · exact h.returned j r (by simpa [hji] using hj)
  · intro a b hab
    by_cases hbi : b = i
    · subst hbi
      simp only [Function.update_self] at hab
      obtain ⟨r, hr⟩ := hab
      exact ⟨(h.returned a r hr).2.1, fun hb => absurd hb hnot⟩
    · exact h.realTime a b (by simpa [hbi] using hab)

theorem Inv.lock {i : Cid} {l : Loc} {m : LockMode} {k : Prog S Loc ρ}
    (hi : c.status i = .running (.lock l m k)) (hgr : Grants (c.mem.owners l) m) :
    Inv prog M₀
      { c with mem := c.mem.acquire i l m, status := Function.update c.status i (.running k) }
      { g with held := Function.update g.held i ((l, m) :: g.held i) } := by
  have hnot : i ∉ g.order := fun hm =>
    absurd trivial (h.working i _ hi hm).1.not_growing
  obtain ⟨⟨hfresh, htwo⟩, hev⟩ := h.pending i _ hi hnot
  have hmem : ∀ j l' m', (l', m') ∈ Function.update g.held i ((l, m) :: g.held i) j ↔
      (l', m') ∈ g.held j ∨ (l' = l ∧ j = i ∧ m' = m) := by
    intro j l' m'
    by_cases hji : j = i
    · subst hji
      simp only [Function.update_self, List.mem_cons, Prod.mk.injEq, true_and]
      exact or_comm
    · simp [hji]
  have hother : ∀ j ∈ g.order, Function.update g.held i ((l, m) :: g.held i) j = g.held j :=
    fun j hj => Function.update_of_ne (fun he : j = i => hnot (he ▸ hj)) _ _
  refine ⟨?_, ?_, ?_, ?_, ?_, ?_, ?_, h.replay, h.nodup, h.realTime⟩
  · intro l' j m'
    rw [hmem, Memory.mem_owners_acquire, h.owners]
  · -- the grant rule keeps exclusive owners alone
    intro l' a b m' ha hb
    rw [hmem] at ha hb
    rcases ha with ha | ⟨rfl, rfl, hm⟩
    · rcases hb with hb | ⟨rfl, rfl, rfl⟩
      · exact h.excl l' a b m' ha hb
      · have hown := (h.owners l' a .exclusive).mpr ha
        cases m' with
        | shared => exact absurd (hgr _ hown) (by simp)
        | exclusive => rw [show c.mem.owners l' = [] from hgr] at hown; cases hown
    · rcases hb with hb | ⟨-, rfl, -⟩
      · have hown := (h.owners l' b m').mpr hb
        rw [← hm] at hgr
        rw [show c.mem.owners l' = [] from hgr] at hown
        cases hown
      · rfl
  · intro j hj
    by_cases hji : j = i
    · subst hji; simp at hj
    · simp only [Function.update_of_ne hji] at hj ⊢
      exact h.idle j hj
  · intro j q hj hn
    by_cases hji : j = i
    · subst hji
      simp only [Function.update_self, Status.running.injEq] at hj ⊢
      subst hj
      exact ⟨htwo, hev⟩
    · simp only [Function.update_of_ne hji] at hj ⊢
      exact h.pending j q hj hn
  · intro j q hj hm
    have hji : j ≠ i := fun he => hnot (he ▸ hm)
    simp only [Function.update_of_ne hji] at hj ⊢
    exact h.working j q hj hm
  · intro j r hj
    by_cases hji : j = i
    · subst hji; simp at hj
    · simp only [Function.update_of_ne hji] at hj ⊢
      exact h.returned j r hj
  · intro l' hl'
    exact h.free l' fun j hj => by rw [← hother j hj]; exact hl' j hj

include hs

theorem Inv.act {i : Cid} {l : Loc} {a : S.Act} {k : S.Rep a → Prog S Loc ρ}
    (hi : c.status i = .running (.act l a k)) :
    Inv prog M₀
      { c with mem := c.mem.write l (S.sem a (c.mem.val l)).2,
               status := Function.update c.status i
                 (.running (k (S.sem a (c.mem.val l)).1)) } g := by
  have him : i ∈ g.order := hs i _ hi id
  obtain ⟨⟨hcov, hk⟩, hres, hx⟩ := h.working i _ hi him
  -- another call that holds the written cell sees it unchanged
  have hsame : ∀ j, j ≠ i → ∀ l' m', (l', m') ∈ g.held j →
      Function.update c.mem.val l (S.sem a (c.mem.val l)).2 l' = c.mem.val l' := by
    intro j hji l' m' hm
    by_cases hl : l' = l
    · subst hl
      rcases hcov with hxi | ⟨-, hro⟩
      · exact absurd (h.excl l' i j m' hxi hm) hji
      · rw [Function.update_self, hro]
    · rw [Function.update_of_ne hl]
  refine ⟨h.owners, h.excl, ?_, ?_, ?_, ?_, ?_, h.replay, h.nodup, h.realTime⟩
  · intro j hj
    by_cases hji : j = i
    · subst hji; simp at hj
    · exact h.idle j (by simpa [hji] using hj)
  · intro j q hj hn
    have hji : j ≠ i := fun he => hn (he ▸ him)
    exact h.pending j q (by simpa [hji] using hj) hn
  · intro j q hj hm
    by_cases hji : j = i
    · subst hji
      simp only [Function.update_self, Status.running.injEq] at hj
      subst hj
      exact ⟨hk _, hres, hx⟩
    · obtain ⟨hw, hr, hxj⟩ := h.working j q (by simpa [hji] using hj) hm
      have hcongr := hw.eval_congr (hsame j hji)
      exact ⟨hw, by rw [← hr]; exact hcongr.1, fun l' hl' => by
        rw [← hxj l' hl']; exact hcongr.2 l' _ hl'⟩
  · intro j r hj
    by_cases hji : j = i
    · subst hji; simp at hj
    · exact h.returned j r (by simpa [hji] using hj)
  · intro l' hl'
    rw [← h.free l' hl', Memory.write_val]
    by_cases hl : l' = l
    · subst hl
      rcases hcov with hxi | ⟨-, hro⟩
      · exact absurd hxi (hl' i him)
      · rw [Function.update_self, hro]
    · rw [Function.update_of_ne hl]

theorem Inv.unlock {i : Cid} {l : Loc} {m : LockMode} {k : Prog S Loc ρ}
    (hi : c.status i = .running (.unlock l m k)) :
    Inv prog M₀
      { c with mem := c.mem.release i l m, status := Function.update c.status i (.running k) }
      { g with held := Function.update g.held i ((g.held i).filter (· ≠ (l, m))) } := by
  have him : i ∈ g.order := hs i _ hi id
  obtain ⟨hshrink, hres, hx⟩ := h.working i _ hi him
  have hk : k.Shrinks ((g.held i).filter (· ≠ (l, m))) := hshrink.2
  have hmem : ∀ j l' m', (l', m') ∈ Function.update g.held i ((g.held i).filter (· ≠ (l, m))) j ↔
      (l', m') ∈ g.held j ∧ ¬ (l' = l ∧ j = i ∧ m' = m) := by
    intro j l' m'
    by_cases hji : j = i
    · subst hji; simp [imp_iff_not_or]
    · simp [hji]
  refine ⟨?_, ?_, ?_, ?_, ?_, ?_, ?_, h.replay, h.nodup, h.realTime⟩
  · intro l' j m'
    rw [hmem, Memory.mem_owners_release, h.owners]
  · intro l' a b m' ha hb
    exact h.excl l' a b m' ((hmem a l' _).mp ha).1 ((hmem b l' m').mp hb).1
  · intro j hj
    by_cases hji : j = i
    · subst hji; simp at hj
    · simp only [Function.update_of_ne hji] at hj ⊢
      exact h.idle j hj
  · intro j q hj hn
    have hji : j ≠ i := fun he => hn (he ▸ him)
    simp only [Function.update_of_ne hji] at hj ⊢
    exact h.pending j q hj hn
  · intro j q hj hm
    by_cases hji : j = i
    · subst hji
      simp only [Function.update_self, Status.running.injEq] at hj ⊢
      subst hj
      exact ⟨hk.works, hres, fun l' hl' => hx l' (List.mem_of_mem_filter hl')⟩
    · simp only [Function.update_of_ne hji] at hj ⊢
      exact h.working j q hj hm
  · intro j r hj
    by_cases hji : j = i
    · subst hji; simp at hj
    · simp only [Function.update_of_ne hji] at hj ⊢
      exact h.returned j r hj
  · -- a released cell was written back already
    intro l' hl'
    by_cases hxi : (l', LockMode.exclusive) ∈ g.held i
    · have := hx l' hxi
      rwa [Prog.Shrinks.eval hshrink] at this
    · refine h.free l' fun j hj hxj => ?_
      by_cases hji : j = i
      · exact hxi (hji ▸ hxj)
      · exact hl' j hj ((hmem j l' _).mpr ⟨hxj, fun he => hji he.2.1⟩)

theorem Inv.return {i : Cid} {r : ρ} (hi : c.status i = .running (.ret r)) :
    Inv prog M₀ { c with status := Function.update c.status i (.returned r) } g := by
  have him : i ∈ g.order := hs i _ hi id
  obtain ⟨hempty, hres, -⟩ := h.working i _ hi him
  refine ⟨h.owners, h.excl, ?_, ?_, ?_, ?_, h.free, h.replay, h.nodup, h.realTime⟩
  · intro j hj
    by_cases hji : j = i
    · subst hji; simp at hj
    · exact h.idle j (by simpa [hji] using hj)
  · intro j q hj hn
    have hji : j ≠ i := fun he => hn (he ▸ him)
    exact h.pending j q (by simpa [hji] using hj) hn
  · intro j q hj hm
    by_cases hji : j = i
    · subst hji; simp at hj
    · exact h.working j q (by simpa [hji] using hj) hm
  · intro j r' hj
    by_cases hji : j = i
    · subst hji
      simp only [Function.update_self, Status.returned.injEq] at hj
      subst hj
      exact ⟨hempty, him, hres⟩
    · exact h.returned j r' (by simpa [hji] using hj)

end

omit [DecidableEq Loc] in
/-- A step of call `i` leaves the other calls where they are. -/
theorem settled_of_step (hs : Settled c g) {i : Cid} {st : Status S Loc ρ} {j : Cid}
    {p : Prog S Loc ρ} (hj : Function.update c.status i st j = .running p) (hp : ¬ p.Growing)
    (hji : j ≠ i) : j ∈ g.order :=
  hs j p (by simpa [hji] using hj) hp

theorem inv_step (htwo : ∀ i, (prog i).TwoPhase (Covers S) [])
    (h : ∃ g, Inv prog M₀ c g ∧ Settled c g) (hstep : Config.Step prog c c') :
    ∃ g, Inv prog M₀ c' g ∧ Settled c' g := by
  obtain ⟨g, hinv, hs⟩ := h
  cases hstep with
  | invoke i hi =>
    exact (hinv.invoke htwo hi).settle i fun j p hj hp hji => settled_of_step hs hj hp hji
  | run i hrun hstep =>
    obtain ⟨l, m, rfl, hgr, rfl⟩ | ⟨l, m, rfl, rfl⟩ | ⟨l, a, k, rfl, rfl, rfl⟩ :=
      Prog.step_cases hstep
    · exact (hinv.lock hrun hgr).settle i fun j p hj hp hji => settled_of_step hs hj hp hji
    · exact (hinv.unlock hs hrun).settle i fun j p hj hp hji => settled_of_step hs hj hp hji
    · exact (hinv.act hs hrun).settle i fun j p hj hp hji => settled_of_step hs hj hp hji
  | «return» i hrun =>
    exact (hinv.return hs hrun).settle i fun j p hj hp hji => settled_of_step hs hj hp hji

/-! ## Linearizability -/

/-- Some order of calls explains the state: it contains every returned
call with its result, only calls that were made, respects real time, and
leads to the cell contents once no call is under way. -/
structure Explains (prog : Cid → Prog S Loc ρ) (M₀ : Loc → S.Val) (c : Config S Loc Cid ρ)
    (order : List Cid) : Prop where
  nodup : order.Nodup
  made : ∀ i ∈ order, c.status i ≠ .idle
  results : ∀ i r, c.status i = .returned r → (i, r) ∈ (run (seqStep prog) M₀ order).1
  realTime : ∀ i j, i ∈ c.seen j → j ∈ order → [i, j].Sublist order
  final : (∀ i p, c.status i ≠ .running p) → (run (seqStep prog) M₀ order).2 = c.mem.val

omit [DecidableEq Cid] in
theorem Inv.explains (h : Inv prog M₀ c g) : Explains prog M₀ c g.order where
  nodup := h.nodup
  made := fun i hi he => (h.idle i he).2 hi
  results := by
    intro i r hr
    obtain ⟨-, hm, hres⟩ := h.returned i r hr
    rw [h.replay]
    exact List.mem_map.mpr ⟨i, hm, by rw [hres]⟩
  realTime := fun i j hij hj => (h.realTime i j hij).2 hj
  final := by
    intro hquiet
    rw [h.replay]
    funext l
    refine (h.free l fun i hi hx => ?_).symm
    cases hst : c.status i with
    | idle => exact (h.idle i hst).2 hi
    | running p => exact hquiet i p hst
    | returned r => rw [(h.returned i r hst).1] at hx; cases hx

/-- **Two-phase locked calls are linearizable.** -/
theorem linearizable (htwo : ∀ i, (prog i).TwoPhase (Covers S) [])
    (hreach : Config.Reachable prog M₀ c) :
    ∃ order, Explains prog M₀ c order := by
  have hinv : ∃ g, Inv prog M₀ c g ∧ Settled c g := by
    refine Config.Reachable.invariant ⟨_, inv_initial prog M₀, ?_⟩
      (fun c c' h hstep => inv_step htwo h hstep) hreach
    intro i p hi
    simp [Config.initial] at hi
  obtain ⟨g, h, -⟩ := hinv
  exact ⟨g.order, h.explains⟩

end SystemsProjects.Base
