/-
SystemsProjects.WeensyOS.TableIteration — the loop over the pages of a
page table that the comment on `ptiter` gives.

The body of the loop may do what it likes to the page it is given: the
loop has read the page's entries by then, and does not read them again.
-/
import SystemsProjects.WeensyOS.Teardown

namespace SystemsProjects.WeensyOS

open SystemsProjects.Base
open SystemsProjects.Base.RadixTree

/-! ## The loop -/

/-- `for (ptiter it(pt); !it.done(); it.next()) { body }` from `it` on:
the pages `it.kptr()` given to the body, and the memory it leaves. -/
def forTablesLoop (body : Nat → ByteMem → ByteMem) :
    Nat → PtIter → ByteMem → Except Fault (List Nat × ByteMem)
  | 0, _, _ => .error .diverged
  | rounds + 1, it, mem =>
    if it.done = true then .ok ([], mem)
    else do
      let page := it.kptr mem
      let mem := body page mem
      let it ← it.next mem
      let (pages, mem) ← forTablesLoop body rounds it mem
      return (page :: pages, mem)

def forTables (body : Nat → ByteMem → ByteMem) (pt : Nat) (mem : ByteMem) :
    Except Fault (List Nat × ByteMem) := do
  let it ← PtIter.new mem pt
  forTablesLoop body tableRounds it mem

/-- The body changes no page but the one it is given. -/
def Confined (body : Nat → ByteMem → ByteMem) : Prop :=
  ∀ page mem a, ¬ (page ≤ a ∧ a < page + PAGESIZE) → body page mem a = mem a

section

variable {body : Nat → ByteMem → ByteMem} {mem mem' : ByteMem} {root : Nat}

theorem Confined.samePage (h : Confined body) {page p : Nat} (hpage : page % 4096 = 0)
    (hp : p % 4096 = 0) (hne : p ≠ page) (mem : ByteMem) : SamePage mem (body page mem) p := by
  intro i hi
  refine h page mem (p + i) fun ⟨hle, hlt⟩ => hne ?_
  have hlt : p + i < page + 4096 := hlt
  omega

/-- The body leaves the pages alone that are still to be visited. -/
theorem PtIter.Kept.after_body {r : Nat} {rest : List Nat} (hbody : Confined body)
    (hkept : PtIter.Kept mem mem' root (r :: rest)) (hnodup : (root :: r :: rest).Nodup)
    (haligned : ∀ p ∈ root :: r :: rest, p % 4096 = 0) :
    PtIter.Kept mem (body r mem') root rest := by
  obtain ⟨hroot, hnodup⟩ := List.nodup_cons.mp hnodup
  obtain ⟨hr, -⟩ := List.nodup_cons.mp hnodup
  have hral : r % 4096 = 0 := haligned r (List.mem_cons_of_mem _ List.mem_cons_self)
  constructor
  · refine hkept.1.trans (hbody.samePage hral (haligned root List.mem_cons_self) ?_ mem')
    rintro rfl
    exact hroot List.mem_cons_self
  · intro s hs
    have hsal : s % 4096 = 0 := haligned s (List.mem_cons_of_mem _ (List.mem_cons_of_mem _ hs))
    refine (hkept.2 s (List.mem_cons_of_mem _ hs)).trans (hbody.samePage hral hsal ?_ mem')
    rintro rfl
    exact hr hs

/-- The loop gives its body the pages its iterator shows. -/
theorem forTablesLoop_spec {l : List Nat} {it : PtIter} {rounds : Nat} (hbody : Confined body)
    (hshows : PtIter.Shows mem root it l) (hkept : PtIter.Kept mem mem' root l)
    (hnodup : (root :: l).Nodup) (haligned : ∀ p ∈ root :: l, p % 4096 = 0)
    (hrounds : l.length < rounds) :
    ∃ mem'', forTablesLoop body rounds it mem' = .ok (l, mem'') := by
  induction l generalizing it mem' rounds with
  | nil =>
    obtain ⟨rounds, rfl⟩ : ∃ n, rounds = n + 1 := ⟨rounds - 1, by omega⟩
    exact ⟨mem', if_pos (show it.done = true from hshows)⟩
  | cons r rest ih =>
    rw [List.length_cons] at hrounds
    obtain ⟨rounds, rfl⟩ : ∃ n, rounds = n + 1 := ⟨rounds - 1, by omega⟩
    obtain ⟨hdone, hkptr, hstep⟩ := PtIter.next_spec hshows
    have hkept' := hkept.after_body hbody hnodup haligned
    obtain ⟨it', hnext, hrest⟩ := hstep _ hkept'
    have hsub : root :: rest ⊆ root :: r :: rest :=
      List.cons_subset_cons root (List.subset_cons_self r rest)
    obtain ⟨mem'', hloop⟩ := ih hrest hkept'
      (hnodup.sublist ((List.sublist_cons_self r rest).cons_cons root))
      (fun p hp => haligned p (hsub hp)) (show rest.length < rounds by omega)
    refine ⟨mem'', ?_⟩
    rw [forTablesLoop, if_neg hdone, hkptr mem' (hkept.mono (List.subset_cons_self r rest))]
    dsimp only
    rw [hnext, ok_bind, hloop]
    rfl

/-- **The loop over a page table** ends. It visits the page-table pages
other than the root, each once and after those below it, and it visits
them whatever its body does to the page it is given, so it reads no page
it has visited. -/
theorem forTables_spec (hdist : Distinct (child mem) 512 root 3) (haligned : root % 4096 = 0) :
    ∃ pages : List Nat, pages.Nodup ∧ (∀ p, p ∈ pages ↔ IsTable mem root p ∧ p ≠ root) ∧
      pages.Pairwise (fun p q => ¬ Below (child mem) 512 root 3 q p) ∧
      ∀ body, Confined body → ∃ mem', forTables body root mem = .ok (pages, mem') := by
  obtain ⟨it, l, hnew, hl, hshows⟩ := PtIter.new_spec mem root
  have hnodup : l.Nodup := by
    rw [hl]
    exact nodup_belowRoot (by decide) (by decide) hdist
  have hmem : ∀ p, p ∈ l ↔ IsTable mem root p ∧ p ≠ root := by
    intro p
    rw [hl]
    exact mem_belowRoot_iff hdist
  have horder : l.Pairwise fun p q => ¬ Below (child mem) 512 root 3 q p := by
    rw [hl]
    exact pairwise_belowRoot (by decide) (by decide) hdist
  have hlength : l.length < tableRounds := by
    rw [hl]
    exact belowRoot_length mem root
  refine ⟨l, hnodup, hmem, horder, fun body hbody => ?_⟩
  have hal : ∀ p ∈ root :: l, p % 4096 = 0 := by
    refine List.forall_mem_cons.mpr ⟨haligned, fun p hp => ?_⟩
    obtain ⟨⟨d, -, x, hx⟩, -⟩ := (hmem p).mp hp
    exact nodeAt_aligned haligned hx
  obtain ⟨mem', hloop⟩ := forTablesLoop_spec hbody hshows (.refl _ _ _)
    (List.nodup_cons.mpr ⟨fun h => ((hmem root).mp h).2 rfl, hnodup⟩) hal hlength
  exact ⟨mem', by rw [forTables, hnew, ok_bind, hloop]⟩

end

end SystemsProjects.WeensyOS
