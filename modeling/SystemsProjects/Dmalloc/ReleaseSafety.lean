/-
SystemsProjects.Dmalloc.ReleaseSafety — what reaches `base_free` when the
client writes anywhere and frees anything.

The header test alone proves nothing here: a client can forge or restore
every header byte. The pointer must also be in `g_active`, and the books
say that those are the live pointers.
-/
import SystemsProjects.Dmalloc.Runs

namespace SystemsProjects.Dmalloc

open SystemsProjects.Base ByteMem

/-- **Only active pointers are released, each once**: in every world any
client reaches, `dfree` of null changes nothing; `dfree` of any other
pointer that is not live aborts in the state it was called in; a `dfree`
that returns was given a live pointer, and gave exactly its block to
`base_free`. The blocks given back so far are, address by address, the
blocks returned less the live ones. -/
theorem released_only_active {mem : ByteMem} {w : World} (hreach : Reaches AnyClient mem w) :
    (∀ file line, dfree 0 file line w.s = .returned [] w.s) ∧
    (∀ ptr file line, ptr ≠ 0 → ptr ∉ w.livePtrs →
      ∃ msgs, dfree ptr file line w.s = .aborted msgs w.s) ∧
    (∀ ptr file line msgs s', ptr ≠ 0 → dfree ptr file line w.s = .returned msgs s' →
      ptr ∈ w.livePtrs ∧ s'.base.frees = w.s.base.frees ++ [ptr - 48]) ∧
    ∀ a, w.s.base.frees.count a + w.livePtrs.count (a + 48) =
      (w.returned.map Block.ptr).count (a + 48) := by
  have hbooks := books_of_reaches hreach
  refine ⟨fun _ _ => rfl, ?_, ?_, hbooks.frees⟩
  · intro ptr file line hne hnot
    obtain habort | ⟨hactive, -⟩ := dfree_cases hne file line w.s
    · exact habort
    · exact absurd ((hbooks.active ptr).mp hactive) hnot
  · intro ptr file line msgs s' hne hfree
    obtain ⟨msgs', habort⟩ | ⟨hactive, msgs', n, hret⟩ := dfree_cases hne file line w.s
    · rw [habort] at hfree
      cases hfree
    · have hp := (hbooks.active ptr).mp hactive
      rw [(hbooks.hdrPos hp).2] at hret
      rw [hret] at hfree
      cases hfree
      exact ⟨hp, congrArg BaseAllocator.frees (release_releases w.s ptr n).base⟩

/-- A block of 50 bytes at 64. -/
def fiftyBytes : Op := .dmalloc 50 0 0 ⟨16, fun _ => 0⟩

/-- The block freed, and its header then restored by hand: the header
passes for one in use, and the second free still aborts. -/
theorem released_only_active_restored :
    ∃ w, Reaches AnyClient (fun _ => 0) w ∧
      readInfo w.s.mem 16 = ⟨64, 50, IS_ALLOC, BOUND_VAL, 0, 0⟩ ∧
      ∃ msgs, dfree 64 0 0 w.s = .aborted msgs w.s := by
  have hadm : fiftyBytes.Admissible (World.initial fun _ => 0) :=
    .inr ⟨by decide, by decide, fun _ h => absurd h List.not_mem_nil⟩
  have halloc : Reaches AnyClient (fun _ => 0) _ := .single ⟨fiftyBytes, hadm, trivial, rfl⟩
  have hfreed : Reaches AnyClient (fun _ => 0) _ :=
    halloc.tail ⟨.dfree 64 0 0, trivial, trivial, rfl⟩
  have hrestored : Reaches AnyClient (fun _ => 0) _ :=
    hfreed.tail ⟨.write 32 [0xd1, 0x49, 0xba, 0xf4], trivial, trivial, rfl⟩
  exact ⟨_, hrestored, by decide,
    (released_only_active hrestored).2.1 64 0 0 (by decide) (by decide)⟩

end SystemsProjects.Dmalloc
