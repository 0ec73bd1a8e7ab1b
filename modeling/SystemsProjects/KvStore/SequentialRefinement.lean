/-
SystemsProjects.KvStore.SequentialRefinement — one call after another,
the concurrent store is an abstract map.

The machine runs each operation against the real locks (`Prog.exec`), so
that no call blocks is part of the result: every operation releases what
it took, and finds every lock free.
-/
import SystemsProjects.KvStore.ConcurrentKvStore

namespace SystemsProjects.KvStore.Concurrent

open SystemsProjects.Base DbMap

/-- The store as one caller sees it: bucket contents and lock owners. -/
abbrev Store := Memory bucketSpec (Fin BUCKET_COUNT) Unit

/-- A call that waits for a lock nobody will release. -/
inductive Fault where
  | blocked
  deriving DecidableEq, Repr

/-- Run one call to its end. -/
def step (hasher : Hasher) (s : Store) : Call → Except Fault (Reply × Store)
  | .request r =>
    match (program hasher r).exec () s with
    | none => .error .blocked
    | some (a, s') => .ok (.answer a, s')
  | .allKeys =>
    match allKeys.exec () s with
    | none => .error .blocked
    | some (ks, s') => .ok (.keys ks, s')

/-- A store that starts empty. -/
def emptyStore : Store := ⟨fun _ => [], fun _ => []⟩

/-- The store means this map, and no lock is held. -/
structure Means (hasher : Hasher) (s : Store) (m : KeyMap) : Prop where
  wf : Wf hasher s.val
  map : toMap hasher s.val = m
  free : ∀ b, s.owners b = []

theorem means_empty (hasher : Hasher) : Means hasher emptyStore KeyMap.empty where
  wf := wf_empty
  map := toMap_empty
  free := fun _ => rfl

/-- A disciplined operation that finds the locks free ends, has its effect
and leaves them free. -/
theorem exec_of_free {ρ : Type} {p : Op ρ} (h : p.TwoPhase (fun _ _ _ => True) []) {s : Store}
    (hfree : ∀ b, s.owners b = []) :
    ∃ s', p.exec () s = some ((p.eval s.val).1, s') ∧ s'.val = (p.eval s.val).2 ∧
      ∀ b, s'.owners b = [] := by
  obtain ⟨r, s', hexec, hfree'⟩ := h.exec_some (i := ()) (s := s) fun l j m => by simp [hfree l]
  have hval := Prog.exec_val hexec
  refine ⟨s', ?_, ?_, hfree'⟩
  · rw [hval]; exact hexec
  · rw [hval]

/-- Each call replies and acts as the map does. -/
theorem step_means {hasher : Hasher} (s : Store) (m : KeyMap) (call : Call)
    (h : Means hasher s m) :
    ∃ reply s' m', step hasher s call = .ok (reply, s') ∧ m.Admits call reply m' ∧
      Means hasher s' m' := by
  obtain ⟨hwf, rfl, hfree⟩ := h
  cases call with
  | request r =>
    have htwo : (program hasher r).TwoPhase (fun _ _ _ => True) [] :=
      program_twoPhase (fun _ _ _ _ => trivial) fun _ _ _ _ _ _ => trivial
    obtain ⟨s', hexec, hval, hfree'⟩ := exec_of_free htwo hfree
    obtain ⟨hans, hwf', hmap⟩ := eval_program hwf r
    refine ⟨_, s', _, by rw [step, hexec], ⟨by rw [hans], rfl⟩, ?_⟩
    exact ⟨by rw [hval]; exact hwf', by rw [hval]; exact hmap, hfree'⟩
  | allKeys =>
    obtain ⟨s', hexec, hval, hfree'⟩ := exec_of_free allKeys_works.twoPhase hfree
    obtain ⟨ks, heval, hnodup, hmem⟩ := eval_allKeys hwf
    rw [heval] at hexec hval
    refine ⟨_, s', _, by rw [step, hexec], ⟨rfl, ks, rfl, hnodup, hmem⟩, ?_⟩
    exact ⟨by rw [hval]; exact hwf, by rw [hval], hfree'⟩

/-- **The store is a map**: for every hasher and every sequence of calls
on a store that starts empty, no call blocks, every reply is one the
abstract map admits, and the buckets end up meaning the map. A refused
request leaves the map as it is. -/
theorem store_refines_map (hasher : Hasher) (calls : List Call) :
    (∃ replies s' m', runM (step hasher) emptyStore calls = .ok (replies, s') ∧
      Trace KeyMap.Admits KeyMap.empty calls replies m' ∧ Means hasher s' m') ∧
    ∀ (m : KeyMap) (r : Request), (m.apply r).1.ok = false → (m.apply r).2 = m :=
  ⟨runM_admitted step_means (means_empty hasher) calls, fun _ _ => KeyMap.apply_refused⟩

/-- Two keys that collide, one put twice. -/
example : (runM (step fun _ => 7) emptyStore
      [.request (.multiPut ⟨[[1], [2], [1]], [[10], [20], [30]]⟩),
       .request (.multiGet ⟨[[2], [1]]⟩ ⟨[]⟩), .request (.delete ⟨[3]⟩ ⟨[5]⟩), .allKeys]).map
      Prod.fst =
    .ok [.answer ⟨true, .multiPut⟩, .answer ⟨true, .multiGet ⟨[[20], [30]]⟩⟩,
      .answer ⟨false, .delete ⟨[5]⟩⟩, .keys [[1], [2]]] := by
  rfl

end SystemsProjects.KvStore.Concurrent
