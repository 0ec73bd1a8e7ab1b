/-
SystemsProjects.KvStore.Atomicity — concurrent requests on the store.

`MultiPut` locks every bucket but bucket 0 (`multiPutGuards`). As long as
no `MultiPut` writes a key of bucket 0 every request is two-phase under
the locks it takes, so every interleaving is explained by one order of
the requests on the abstract map (`guarded_requests_serialize`). Without
that condition it is not: a `MultiGet` of two colliding keys of bucket 0
sees one write of a `MultiPut` and not the other (`multiPut_torn`).
-/
import SystemsProjects.KvStore.ConcurrentKvStore

namespace SystemsProjects.KvStore.Concurrent

open SystemsProjects.Base DbMap

variable {Cid : Type}

/-! ## Sequential orders of requests -/

/-- One request after another on the abstract map. -/
def mapStep (reqs : Cid → Request) (m : KeyMap) (i : Cid) : (Cid × Answer) × KeyMap :=
  ((i, (m.apply (reqs i)).1), (m.apply (reqs i)).2)

/-- A state of the concurrent store. -/
abbrev State (Cid : Type) := Config bucketSpec (Fin BUCKET_COUNT) Cid Answer

/-- An order of requests on the map that explains a state: it has every
request that returned, with its answer, and only requests that were made;
a request that returned before another was made comes first; and when no
request is under way the buckets mean the map it ends in. -/
structure Serializes (hasher : Hasher) (reqs : Cid → Request) (M₀ : Buckets) (c : State Cid)
    (order : List Cid) : Prop where
  nodup : order.Nodup
  made : ∀ i ∈ order, c.status i ≠ .idle
  results : ∀ i a, c.status i = .returned a →
    (i, a) ∈ (run (mapStep reqs) (toMap hasher M₀) order).1
  realTime : ∀ i j, i ∈ c.seen j → j ∈ order → [i, j].Sublist order
  final : (∀ i p, c.status i ≠ .running p) →
    toMap hasher c.mem.val = (run (mapStep reqs) (toMap hasher M₀) order).2

/-- Running the operations one after another is running the requests on
the map. -/
theorem run_seqStep {hasher : Hasher} (reqs : Cid → Request) {M : Buckets} (h : Wf hasher M)
    (order : List Cid) :
    (run (seqStep fun i => program hasher (reqs i)) M order).1 =
        (run (mapStep reqs) (toMap hasher M) order).1 ∧
      toMap hasher (run (seqStep fun i => program hasher (reqs i)) M order).2 =
        (run (mapStep reqs) (toMap hasher M) order).2 := by
  induction order generalizing M with
  | nil => exact ⟨rfl, rfl⟩
  | cons i order ih =>
    obtain ⟨hans, hwf, hmap⟩ := eval_program h (reqs i)
    simp only [run_cons, seqStep, mapStep] at ih ⊢
    rw [hans, ← hmap]
    exact ⟨congrArg _ (ih hwf).1, (ih hwf).2⟩

/-- An order of the operations is that order of the requests. -/
theorem serializes_of_explains {hasher : Hasher} {reqs : Cid → Request} {M₀ : Buckets}
    {c : State Cid} {order : List Cid} (hwf : Wf hasher M₀)
    (h : Explains (fun i => program hasher (reqs i)) M₀ c order) :
    Serializes hasher reqs M₀ c order := by
  obtain ⟨hres, hfinal⟩ := run_seqStep reqs hwf order
  refine ⟨h.nodup, h.made, fun i a hi => ?_, h.realTime, fun hquiet => ?_⟩
  · rw [← hres]
    exact h.results i a hi
  · rw [← hfinal, h.final hquiet]

/-! ## Requests whose writes are locked -/

/-- A `MultiPut` that writes at all writes no key of bucket 0. -/
def Guarded (hasher : Hasher) : Request → Prop
  | .multiPut req =>
    req.keys.length = req.values.length → ∀ k ∈ req.keys, (bucket hasher k).val ≠ 0
  | _ => True

theorem guarded_of_ne_multiPut {hasher : Hasher} {r : Request} (h : ∀ req, r ≠ .multiPut req) :
    Guarded hasher r := by
  cases r with
  | multiPut req => exact absurd rfl (h req)
  | _ => exact trivial

theorem Guarded.twoPhase {hasher : Hasher} {r : Request} (h : Guarded hasher r) :
    (program hasher r).TwoPhase (Covers bucketSpec) [] := by
  refine program_twoPhase (fun _ _ _ hc => hc) ?_
  rintro req rfl hlen k hk v
  exact .inl (Prog.mem_holding.mpr (.inl ⟨mem_multiPutGuards.mpr (h hlen k hk), rfl⟩))

/-- **Guarded requests are atomic**: for every hasher, well-formed store
and family of requests whose `MultiPut`s write no key of bucket 0, every
state that any interleaving of their steps reaches is explained by one
order of the requests on the abstract map. -/
theorem guarded_requests_serialize [DecidableEq Cid] (hasher : Hasher) (reqs : Cid → Request)
    (hguard : ∀ i, Guarded hasher (reqs i)) (M₀ : Buckets) (hwf : Wf hasher M₀) (c : State Cid)
    (hreach : Config.Reachable (fun i => program hasher (reqs i)) M₀ c) :
    ∃ order, Serializes hasher reqs M₀ c order := by
  obtain ⟨order, h⟩ := linearizable (fun i => (hguard i).twoPhase) hreach
  exact ⟨order, serializes_of_explains hwf h⟩

/-- A `MultiPut` and a `MultiGet` of colliding keys in bucket 7. -/
def guardedRequests : Bool → Request
  | false => .multiPut ⟨[[1], [2]], [[10], [20]]⟩
  | true => .multiGet ⟨[[1], [2]]⟩ ⟨[]⟩

theorem guarded_guardedRequests (i : Bool) : Guarded (fun _ => 7) (guardedRequests i) := by
  cases i with
  | false =>
    intro _ k _
    exact Nat.succ_ne_zero 6
  | true => exact trivial

/-- The `MultiPut` has run to its end and the `MultiGet` is under way. -/
theorem guarded_requests_serialize_bucket7 :
    ∃ c : State Bool, c.status false = .returned ⟨true, .multiPut⟩ ∧
      c.status true = .running (program (fun _ => 7) (guardedRequests true)) ∧
      ∃ order, Serializes (fun _ => 7) guardedRequests (fun _ => []) c order := by
  have hinit : Config.Reachable (fun i => program (fun _ => 7) (guardedRequests i))
      (fun _ => []) (Config.initial fun _ => []) := .refl
  obtain ⟨a, s', hexec, -⟩ := (guarded_guardedRequests false).twoPhase.exec_some
    (i := false) (s := ⟨fun _ => [], fun _ => []⟩) (fun l j m => by simp)
  have ha : a = ⟨true, .multiPut⟩ := congrArg Prod.fst (Prog.exec_val hexec).symm
  obtain ⟨c, hreach, hret, hidle, -⟩ := Config.Reachable.exec (hinit.tail (.invoke false rfl))
    (Function.update_self _ _ _) hexec
  have hinvoked := hreach.tail (.invoke true (hidle true (by decide)))
  refine ⟨_, ?_, ?_, guarded_requests_serialize _ guardedRequests
    guarded_guardedRequests _ wf_empty _ hinvoked⟩
  · rw [← ha, ← hret]
    simp
  · simp

/-! ## A torn read -/

/-- Every key in bucket 0. -/
def collide : Hasher := fun _ => 0

/-- Two keys with value `[0]`. -/
def tornStore : Buckets := fun b => if b.val = 0 then [⟨[1], [0]⟩, ⟨[2], [0]⟩] else []

/-- The call `false` writes both keys, the call `true` reads both. -/
def tornRequests : Bool → Request
  | false => .multiPut ⟨[[1], [2]], [[10], [20]]⟩
  | true => .multiGet ⟨[[1], [2]]⟩ ⟨[]⟩

theorem wf_tornStore : Wf collide tornStore where
  nodup := by
    intro b
    unfold tornStore
    split
    · exact List.nodup_iff_pairwise_ne.mpr (by decide)
    · exact List.nodup_nil
  home := by
    intro b key hkey
    unfold tornStore at hkey
    split at hkey
    · exact Fin.ext (Eq.symm ‹b.val = 0›)
    · cases hkey

/-- The first bucket. -/
def bucket0 : Fin BUCKET_COUNT := ⟨0, by decide⟩

/-- The `MultiPut` once it holds its locks. -/
def tornPut : Op Answer := multiPutLoop collide multiPutGuards [[1], [2]] [[10], [20]]

theorem program_tornPut :
    program collide (tornRequests false) = .lockAll multiPutGuards .exclusive tornPut := rfl

/-- The `MultiGet` reads both keys under the lock of bucket 0. -/
theorem exec_tornGet {s : Memory bucketSpec (Fin BUCKET_COUNT) Bool}
    (hval : s.val bucket0 = [⟨[1], [10]⟩, ⟨[2], [0]⟩]) (hfree : s.owners bucket0 = []) :
    ∃ s', (program collide (tornRequests true)).exec true s =
      some (⟨true, .multiGet ⟨[[10], [0]]⟩⟩, s') := by
  have hprog : program collide (tornRequests true) =
      .lock bucket0 .shared (multiGetLoop collide [bucket0] [[1], [2]] []) := rfl
  have hread1 : (s.val bucket0).getIfExists [1] = some ⟨[1], [10]⟩ := by rw [hval]; rfl
  have hread2 : (s.val bucket0).getIfExists [2] = some ⟨[2], [0]⟩ := by rw [hval]; rfl
  rw [hprog, Prog.exec, if_pos (by rw [hfree]; intro o ho; cases ho)]
  simp [multiGetLoop, Prog.exec, hread1, hread2, show ∀ k,
    bucket collide k = bucket0 from fun _ => rfl]

/-- The `MultiPut` locks its 59 buckets and writes the first key; the
`MultiGet` then finds bucket 0 unlocked, reads the new value of one key
and the old value of the other, and returns both. -/
theorem torn_read_reachable :
    ∃ c : State Bool,
      Config.Reachable (fun i => program collide (tornRequests i)) tornStore c ∧
      c.status true = .returned ⟨true, .multiGet ⟨[[10], [0]]⟩⟩ := by
  have hinit : Config.Reachable (fun i => program collide (tornRequests i)) tornStore
      (Config.initial tornStore) := .refl
  obtain ⟨c, hlocked, hrun, hidle, hval, hown⟩ := Config.Reachable.lockAll nodup_multiPutGuards
    (hinit.tail (.invoke false rfl))
    ((Function.update_self _ _ _).trans (congrArg _ program_tornPut)) fun _ _ => rfl
  have hwritten := hlocked.tail (.run false hrun rfl)
  have hinvoked := hwritten.tail (.invoke true (hidle true (by decide)))
  have hfirst : c.mem.val bucket0 = [⟨[1], [0]⟩, ⟨[2], [0]⟩] := by rw [hval]; rfl
  have hwrote : Function.update c.mem.val bucket0 ((c.mem.val bucket0).insertItem [1] [10])
      bucket0 = [⟨[1], [10]⟩, ⟨[2], [0]⟩] := by
    rw [Function.update_self, hfirst]
    rfl
  obtain ⟨s', hexec⟩ := exec_tornGet
    (s := c.mem.write bucket0 ((c.mem.val bucket0).insertItem [1] [10])) hwrote
    (hown bucket0 (by simp [mem_multiPutGuards, bucket0]))
  obtain ⟨c', hreach, hret, -, -⟩ :=
    Config.Reachable.exec hinvoked (Function.update_self _ _ _) hexec
  exact ⟨c', hreach, hret⟩

/-- No order of the two requests gives the answer the `MultiGet` got. -/
theorem torn_read_unexplained {c : State Bool}
    (hans : c.status true = .returned ⟨true, .multiGet ⟨[[10], [0]]⟩⟩) (order : List Bool) :
    ¬ Serializes collide tornRequests tornStore c order := by
  intro h
  have hmem := h.results true _ hans
  have hnodup := h.nodup
  match order with
  | [] => cases hmem
  | [true] | [false] | [true, false] | [false, true] => revert hmem; decide
  | [true, true] | [false, false] => revert hnodup; decide
  | a :: b :: d :: _ =>
    cases a <;> cases b <;> cases d <;> simp at hnodup

/-- **A `MultiPut` is not atomic**: it is not so that every interleaving
is explained by an order of the requests. -/
theorem multiPut_torn :
    ¬ ∀ (hasher : Hasher) (reqs : Bool → Request) (M₀ : Buckets), Wf hasher M₀ →
      ∀ c : State Bool, Config.Reachable (fun i => program hasher (reqs i)) M₀ c →
        ∃ order, Serializes hasher reqs M₀ c order := by
  intro hclaim
  obtain ⟨c, hreach, hans⟩ := torn_read_reachable
  obtain ⟨order, h⟩ := hclaim collide tornRequests tornStore wf_tornStore c hreach
  exact torn_read_unexplained hans order h

end SystemsProjects.KvStore.Concurrent
