/-
SystemsProjects.KvStore.DeadlockFreedom — the bucket locks cannot
deadlock.

A single-key request holds one lock. The lock loops of `MultiGet` and
`MultiPut` run over the bucket indices from 0 upwards, so each lock they
request is above all they hold (`program_ascends`), whatever the keys:
duplicates and collisions only mark a bucket again.
-/
import SystemsProjects.Base.LockOrder
import SystemsProjects.KvStore.Atomicity

namespace SystemsProjects.KvStore.Concurrent

open SystemsProjects.Base

variable {Cid : Type} {hasher : Hasher}

/-- A request that takes one lock and then works asks for nothing above
or below it. -/
theorem ascends_of_single {b : Fin BUCKET_COUNT} {m : LockMode} {k : Op Answer}
    (h : (Prog.lock b m k).TwoPhase (fun _ _ _ => True) []) (hk : ¬ k.Growing) :
    (Prog.lock b m k).Ascends [] :=
  ⟨by simp, (h.2.works hk).ascends⟩

theorem ascending_multiGetGuards (keys : List CppString) :
    (multiGetGuards hasher keys).Pairwise (· < ·) :=
  (List.pairwise_lt_finRange BUCKET_COUNT).filter _

theorem ascending_multiPutGuards : multiPutGuards.Pairwise (· < ·) :=
  (List.pairwise_lt_finRange BUCKET_COUNT).filter _

theorem multiGet_ascends (req : MultiGetRequest) (res : MultiGetResponse) :
    (multiGet hasher req res).Ascends [] := by
  refine Prog.Ascends.lockAll (ascending_multiGetGuards req.keys) (by simp) ?_
  exact (multiGetLoop_works (fun _ _ _ _ => trivial) (nodup_multiGetGuards req.keys) []
    fun k hk => mem_multiGetGuards.mpr ⟨k, hk, rfl⟩).ascends

theorem multiPut_ascends (req : MultiPutRequest) : (multiPut hasher req).Ascends [] := by
  refine Prog.Ascends.lockAll ascending_multiPutGuards (by simp) ?_
  by_cases hlen : req.keys.length = req.values.length
  · rw [if_neg (not_not_intro hlen)]
    exact (multiPutLoop_works nodup_multiPutGuards req.values fun _ _ _ => trivial).ascends
  · rw [if_pos hlen]
    exact (unlockAll_shrinks nodup_multiPutGuards _ _).works.ascends

/-- Every request takes its locks in ascending order of the buckets. -/
theorem program_ascends (r : Request) : (program hasher r).Ascends [] := by
  have hall : ∀ (H : Held (Fin BUCKET_COUNT)) (b : Fin BUCKET_COUNT) (a : BucketAct),
      Covers bucketSpec H b a → True := fun _ _ _ _ => trivial
  cases r with
  | get req res => exact ascends_of_single (get_twoPhase hall req res) id
  | put req => exact ascends_of_single (put_twoPhase hall req) id
  | append req => exact ascends_of_single (append_twoPhase hall req) id
  | delete req res => exact ascends_of_single (delete_twoPhase hall req res) id
  | multiGet req res => exact multiGet_ascends req res
  | multiPut req => exact multiPut_ascends req

/-- **The store cannot deadlock**: for every hasher, store contents and
family of requests, in every state that any interleaving of their steps
reaches, if a request is under way then one that is can take its next
step, also where a shared request has to wait behind an exclusive one;
and no request asks for a bucket mutex it owns. -/
theorem bucket_locks_deadlock_free [DecidableEq Cid] (hasher : Hasher) (reqs : Cid → Request)
    (M₀ : Buckets) (c : State Cid)
    (hreach : Config.Reachable (fun i => program hasher (reqs i)) M₀ c) :
    ((∃ i p, c.status i = .running p) → ∃ i, Config.Proceeds c i) ∧
      ∀ i b m k, c.status i = .running (.lock b m k) → ∀ m', (i, m') ∉ c.mem.owners b := by
  obtain ⟨held, hfollows⟩ :=
    hreach.follows Prog.discipline_ascends fun i => program_ascends (reqs i)
  constructor
  · rintro ⟨i, p, hi⟩
    exact Config.proceeds_of_ascends hfollows hi
  · intro i b m k hi m'
    exact hfollows.not_owned Prog.discipline_ascends hi m'

/-- A `Put` and a `Get` of one key. -/
def putAndGet : Bool → Request
  | false => .put ⟨[1], [10]⟩
  | true => .get ⟨[1]⟩ ⟨[]⟩

/-- The `Put` is inside, and the `Get` waits for the mutex of the bucket. -/
theorem bucket_locks_deadlock_free_waiting :
    ∃ (c : State Bool) (b : Fin BUCKET_COUNT) (k : Op Answer),
      (false, .exclusive) ∈ c.mem.owners b ∧ c.status true = .running (.lock b .shared k) ∧
      (Prog.lock b .shared k).step true c.mem = none ∧ ∃ i, Config.Proceeds c i := by
  have hinit : Config.Reachable (fun i => program (fun _ => 7) (putAndGet i)) (fun _ => [])
      (Config.initial fun _ => []) := .refl
  have hput := hinit.tail (.invoke false rfl)
  have hinside := hput.tail (.run (p := program (fun _ => 7) (putAndGet false)) false rfl
    (Prog.step_lock rfl))
  obtain ⟨c, hreach, hown, hst⟩ : ∃ c : State Bool,
      Config.Reachable (fun i => program (fun _ => 7) (putAndGet i)) (fun _ => []) c ∧
      c.mem.owners (bucket (fun _ => 7) [1]) = [(false, .exclusive)] ∧
      c.status true = .running (program (fun _ => 7) (putAndGet true)) :=
    ⟨_, hinside.tail (.invoke true rfl), rfl, rfl⟩
  have hdenied : ¬ Grants (c.mem.owners (bucket (fun _ => 7) [1])) .shared := by
    rw [hown]
    decide
  exact ⟨c, _, _, by rw [hown]; exact List.mem_singleton_self _, hst, if_neg hdenied,
    (bucket_locks_deadlock_free _ putAndGet _ c hreach).1 ⟨true, _, hst⟩⟩

end SystemsProjects.KvStore.Concurrent
