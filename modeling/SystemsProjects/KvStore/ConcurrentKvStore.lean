/-
SystemsProjects.KvStore.ConcurrentKvStore — concurrent_kvstore.cpp.

Each operation is a program of lock acquisitions in code order, atomic
accesses to one bucket, and releases. A `std::shared_lock` or
`std::unique_lock` on the stack releases at every return, so the releases
stand before each `ret`; the guards of a multi-request are released in
the order of the vector that holds them.

`eval_program` is the specification of all six requests at once: on
well-formed buckets a request answers and does what `KeyMap.apply` says,
and leaves the buckets well formed. It speaks of the accesses only;
`program_twoPhase` speaks of the locks.
-/
import SystemsProjects.Base.TwoPhase
import SystemsProjects.KvStore.DbMap

namespace SystemsProjects.KvStore.Concurrent

open SystemsProjects.Base

/-- An operation of the store. -/
abbrev Op (ρ : Type) := Prog bucketSpec (Fin BUCKET_COUNT) ρ

/-! ## The operations -/

def get (hasher : Hasher) (req : GetRequest) (res : GetResponse) : Op Answer :=
  let bkt := bucket hasher req.key
  .lock bkt .shared <|
  .act bkt (.getIfExists req.key) fun dbItem =>
  match dbItem with
  | none => .unlock bkt .shared <| .ret ⟨false, .get res⟩
  | some dbItem => .unlock bkt .shared <| .ret ⟨true, .get { value := dbItem.value }⟩

def put (hasher : Hasher) (req : PutRequest) : Op Answer :=
  let bkt := bucket hasher req.key
  .lock bkt .exclusive <|
  .act bkt (.insertItem req.key req.value) fun _ =>
  .unlock bkt .exclusive <| .ret ⟨true, .put⟩

def append (hasher : Hasher) (req : AppendRequest) : Op Answer :=
  let bkt := bucket hasher req.key
  .lock bkt .exclusive <|
  .act bkt (.getIfExists req.key) fun dbItem =>
  match dbItem with
  | none =>
    .act bkt (.insertItem req.key req.value) fun _ =>
    .unlock bkt .exclusive <| .ret ⟨true, .append⟩
  | some dbItem =>
    .act bkt (.insertItem req.key (dbItem.value ++ req.value)) fun _ =>
    .unlock bkt .exclusive <| .ret ⟨true, .append⟩

def delete (hasher : Hasher) (req : DeleteRequest) (res : DeleteResponse) : Op Answer :=
  let bkt := bucket hasher req.key
  .lock bkt .exclusive <|
  .act bkt (.getIfExists req.key) fun dbItem =>
  match dbItem with
  | none => .unlock bkt .exclusive <| .ret ⟨false, .delete res⟩
  | some dbItem =>
    .act (bucket hasher req.key) (.removeItem req.key) fun _ =>
    .unlock bkt .exclusive <| .ret ⟨true, .delete { value := dbItem.value }⟩

/-- The array `needed` after the first loop of a multi-request. -/
def needed (hasher : Hasher) (keys : List CppString) : Fin BUCKET_COUNT → Bool :=
  keys.foldl (fun needed k => Function.update needed (bucket hasher k) true) (fun _ => false)

/-- The second loop of `MultiGet`: the buckets it locks, in order. -/
def multiGetGuards (hasher : Hasher) (keys : List CppString) : List (Fin BUCKET_COUNT) :=
  (List.finRange BUCKET_COUNT).filter (fun b => needed hasher keys b)

/-- The third loop of `MultiGet`. -/
def multiGetLoop (hasher : Hasher) (guards : List (Fin BUCKET_COUNT)) :
    List CppString → List CppString → Op Answer
  | [], values => .unlockAll guards .shared <| .ret ⟨true, .multiGet ⟨values⟩⟩
  | k :: keys, values =>
    .act (bucket hasher k) (.getIfExists k) fun item =>
    match item with
    | none => .unlockAll guards .shared <| .ret ⟨false, .multiGet ⟨[]⟩⟩
    | some item => multiGetLoop hasher guards keys (values ++ [item.value])

def multiGet (hasher : Hasher) (req : MultiGetRequest) (_res : MultiGetResponse) : Op Answer :=
  let guards := multiGetGuards hasher req.keys
  .lockAll guards .shared <| multiGetLoop hasher guards req.keys []

/-- The second loop of `MultiPut`. Its test is `if (b)` on the index, not
on `needed[b]`: it locks every bucket but the first. -/
def multiPutGuards : List (Fin BUCKET_COUNT) :=
  (List.finRange BUCKET_COUNT).filter (fun b => b.val ≠ 0)

/-- The third loop of `MultiPut`. -/
def multiPutLoop (hasher : Hasher) (guards : List (Fin BUCKET_COUNT)) :
    List CppString → List CppString → Op Answer
  | k :: keys, v :: values =>
    .act (bucket hasher k) (.insertItem k v) fun _ => multiPutLoop hasher guards keys values
  | _, _ => .unlockAll guards .exclusive <| .ret ⟨true, .multiPut⟩

def multiPut (hasher : Hasher) (req : MultiPutRequest) : Op Answer :=
  .lockAll multiPutGuards .exclusive <|
  if req.keys.length ≠ req.values.length then
    .unlockAll multiPutGuards .exclusive <| .ret ⟨false, .multiPut⟩
  else multiPutLoop hasher multiPutGuards req.keys req.values

/-- `AllKeys` walks the buckets in order and takes no lock. -/
def allKeysLoop : List (Fin BUCKET_COUNT) → List CppString → Op (List CppString)
  | [], keys => .ret keys
  | b :: bs, keys => .act b .items fun bucket => allKeysLoop bs (keys ++ bucket.map DbItem.key)

def allKeys : Op (List CppString) := allKeysLoop (List.finRange BUCKET_COUNT) []

/-- The operation a request calls. -/
def program (hasher : Hasher) : Request → Op Answer
  | .get req res => get hasher req res
  | .put req => put hasher req
  | .append req => append hasher req
  | .delete req res => delete hasher req res
  | .multiGet req res => multiGet hasher req res
  | .multiPut req => multiPut hasher req

/-! ## What the accesses compute -/

section Eval

open DbMap

variable {hasher : Hasher} {M : Buckets}

theorem getIfExists_none {key : CppString}
    (h : (M (bucket hasher key)).getIfExists key = none) : toMap hasher M key = none := by
  unfold toMap Bucket.find
  rw [h]; rfl

theorem getIfExists_some {key : CppString} {item : DbItem}
    (h : (M (bucket hasher key)).getIfExists key = some item) :
    toMap hasher M key = some item.value := by
  unfold toMap Bucket.find
  rw [h]; rfl

/-- Reading a bucket leaves it as it is. -/
theorem eval_getIfExists {ρ : Type} (b : Fin BUCKET_COUNT) (key : CppString)
    (k : Option DbItem → Op ρ) :
    (Prog.act b (.getIfExists key) k : Op ρ).eval M = (k ((M b).getIfExists key)).eval M := by
  rw [Prog.eval_act]
  exact congrArg _ (Function.update_eq_self b M)

theorem eval_insertItem {ρ : Type} (b : Fin BUCKET_COUNT) (key value : CppString)
    (k : Unit → Op ρ) :
    (Prog.act b (.insertItem key value) k : Op ρ).eval M =
      (k ()).eval (Function.update M b ((M b).insertItem key value)) := rfl

/-- A request on these buckets does what it does on the map they mean. -/
def Meets (hasher : Hasher) (out : Answer × Buckets) (spec : Answer × KeyMap) : Prop :=
  out.1 = spec.1 ∧ Wf hasher out.2 ∧ toMap hasher out.2 = spec.2

theorem eval_get (h : Wf hasher M) (req : GetRequest) (res : GetResponse) :
    Meets hasher ((get hasher req res).eval M) ((toMap hasher M).apply (.get req res)) := by
  unfold get
  rw [Prog.eval_lock, eval_getIfExists]
  cases hitem : (M (bucket hasher req.key)).getIfExists req.key with
  | none => simp [Meets, KeyMap.apply, getIfExists_none hitem, h]
  | some item => simp [Meets, KeyMap.apply, getIfExists_some hitem, h]

theorem eval_put (h : Wf hasher M) (req : PutRequest) :
    Meets hasher ((put hasher req).eval M) ((toMap hasher M).apply (.put req)) :=
  ⟨rfl, h.insertItem req.key req.value, toMap_insertItem req.key req.value⟩

theorem eval_append (h : Wf hasher M) (req : AppendRequest) :
    Meets hasher ((append hasher req).eval M) ((toMap hasher M).apply (.append req)) := by
  unfold append
  rw [Prog.eval_lock, eval_getIfExists]
  cases hitem : (M (bucket hasher req.key)).getIfExists req.key with
  | none =>
    simp only [KeyMap.apply, getIfExists_none hitem]
    exact ⟨rfl, h.insertItem _ _, toMap_insertItem _ _⟩
  | some item =>
    simp only [KeyMap.apply, getIfExists_some hitem]
    exact ⟨rfl, h.insertItem _ _, toMap_insertItem _ _⟩

theorem eval_delete (h : Wf hasher M) (req : DeleteRequest) (res : DeleteResponse) :
    Meets hasher ((delete hasher req res).eval M)
      ((toMap hasher M).apply (.delete req res)) := by
  unfold delete
  rw [Prog.eval_lock, eval_getIfExists]
  cases hitem : (M (bucket hasher req.key)).getIfExists req.key with
  | none => simp [Meets, KeyMap.apply, getIfExists_none hitem, h]
  | some item =>
    simp only [KeyMap.apply, getIfExists_some hitem]
    exact ⟨rfl, h.removeItem _, toMap_removeItem _⟩

theorem eval_multiGetLoop (guards : List (Fin BUCKET_COUNT)) (keys values : List CppString) :
    (multiGetLoop hasher guards keys values).eval M =
      (match keys.mapM (toMap hasher M) with
       | none => ⟨false, .multiGet ⟨[]⟩⟩
       | some rest => ⟨true, .multiGet ⟨values ++ rest⟩⟩, M) := by
  induction keys generalizing values with
  | nil => simp [multiGetLoop]
  | cons k keys ih =>
    unfold multiGetLoop
    rw [eval_getIfExists, List.mapM_cons]
    cases hitem : (M (bucket hasher k)).getIfExists k with
    | none => simp [getIfExists_none hitem]
    | some item =>
      simp only [getIfExists_some hitem, ih]
      cases keys.mapM (toMap hasher M) <;> simp

theorem eval_multiGet (h : Wf hasher M) (req : MultiGetRequest) (res : MultiGetResponse) :
    Meets hasher ((multiGet hasher req res).eval M)
      ((toMap hasher M).apply (.multiGet req res)) := by
  unfold multiGet
  rw [Prog.eval_lockAll, eval_multiGetLoop]
  cases hvals : req.keys.mapM (toMap hasher M) <;> simp [Meets, KeyMap.apply, hvals, h]

/-- One insertion at a time, the loop keeps the invariant and inserts the
pairs from left to right. -/
theorem eval_multiPutLoop (guards : List (Fin BUCKET_COUNT)) (h : Wf hasher M)
    (keys values : List CppString) :
    Meets hasher ((multiPutLoop hasher guards keys values).eval M)
      (⟨true, .multiPut⟩, (toMap hasher M).insertAll (keys.zip values)) := by
  induction keys generalizing M values with
  | nil => simp [multiPutLoop, Meets, h]
  | cons k keys ih =>
    cases values with
    | nil => simp [multiPutLoop, Meets, h]
    | cons v values =>
      unfold multiPutLoop
      rw [eval_insertItem, List.zip_cons_cons, KeyMap.insertAll_cons, ← toMap_insertItem]
      exact ih (h.insertItem k v) values

theorem eval_multiPut (h : Wf hasher M) (req : MultiPutRequest) :
    Meets hasher ((multiPut hasher req).eval M) ((toMap hasher M).apply (.multiPut req)) := by
  unfold multiPut
  rw [Prog.eval_lockAll]
  by_cases hlen : req.keys.length = req.values.length
  · rw [if_neg (not_not_intro hlen), KeyMap.apply, if_pos hlen]
    exact eval_multiPutLoop multiPutGuards h req.keys req.values
  · rw [if_pos hlen, KeyMap.apply, if_neg hlen, Prog.eval_unlockAll]
    exact ⟨rfl, h, rfl⟩

/-- **Every request does what it does on the abstract map**, and keeps the
buckets well formed. -/
theorem eval_program (h : Wf hasher M) (r : Request) :
    Meets hasher ((program hasher r).eval M) ((toMap hasher M).apply r) := by
  cases r with
  | get req res => exact eval_get h req res
  | put req => exact eval_put h req
  | append req => exact eval_append h req
  | delete req res => exact eval_delete h req res
  | multiGet req res => exact eval_multiGet h req res
  | multiPut req => exact eval_multiPut h req

theorem eval_allKeysLoop (bs : List (Fin BUCKET_COUNT)) (keys : List CppString) :
    (allKeysLoop bs keys).eval M = (keys ++ bs.flatMap (fun b => (M b).keys), M) := by
  induction bs generalizing keys with
  | nil => simp [allKeysLoop]
  | cons b bs ih =>
    unfold allKeysLoop
    rw [Prog.eval_act]
    simp only [Function.update_eq_self]
    rw [ih, List.flatMap_cons, List.append_assoc]
    rfl

/-- The buckets have no key in common and none twice, so the walk meets
each key of the map once. -/
theorem eval_allKeys (h : Wf hasher M) :
    ∃ ks, allKeys.eval M = (ks, M) ∧ ks.Nodup ∧ ∀ k, k ∈ ks ↔ (toMap hasher M k).isSome := by
  refine ⟨_, eval_allKeysLoop _ [], ?_, fun k => ?_⟩
  · rw [List.nil_append, List.nodup_flatMap]
    refine ⟨fun b _ => h.nodup b, ?_⟩
    refine (List.nodup_finRange BUCKET_COUNT).imp fun {b b'} hne => ?_
    intro k hk hk'
    exact hne ((h.home b k hk).symm.trans (h.home b' k hk'))
  · rw [List.nil_append, List.mem_flatMap]
    unfold toMap
    rw [Bucket.find_isSome_iff]
    constructor
    · rintro ⟨b, -, hk⟩
      rw [h.home b k hk]; exact hk
    · intro hk
      exact ⟨_, List.mem_finRange _, hk⟩

end Eval

/-! ## What the locks cover -/

section Locks

variable {hasher : Hasher} {cov : Held (Fin BUCKET_COUNT) → Fin BUCKET_COUNT → BucketAct → Prop}

/-- The first loop marks exactly the buckets of the keys. -/
theorem needed_iff {keys : List CppString} {b : Fin BUCKET_COUNT} :
    needed hasher keys b = true ↔ ∃ k ∈ keys, bucket hasher k = b := by
  have hloop : ∀ n : Fin BUCKET_COUNT → Bool,
      keys.foldl (fun needed k => Function.update needed (bucket hasher k) true) n b = true ↔
        n b = true ∨ ∃ k ∈ keys, bucket hasher k = b := by
    induction keys with
    | nil => simp
    | cons k keys ih =>
      intro n
      simp only [List.foldl_cons, ih, List.mem_cons, exists_eq_or_imp, ← or_assoc]
      by_cases hb : bucket hasher k = b
      · subst hb; simp
      · simp [Function.update_of_ne (Ne.symm hb), hb]
  rw [needed, hloop, or_iff_right Bool.false_ne_true]

theorem mem_multiGetGuards {keys : List CppString} {b : Fin BUCKET_COUNT} :
    b ∈ multiGetGuards hasher keys ↔ ∃ k ∈ keys, bucket hasher k = b := by
  rw [multiGetGuards, List.mem_filter, needed_iff]
  exact and_iff_right (List.mem_finRange b)

theorem nodup_multiGetGuards (keys : List CppString) : (multiGetGuards hasher keys).Nodup :=
  (List.nodup_finRange BUCKET_COUNT).filter _

theorem nodup_multiPutGuards : multiPutGuards.Nodup :=
  (List.nodup_finRange BUCKET_COUNT).filter _

theorem mem_multiPutGuards {b : Fin BUCKET_COUNT} : b ∈ multiPutGuards ↔ b.val ≠ 0 := by
  simp [multiPutGuards]

theorem unlock_ret_shrinks (b : Fin BUCKET_COUNT) (m : LockMode) (a : Answer) :
    (.unlock b m (.ret a) : Op Answer).Shrinks [(b, m)] :=
  ⟨List.mem_singleton_self _, by simp [Prog.Shrinks]⟩

theorem unlockAll_shrinks {guards : List (Fin BUCKET_COUNT)} (hnd : guards.Nodup) (m : LockMode)
    (a : Answer) :
    (.unlockAll guards m (.ret a) : Op Answer).Shrinks (Prog.holding guards m []) :=
  Prog.Shrinks.unlockAll hnd fun l m' => by simp [Prog.mem_holding]

variable (hcov : ∀ H b a, Covers bucketSpec H b a → cov H b a)

include hcov

theorem get_twoPhase (req : GetRequest) (res : GetResponse) :
    (get hasher req res).TwoPhase cov [] := by
  refine ⟨by simp, hcov _ _ _ (.inr ⟨by simp, fun _ => rfl⟩), fun item => ?_⟩
  cases item with
  | none => exact unlock_ret_shrinks _ _ _
  | some item => exact unlock_ret_shrinks _ _ _

theorem put_twoPhase (req : PutRequest) : (put hasher req).TwoPhase cov [] :=
  ⟨by simp, hcov _ _ _ (.inl (by simp)), fun _ => unlock_ret_shrinks _ _ _⟩

theorem append_twoPhase (req : AppendRequest) : (append hasher req).TwoPhase cov [] := by
  refine ⟨by simp, hcov _ _ _ (.inl (by simp)), fun item => ?_⟩
  cases item with
  | none => exact ⟨hcov _ _ _ (.inl (by simp)), fun _ => unlock_ret_shrinks _ _ _⟩
  | some item => exact ⟨hcov _ _ _ (.inl (by simp)), fun _ => unlock_ret_shrinks _ _ _⟩

theorem delete_twoPhase (req : DeleteRequest) (res : DeleteResponse) :
    (delete hasher req res).TwoPhase cov [] := by
  refine ⟨by simp, hcov _ _ _ (.inl (by simp)), fun item => ?_⟩
  cases item with
  | none => exact unlock_ret_shrinks _ _ _
  | some item => exact ⟨hcov _ _ _ (.inl (by simp)), fun _ => unlock_ret_shrinks _ _ _⟩

theorem multiGetLoop_works {guards : List (Fin BUCKET_COUNT)} (hnd : guards.Nodup)
    {keys : List CppString} (values : List CppString)
    (hkeys : ∀ k ∈ keys, bucket hasher k ∈ guards) :
    (multiGetLoop hasher guards keys values).Works cov (Prog.holding guards .shared []) := by
  induction keys generalizing values with
  | nil => exact (unlockAll_shrinks hnd _ _).works
  | cons k keys ih =>
    have hheld := hkeys k List.mem_cons_self
    refine ⟨hcov _ _ _ (.inr ⟨?_, fun _ => rfl⟩), fun item => ?_⟩
    · exact Prog.mem_holding.mpr (.inl ⟨hheld, rfl⟩)
    · cases item with
      | none => exact (unlockAll_shrinks hnd _ _).works
      | some item => exact ih _ fun k' hk' => hkeys k' (List.mem_cons_of_mem k hk')

theorem multiGet_twoPhase (req : MultiGetRequest) (res : MultiGetResponse) :
    (multiGet hasher req res).TwoPhase cov [] := by
  refine Prog.TwoPhase.lockAll (nodup_multiGetGuards req.keys) (by simp) ?_
  exact (multiGetLoop_works hcov (nodup_multiGetGuards req.keys) []
    fun k hk => mem_multiGetGuards.mpr ⟨k, hk, rfl⟩).twoPhase

omit hcov in
theorem multiPutLoop_works {guards : List (Fin BUCKET_COUNT)} (hnd : guards.Nodup)
    {keys : List CppString} (values : List CppString)
    (hkeys : ∀ k ∈ keys, ∀ v, cov (Prog.holding guards .exclusive []) (bucket hasher k)
      (.insertItem k v)) :
    (multiPutLoop hasher guards keys values).Works cov (Prog.holding guards .exclusive []) := by
  induction keys generalizing values with
  | nil => exact (unlockAll_shrinks hnd _ _).works
  | cons k keys ih =>
    cases values with
    | nil => exact (unlockAll_shrinks hnd _ _).works
    | cons v values =>
      exact ⟨hkeys k List.mem_cons_self v,
        fun _ => ih values fun k' hk' => hkeys k' (List.mem_cons_of_mem k hk')⟩

omit hcov in
theorem multiPut_twoPhase {req : MultiPutRequest}
    (hkeys : req.keys.length = req.values.length → ∀ k ∈ req.keys, ∀ v,
      cov (Prog.holding multiPutGuards .exclusive []) (bucket hasher k) (.insertItem k v)) :
    (multiPut hasher req).TwoPhase cov [] := by
  refine Prog.TwoPhase.lockAll nodup_multiPutGuards (by simp) ?_
  by_cases hlen : req.keys.length = req.values.length
  · rw [if_neg (not_not_intro hlen)]
    exact (multiPutLoop_works nodup_multiPutGuards req.values (hkeys hlen)).twoPhase
  · rw [if_pos hlen]
    exact (unlockAll_shrinks nodup_multiPutGuards _ _).works.twoPhase

/-- Every request first locks, then accesses, then unlocks what it holds.
What `MultiPut` accesses must be covered by the locks it takes. -/
theorem program_twoPhase {r : Request}
    (hput : ∀ req, r = .multiPut req → req.keys.length = req.values.length →
      ∀ k ∈ req.keys, ∀ v,
        cov (Prog.holding multiPutGuards .exclusive []) (bucket hasher k) (.insertItem k v)) :
    (program hasher r).TwoPhase cov [] := by
  cases r with
  | get req res => exact get_twoPhase hcov req res
  | put req => exact put_twoPhase hcov req
  | append req => exact append_twoPhase hcov req
  | delete req res => exact delete_twoPhase hcov req res
  | multiGet req res => exact multiGet_twoPhase hcov req res
  | multiPut req => exact multiPut_twoPhase (hput req rfl)

end Locks

theorem allKeys_works : allKeys.Works (fun _ _ _ => True) [] := by
  have hloop : ∀ bs keys, (allKeysLoop bs keys).Works (fun _ _ _ => True) [] := by
    intro bs
    induction bs with
    | nil => intro keys; rfl
    | cons b bs ih => exact fun keys => ⟨trivial, fun _ => ih _⟩
  exact hloop _ _

end SystemsProjects.KvStore.Concurrent
