/-
SystemsProjects.KvStore.SimpleKvStore — simple_kvstore.cpp, one
`std::unordered_map` behind one `std::mutex` that each operation locks
and unlocks by hand.

The operations return early without unlocking on every path that answers
`false`. `releases_iff` says exactly when an operation unlocks (`Clean`),
and `mutex_released` what follows for calls made one at a time and for
calls interleaved step by step.
-/
import SystemsProjects.Base.Mutex
import SystemsProjects.KvStore.Commands

namespace SystemsProjects.KvStore.Simple

open SystemsProjects.Base

/-! ## The map -/

/-- `std::unordered_map<std::string, std::string>`: the pairs in iteration
order, which is not specified. -/
abbrev UnorderedMap := List (CppString × CppString)

namespace UnorderedMap

def find (store : UnorderedMap) (key : CppString) : Option CppString := store.lookup key

def contains (store : UnorderedMap) (key : CppString) : Bool := (store.lookup key).isSome

/-- `store[key] = value`. -/
def assign (key value : CppString) : UnorderedMap → UnorderedMap
  | [] => [(key, value)]
  | (k, v) :: store => if k = key then (k, value) :: store else (k, v) :: assign key value store

/-- `store[key] += value`; `operator[]` makes an absent value empty. -/
def appendTo (store : UnorderedMap) (key value : CppString) : UnorderedMap :=
  store.assign key ((store.find key).getD [] ++ value)

def erase (store : UnorderedMap) (key : CppString) : UnorderedMap :=
  store.filter (fun item => item.1 ≠ key)

theorem find_isSome (store : UnorderedMap) (key : CppString) :
    (store.find key).isSome = store.contains key := rfl

end UnorderedMap

/-- The accesses to `store_`, each made under the mutex. -/
inductive StoreAct where
  | find (key : CppString)
  | contains (key : CppString)
  | assign (key value : CppString)
  | appendTo (key value : CppString)
  | erase (key : CppString)
  | items

@[reducible] def storeSpec : CellSpec where
  Val := UnorderedMap
  Act := StoreAct
  Rep
    | .find _ => Option CppString
    | .contains _ => Bool
    | .assign _ _ | .appendTo _ _ | .erase _ => Unit
    | .items => UnorderedMap
  sem
    | .find key, store => (store.find key, store)
    | .contains key, store => (store.contains key, store)
    | .assign key value, store => ((), store.assign key value)
    | .appendTo key value, store => ((), store.appendTo key value)
    | .erase key, store => ((), store.erase key)
    | .items, store => (store, store)

/-- An operation of the store; there is one cell and one mutex. -/
abbrev Op := Prog storeSpec Unit Reply

/-! ## The operations -/

section Operations

def lock (k : Op) : Op := .lock () .exclusive k

def unlock (k : Op) : Op := .unlock () .exclusive k

def ret (ok : Bool) (res : Response) : Op := .ret (.answer ⟨ok, res⟩)

def access (a : StoreAct) (k : storeSpec.Rep a → Op) : Op := .act () a k

def get (req : GetRequest) (res : GetResponse) : Op :=
  lock <|
  access (.find req.key) fun it =>
  match it with
  | none => ret false (.get res)
  | some value => unlock <| ret true (.get { value := value })

def put (req : PutRequest) : Op :=
  lock <|
  access (.assign req.key req.value) fun _ =>
  unlock <| ret true .put

def append (req : AppendRequest) : Op :=
  lock <|
  access (.contains req.key) fun found =>
  match found with
  | true => access (.appendTo req.key req.value) fun _ => unlock <| ret true .append
  | false => access (.assign req.key req.value) fun _ => unlock <| ret true .append

def delete (req : DeleteRequest) (res : DeleteResponse) : Op :=
  lock <|
  access (.find req.key) fun it =>
  match it with
  | none => ret false (.delete res)
  | some value =>
    access (.erase req.key) fun _ =>
    unlock <| ret true (.delete { value := value })

def multiGetLoop : List CppString → List CppString → Op
  | [], values => unlock <| ret true (.multiGet ⟨values⟩)
  | k :: keys, values =>
    access (.find k) fun it =>
    match it with
    | none => ret false (.multiGet ⟨[]⟩)
    | some value => multiGetLoop keys (values ++ [value])

def multiGet (req : MultiGetRequest) (_res : MultiGetResponse) : Op :=
  lock <| multiGetLoop req.keys []

def multiPutLoop : List CppString → List CppString → Op
  | k :: keys, v :: values => access (.assign k v) fun _ => multiPutLoop keys values
  | _, _ => unlock <| ret true .multiPut

def multiPut (req : MultiPutRequest) : Op :=
  lock <|
  if req.keys.length ≠ req.values.length then ret false .multiPut
  else multiPutLoop req.keys req.values

def allKeys : Op :=
  lock <|
  access .items fun items =>
  unlock <| .ret (.keys (items.map Prod.fst))

/-- The operation a call runs. -/
def program : Call → Op
  | .request (.get req res) => get req res
  | .request (.put req) => put req
  | .request (.append req) => append req
  | .request (.delete req res) => delete req res
  | .request (.multiGet req res) => multiGet req res
  | .request (.multiPut req) => multiPut req
  | .allKeys => allKeys

end Operations

/-! ## What an operation answers -/

theorem eval_find (key : CppString) (k : Option CppString → Op) (M : Unit → UnorderedMap) :
    (access (.find key) k).eval M = (k ((M ()).find key)).eval M := by
  rw [access, Prog.eval_act]
  exact congrArg (k ((M ()).find key)).eval (Function.update_eq_self () M)

/-- `Get` answers the value of its key. -/
theorem eval_get (req : GetRequest) (res : GetResponse) (M : Unit → UnorderedMap) :
    ((get req res).eval M).1 =
      match (M ()).find req.key with
      | none => .answer ⟨false, .get res⟩
      | some value => .answer ⟨true, .get ⟨value⟩⟩ := by
  rw [get, lock, Prog.eval_lock, eval_find]
  cases (M ()).find req.key with
  | none => rfl
  | some value => rfl

/-- `Delete` answers the value its key had. -/
theorem eval_delete (req : DeleteRequest) (res : DeleteResponse) (M : Unit → UnorderedMap) :
    ((delete req res).eval M).1 =
      match (M ()).find req.key with
      | none => .answer ⟨false, .delete res⟩
      | some value => .answer ⟨true, .delete ⟨value⟩⟩ := by
  rw [delete, lock, Prog.eval_lock, eval_find]
  cases (M ()).find req.key with
  | none => rfl
  | some value => rfl

/-- The loop of `MultiGet` collects the values of all keys, or none. -/
theorem eval_multiGetLoop (keys values : List CppString) (M : Unit → UnorderedMap) :
    ((multiGetLoop keys values).eval M).1 =
      match keys.mapM (M ()).find with
      | none => .answer ⟨false, .multiGet ⟨[]⟩⟩
      | some vs => .answer ⟨true, .multiGet ⟨values ++ vs⟩⟩ := by
  induction keys generalizing values with
  | nil => simp [multiGetLoop, unlock, ret]
  | cons k keys ih =>
    rw [multiGetLoop, eval_find, List.mapM_cons]
    cases (M ()).find k with
    | none => rfl
    | some value =>
      dsimp only
      rw [ih]
      cases keys.mapM (M ()).find with
      | none => rfl
      | some vs => simp

theorem eval_append (req : AppendRequest) (M : Unit → UnorderedMap) :
    ((append req).eval M).1 = .answer ⟨true, .append⟩ := by
  rw [append, lock, Prog.eval_lock, access, Prog.eval_act]
  split
  · rfl
  · rfl

theorem eval_multiPutLoop (keys values : List CppString) (M : Unit → UnorderedMap) :
    ((multiPutLoop keys values).eval M).1 = .answer ⟨true, .multiPut⟩ := by
  induction keys generalizing values M with
  | nil => rfl
  | cons k keys ih =>
    cases values with
    | nil => rfl
    | cons v values => exact ih values _

theorem eval_multiPut (req : MultiPutRequest) (M : Unit → UnorderedMap) :
    ((multiPut req).eval M).1 =
      .answer ⟨decide (req.keys.length = req.values.length), .multiPut⟩ := by
  rw [multiPut, lock, Prog.eval_lock]
  by_cases hlen : req.keys.length = req.values.length
  · rw [if_neg (not_not_intro hlen), decide_eq_true hlen]
    exact eval_multiPutLoop _ _ M
  · rw [if_pos hlen, decide_eq_false hlen]
    rfl

/-! ## When an operation unlocks -/

/-- No early return: the key to get or delete is there, all keys of a
`MultiGet` are, a `MultiPut` has as many values as keys. -/
def Clean (store : UnorderedMap) : Call → Prop
  | .request (.get req _) => store.contains req.key = true
  | .request (.delete req _) => store.contains req.key = true
  | .request (.multiGet req _) => ∀ k ∈ req.keys, store.contains k = true
  | .request (.multiPut req) => req.keys.length = req.values.length
  | .request (.put _) | .request (.append _) | .allKeys => True

theorem unlock_ret_body (r : Reply) : (unlock (.ret r)).MutexBody := ⟨rfl, r, rfl⟩

theorem multiGetLoop_body (keys values : List CppString) :
    (multiGetLoop keys values).MutexBody := by
  induction keys generalizing values with
  | nil => exact unlock_ret_body _
  | cons k keys ih =>
    intro it
    cases it with
    | none => exact trivial
    | some value => exact ih _

theorem multiPutLoop_body (keys values : List CppString) :
    (multiPutLoop keys values).MutexBody := by
  induction keys generalizing values with
  | nil => exact unlock_ret_body _
  | cons k keys ih =>
    cases values with
    | nil => exact unlock_ret_body _
    | cons v values => exact fun _ => ih values

/-- Every operation takes the mutex first and unlocks at most once, last. -/
theorem program_usesMutex (call : Call) : (program call).UsesMutex := by
  cases call with
  | allKeys => exact ⟨_, rfl, fun _ => unlock_ret_body _⟩
  | request r =>
    cases r with
    | get req res =>
      refine ⟨_, rfl, fun it => ?_⟩
      cases it with
      | none => exact trivial
      | some value => exact unlock_ret_body _
    | put req => exact ⟨_, rfl, fun _ => unlock_ret_body _⟩
    | append req =>
      refine ⟨_, rfl, fun found => ?_⟩
      cases found with
      | true => exact fun _ => unlock_ret_body _
      | false => exact fun _ => unlock_ret_body _
    | delete req res =>
      refine ⟨_, rfl, fun it => ?_⟩
      cases it with
      | none => exact trivial
      | some value => exact fun _ => unlock_ret_body _
    | multiGet req res => exact ⟨_, rfl, multiGetLoop_body req.keys []⟩
    | multiPut req =>
      refine ⟨_, rfl, ?_⟩
      split
      · exact trivial
      · exact multiPutLoop_body req.keys req.values

theorem lock_releases (k : Op) (store : UnorderedMap) :
    (lock k).releases store = k.releases store := rfl

theorem access_releases (a : StoreAct) (k : storeSpec.Rep a → Op) (store : UnorderedMap) :
    (access a k).releases store =
      (k (storeSpec.sem a store).1).releases (storeSpec.sem a store).2 := rfl

theorem access_find (key : CppString) (k : Option CppString → Op) (store : UnorderedMap) :
    (access (.find key) k).releases store = (k (store.find key)).releases store := rfl

/-- An operation that returns early on an absent key and unlocks on a
present one. -/
theorem find_releases {key : CppString} {k : Option CppString → Op} {store : UnorderedMap}
    (habsent : (k none).releases store = false)
    (hpresent : ∀ value, (k (some value)).releases store = true) :
    (access (.find key) k).releases store = true ↔ store.contains key = true := by
  rw [access_find, ← UnorderedMap.find_isSome]
  cases store.find key with
  | none => rw [habsent]; rfl
  | some value => rw [hpresent]; rfl

theorem multiGetLoop_releases (keys values : List CppString) (store : UnorderedMap) :
    (multiGetLoop keys values).releases store = true ↔ ∀ k ∈ keys, store.contains k = true := by
  induction keys generalizing values with
  | nil => exact ⟨fun _ _ h => absurd h List.not_mem_nil, fun _ => rfl⟩
  | cons k keys ih =>
    rw [multiGetLoop, access_find, List.forall_mem_cons, ← UnorderedMap.find_isSome]
    cases store.find k with
    | none => exact iff_of_false Bool.false_ne_true fun h => Bool.false_ne_true h.1
    | some value => exact (ih _).trans (and_iff_right rfl).symm

theorem multiPutLoop_releases (keys values : List CppString) (store : UnorderedMap) :
    (multiPutLoop keys values).releases store = true := by
  induction keys generalizing values store with
  | nil => rfl
  | cons k keys ih =>
    cases values with
    | nil => rfl
    | cons v values => exact ih values _

/-- An operation unlocks exactly when it does not return early. -/
theorem releases_iff (call : Call) (store : UnorderedMap) :
    (program call).releases store = true ↔ Clean store call := by
  cases call with
  | allKeys => exact ⟨fun _ => trivial, fun _ => rfl⟩
  | request r =>
    cases r with
    | get req res =>
      rw [program, get, lock_releases]
      exact find_releases rfl fun _ => rfl
    | put req => exact ⟨fun _ => trivial, fun _ => rfl⟩
    | append req =>
      refine ⟨fun _ => trivial, fun _ => ?_⟩
      rw [program, append, lock_releases, access_releases]
      split
      · rfl
      · rfl
    | delete req res =>
      rw [program, delete, lock_releases]
      exact find_releases rfl fun _ => rfl
    | multiGet req res => exact multiGetLoop_releases req.keys [] store
    | multiPut req =>
      rw [program, multiPut, lock_releases]
      by_cases hlen : req.keys.length = req.values.length
      · rw [if_neg (not_not_intro hlen)]
        exact iff_of_true (multiPutLoop_releases _ _ _) hlen
      · rw [if_pos hlen]
        exact iff_of_false Bool.false_ne_true hlen

/-! ## The mutex after a call -/

/-- A state of the store with calls under way. -/
abbrev State (Cid : Type) := Config storeSpec Unit Cid Reply

/-- **When the mutex is released**: a call on a free mutex returns with the
mutex free exactly when it takes no early return; and in every
interleaving in which no call that takes the mutex is headed for an early
return, no call that has returned owns the mutex. -/
theorem mutex_released {Cid : Type} [DecidableEq Cid] :
    (∀ (call : Call) (store : UnorderedMap) (i : Cid), ∃ reply s',
      (program call).exec i ⟨fun _ => store, fun _ => []⟩ = some (reply, s') ∧
        (s'.owners () = [] ↔ Clean store call)) ∧
    ∀ (calls : Cid → Call) (store : UnorderedMap) (c : State Cid),
      Relation.ReflTransGen
        (Config.StepWhen (fun i => program (calls i)) fun i store => Clean store (calls i))
        (Config.initial fun _ => store) c →
      ∀ i r, c.status i = .returned r → ∀ m, (i, m) ∉ c.mem.owners () := by
  constructor
  · intro call store i
    obtain ⟨reply, s', hexec, hiff⟩ := (program_usesMutex call).exec_some i store
    exact ⟨reply, s', hexec, hiff.trans (releases_iff call store)⟩
  · intro calls store c hreach i r hi m
    exact Config.never_held_by_returned (fun i => program_usesMutex (calls i))
      (fun i store h => (releases_iff (calls i) store).mpr h) hreach hi m

/-- A `Put`, and a `Get` that needs the key to be there. -/
def putThenGet : Bool → Call
  | false => .request (.put ⟨[1], [2]⟩)
  | true => .request (.get ⟨[1]⟩ ⟨[]⟩)

/-- In this order both release the mutex. -/
theorem mutex_released_get :
    ∃ c : State Bool, c.status false = .returned (.answer ⟨true, .put⟩) ∧
      c.status true = .returned (.answer ⟨true, .get ⟨[2]⟩⟩) ∧
      ∀ i m, (i, m) ∉ c.mem.owners () := by
  have huses : ∀ i, (program (putThenGet i)).UsesMutex := fun i => program_usesMutex _
  obtain ⟨c₁, hreach₁, hput, hother, hmem⟩ := Config.exec_when (i := false) (huses false)
    (.refl (r := Config.StepWhen (fun i => program (putThenGet i)) fun i store =>
      Clean store (putThenGet i)) (a := Config.initial fun _ => []))
    rfl rfl trivial rfl
  obtain ⟨c₂, hreach₂, hget, hother', -⟩ := Config.exec_when (i := true) (huses true) hreach₁
    (hother true Bool.noConfusion) (by rw [hmem]; rfl) (by rw [hmem]; rfl) (by rw [hmem]; rfl)
  have hput' := (hother' false Bool.false_ne_true).trans hput
  have hreleased := mutex_released.2 putThenGet [] c₂ hreach₂
  refine ⟨c₂, hput', hget, fun i => ?_⟩
  cases i with
  | false => exact hreleased false _ hput'
  | true => exact hreleased true _ hget

/-- **A failing `Get` keeps the mutex**: not every run leaves the mutex to
calls that have not returned. -/
theorem get_keeps_mutex :
    ¬ ∀ (calls : Bool → Call) (store : UnorderedMap) (c : State Bool),
      Config.Reachable (fun i => program (calls i)) (fun _ => store) c →
      ∀ i r, c.status i = .returned r → ∀ m, (i, m) ∉ c.mem.owners () := by
  intro hclaim
  have hinit : Config.Reachable (fun _ : Bool => program (.request (.get ⟨[1]⟩ ⟨[]⟩)))
      (fun _ => []) (Config.initial fun _ => []) := .refl
  obtain ⟨c, hreach, hret, -, hmem⟩ := Config.Reachable.exec (hinit.tail (.invoke false rfl))
    (Function.update_self _ _ _) rfl
  refine hclaim (fun _ => .request (.get ⟨[1]⟩ ⟨[]⟩)) [] c hreach false _ hret .exclusive ?_
  rw [hmem]
  decide

end SystemsProjects.KvStore.Simple
