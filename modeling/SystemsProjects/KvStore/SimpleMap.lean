/-
SystemsProjects.KvStore.SimpleMap — what simple_kvstore.cpp is as a map,
and its operations interleaved step by step.

Each operation replies and acts as the abstract map does
(`program_means`), `AllKeys` included, also where it returns early. An
early return keeps the mutex, so the operation behind it is never made:
`simple_store_linearizable` explains every state some interleaving
reaches by one order of the calls on the map, in which only the last can
have been refused.
-/
import SystemsProjects.Base.MutexOrder
import SystemsProjects.KvStore.SimpleKvStore

namespace SystemsProjects.KvStore.Simple

open SystemsProjects.Base

variable {store : UnorderedMap} {key value : CppString}

/-! ## The unordered map -/

namespace UnorderedMap

def keys (store : UnorderedMap) : List CppString := store.map Prod.fst

/-- No key twice. -/
def Wf (store : UnorderedMap) : Prop := store.keys.Nodup

/-- What the store means. -/
def toMap (store : UnorderedMap) : KeyMap := store.find

theorem find_cons (item : CppString × CppString) (store : UnorderedMap) (key : CppString) :
    find (item :: store) key = if key = item.1 then some item.2 else store.find key := by
  rw [find, List.lookup_cons]
  by_cases h : key = item.1
  · rw [if_pos h, beq_iff_eq.mpr h]
  · rw [if_neg h, beq_eq_false_iff_ne.mpr h]
    rfl

theorem mem_keys_iff : key ∈ store.keys ↔ (store.find key).isSome = true := by
  induction store with
  | nil => exact iff_of_false List.not_mem_nil Bool.false_ne_true
  | cons item store ih =>
    rw [keys, List.map_cons, List.mem_cons, find_cons]
    by_cases h : key = item.1
    · rw [if_pos h]
      exact iff_of_true (.inl h) rfl
    · rw [if_neg h]
      exact (or_iff_right h).trans ih

theorem keys_assign (store : UnorderedMap) (key value : CppString) :
    (store.assign key value).keys =
      if key ∈ store.keys then store.keys else store.keys ++ [key] := by
  induction store with
  | nil => rfl
  | cons item store ih =>
    obtain ⟨k, v⟩ := item
    by_cases h : k = key
    · subst h
      have hmem : k ∈ keys ((k, v) :: store) := List.mem_cons_self
      rw [assign, if_pos rfl, if_pos hmem]
      rfl
    · have hiff : key ∈ keys ((k, v) :: store) ↔ key ∈ keys store :=
        List.mem_cons.trans (or_iff_right (Ne.symm h))
      have htail : keys ((k, v) :: assign key value store) =
        k :: keys (assign key value store) := rfl
      rw [assign, if_neg h, htail, ih]
      simp only [hiff]
      split
      · rfl
      · rfl

theorem Wf.assign (h : store.Wf) (key value : CppString) : (store.assign key value).Wf := by
  rw [Wf, keys_assign]
  split
  · exact h
  · rename_i hnew
    exact List.nodup_append.mpr ⟨h, List.nodup_singleton key, fun a ha b hb => by
      rw [List.mem_singleton.mp hb]
      exact fun he => hnew (he ▸ ha)⟩

theorem Wf.erase (h : store.Wf) (key : CppString) : (store.erase key).Wf :=
  List.Nodup.sublist (List.Sublist.map Prod.fst List.filter_sublist) h

theorem toMap_assign (store : UnorderedMap) (key value : CppString) :
    (store.assign key value).toMap = store.toMap.insert key value := by
  funext k
  rw [KeyMap.insert, Function.update_apply]
  show (store.assign key value).find k = if k = key then some value else store.find k
  induction store with
  | nil => exact find_cons (key, value) [] k
  | cons item store ih =>
    obtain ⟨k', v⟩ := item
    rw [assign]
    split
    · rename_i h
      subst h
      rw [find_cons, find_cons]
      split
      · rfl
      · rfl
    · rename_i h
      rw [find_cons, find_cons, ih]
      by_cases hk : k = k'
      · subst hk
        rw [if_pos rfl, if_pos rfl, if_neg h]
      · rw [if_neg hk, if_neg hk]

theorem toMap_erase (store : UnorderedMap) (key : CppString) :
    (store.erase key).toMap = store.toMap.erase key := by
  funext k
  rw [KeyMap.erase, Function.update_apply]
  show (store.erase key).find k = if k = key then none else store.find k
  induction store with
  | nil => exact (ite_self _).symm
  | cons item store ih =>
    rw [erase] at ih ⊢
    rw [List.filter_cons, find_cons]
    by_cases hitem : item.1 = key
    · rw [if_neg (by simpa using hitem), ih, hitem]
      split
      · rfl
      · rfl
    · rw [if_pos (by simpa using hitem), find_cons, ih]
      by_cases hk : k = item.1
      · rw [if_pos hk, if_pos hk, if_neg (hk ▸ hitem)]
      · rw [if_neg hk, if_neg hk]

theorem toMap_appendTo (store : UnorderedMap) (key value : CppString) :
    (store.appendTo key value).toMap =
      store.toMap.insert key ((store.find key).getD [] ++ value) :=
  toMap_assign store key _

end UnorderedMap

/-! ## One operation -/

/-- On its own the operation replies as the map may, and leaves a store
that means the map it then is. -/
def Means (p : Op) (call : Call) (store : UnorderedMap) : Prop :=
  ∃ reply store', p.eval (fun _ => store) = (reply, fun _ => store') ∧
    store.toMap.Admits call reply store'.toMap ∧ (store.Wf → store'.Wf)

theorem eval_lock (k : Op) (M : Unit → UnorderedMap) : (lock k).eval M = k.eval M := rfl

theorem eval_access (a : StoreAct) (k : storeSpec.Rep a → Op) (store : UnorderedMap) :
    (access a k).eval (fun _ => store) =
      (k (storeSpec.sem a store).1).eval fun _ => (storeSpec.sem a store).2 := by
  rw [access, Prog.eval_act]
  congr 1

theorem get_means (req : GetRequest) (res : GetResponse) (store : UnorderedMap) :
    Means (get req res) (.request (.get req res)) store := by
  refine ⟨.answer (store.toMap.apply (.get req res)).1, store, ?_, ⟨rfl, ?_⟩, id⟩
  · rw [get, eval_lock, eval_find, KeyMap.apply, UnorderedMap.toMap]
    cases store.find req.key with
    | none => rfl
    | some value => rfl
  · cases hfind : store.toMap req.key with
    | none => simp only [KeyMap.apply, hfind]
    | some value => simp only [KeyMap.apply, hfind]

theorem put_means (req : PutRequest) (store : UnorderedMap) :
    Means (put req) (.request (.put req)) store := by
  refine ⟨_, store.assign req.key req.value, ?_, ⟨rfl, ?_⟩, fun h => h.assign _ _⟩
  · rw [put, eval_lock]
    exact eval_access _ _ store
  · exact store.toMap_assign req.key req.value

theorem append_means (req : AppendRequest) (store : UnorderedMap) :
    Means (append req) (.request (.append req)) store := by
  have happly : (store.toMap.apply (.append req)) =
      (⟨true, .append⟩, (store.appendTo req.key req.value).toMap) := by
    rw [UnorderedMap.toMap_appendTo]
    cases hfind : store.find req.key with
    | none => simp only [KeyMap.apply, UnorderedMap.toMap, hfind, Option.getD_none, List.nil_append]
    | some old => simp only [KeyMap.apply, UnorderedMap.toMap, hfind, Option.getD_some]
  refine ⟨_, store.appendTo req.key req.value, ?_, ⟨rfl, by rw [happly]⟩, fun h => h.assign _ _⟩
  rw [happly, append, eval_lock, eval_access]
  dsimp only
  cases hfound : store.contains req.key with
  | true => exact eval_access _ _ store
  | false =>
    have hfind : store.find req.key = none := by
      rw [← Option.not_isSome_iff_eq_none, UnorderedMap.find_isSome, hfound]
      exact Bool.false_ne_true
    have hsame : store.appendTo req.key req.value = store.assign req.key req.value := by
      rw [UnorderedMap.appendTo, hfind, Option.getD_none, List.nil_append]
    rw [hsame]
    exact eval_access _ _ store

theorem delete_means (req : DeleteRequest) (res : DeleteResponse) (store : UnorderedMap) :
    Means (delete req res) (.request (.delete req res)) store := by
  cases hfind : store.find req.key with
  | none =>
    have happly : store.toMap.apply (.delete req res) = (⟨false, .delete res⟩, store.toMap) := by
      simp only [KeyMap.apply, UnorderedMap.toMap, hfind]
    refine ⟨_, store, ?_, ⟨rfl, by rw [happly]⟩, id⟩
    rw [happly, delete, eval_lock, eval_find]
    dsimp only
    rw [hfind]
    rfl
  | some old =>
    have happly : store.toMap.apply (.delete req res) =
        (⟨true, .delete ⟨old⟩⟩, (store.erase req.key).toMap) := by
      rw [UnorderedMap.toMap_erase]
      simp only [KeyMap.apply, UnorderedMap.toMap, hfind]
    refine ⟨_, store.erase req.key, ?_, ⟨rfl, by rw [happly]⟩, fun h => h.erase _⟩
    rw [happly, delete, eval_lock, eval_find]
    dsimp only
    rw [hfind]
    exact eval_access _ _ store

theorem multiGetLoop_keeps (ks values : List CppString) (M : Unit → UnorderedMap) :
    ((multiGetLoop ks values).eval M).2 = M := by
  induction ks generalizing values with
  | nil => rfl
  | cons k ks ih =>
    rw [multiGetLoop, eval_find]
    cases (M ()).find k with
    | none => rfl
    | some value => exact ih _

theorem multiGet_means (req : MultiGetRequest) (res : MultiGetResponse) (store : UnorderedMap) :
    Means (multiGet req res) (.request (.multiGet req res)) store := by
  have hanswer := eval_multiGetLoop req.keys [] fun _ => store
  have hstore := multiGetLoop_keeps req.keys [] fun _ => store
  refine ⟨_, store, ?_, ⟨rfl, ?_⟩, id⟩
  · rw [multiGet, eval_lock]
    refine Prod.ext (hanswer.trans ?_) hstore
    dsimp only [KeyMap.apply, UnorderedMap.toMap]
    cases req.keys.mapM store.find with
    | none => rfl
    | some values => rfl
  · cases hfind : req.keys.mapM store.toMap with
    | none => simp only [KeyMap.apply, hfind]
    | some values => simp only [KeyMap.apply, hfind]

theorem eval_multiPutLoop_store (ks values : List CppString) (store : UnorderedMap) :
    ∃ store', (multiPutLoop ks values).eval (fun _ => store) =
        (.answer ⟨true, .multiPut⟩, fun _ => store') ∧
      store'.toMap = store.toMap.insertAll (ks.zip values) ∧ (store.Wf → store'.Wf) := by
  induction ks generalizing values store with
  | nil => exact ⟨store, rfl, rfl, id⟩
  | cons k ks ih =>
    cases values with
    | nil => exact ⟨store, rfl, rfl, id⟩
    | cons v values =>
      obtain ⟨store', heval, hmap, hwf⟩ := ih values (store.assign k v)
      refine ⟨store', (eval_access _ _ store).trans heval, ?_, fun h => hwf (h.assign k v)⟩
      rw [hmap, UnorderedMap.toMap_assign, List.zip_cons_cons, KeyMap.insertAll_cons]

theorem multiPut_means (req : MultiPutRequest) (store : UnorderedMap) :
    Means (multiPut req) (.request (.multiPut req)) store := by
  by_cases hlen : req.keys.length = req.values.length
  · obtain ⟨store', heval, hmap, hwf⟩ := eval_multiPutLoop_store req.keys req.values store
    have happly : store.toMap.apply (.multiPut req) =
        (⟨true, .multiPut⟩, UnorderedMap.toMap store') := by
      rw [KeyMap.apply, if_pos hlen, hmap]
    refine ⟨_, store', ?_, ⟨rfl, by rw [happly]⟩, hwf⟩
    rw [happly, multiPut, eval_lock, if_neg (not_not_intro hlen)]
    exact heval
  · have happly : store.toMap.apply (.multiPut req) = (⟨false, .multiPut⟩, store.toMap) := by
      rw [KeyMap.apply, if_neg hlen]
    refine ⟨_, store, ?_, ⟨rfl, by rw [happly]⟩, id⟩
    rw [happly, multiPut, eval_lock, if_pos hlen]
    rfl

theorem wf_empty : UnorderedMap.Wf [] := List.nodup_nil

theorem allKeys_means (hwf : store.Wf) : Means allKeys .allKeys store := by
  refine ⟨.keys store.keys, store, ?_,
    ⟨rfl, store.keys, rfl, hwf, fun _ => UnorderedMap.mem_keys_iff⟩, id⟩
  rw [allKeys, eval_lock]
  exact eval_access _ _ store

/-- Each request is what the map does. -/
theorem request_means (r : Request) (store : UnorderedMap) :
    Means (program (.request r)) (.request r) store := by
  cases r with
  | get req res => exact get_means req res store
  | put req => exact put_means req store
  | append req => exact append_means req store
  | delete req res => exact delete_means req res store
  | multiGet req res => exact multiGet_means req res store
  | multiPut req => exact multiPut_means req store

theorem program_means (hwf : store.Wf) (call : Call) : Means (program call) call store := by
  cases call with
  | allKeys => exact allKeys_means hwf
  | request r => exact request_means r store

/-! ## Orders of calls -/

section

variable {Cid : Type} {order : List Cid}

/-- One operation after the other is one call after the other on the map. -/
theorem trace_of_run (calls : Cid → Call) (hwf : store.Wf) (order : List Cid) :
    ∃ replies store',
      run (seqStep fun i => program (calls i)) (fun _ => store) order =
        (order.zip replies, fun _ => store') ∧ replies.length = order.length ∧
      Trace KeyMap.Admits store.toMap (order.map calls) replies store'.toMap ∧ store'.Wf := by
  induction order generalizing store with
  | nil => exact ⟨[], store, rfl, rfl, .nil _, hwf⟩
  | cons i order ih =>
    obtain ⟨reply, store₁, heval, hadmits, hkeeps⟩ := program_means hwf (calls i)
    obtain ⟨replies, store', hrun, hlen, htrace, hwf'⟩ := ih (hkeeps hwf)
    refine ⟨reply :: replies, store', ?_, congrArg Nat.succ hlen, .cons hadmits htrace, hwf'⟩
    rw [run_cons, seqStep, heval]
    dsimp only
    rw [hrun]
    rfl

/-- The reply of an early return. -/
def Refused : Reply → Prop
  | .answer a => a.ok = false
  | .keys _ => False

theorem mapM_of_contains {ks : List CppString} (h : ∀ k ∈ ks, store.contains k = true) :
    ∃ values, ks.mapM store.find = some values := by
  induction ks with
  | nil => exact ⟨[], rfl⟩
  | cons k ks ih =>
    obtain ⟨hk, hks⟩ := List.forall_mem_cons.mp h
    obtain ⟨values, hvalues⟩ := ih hks
    obtain ⟨value, hvalue⟩ := Option.isSome_iff_exists.mp hk
    refine ⟨value :: values, ?_⟩
    rw [List.mapM_cons, hvalues, show store.find k = some value from hvalue]
    rfl

/-- A call that is not headed for an early return is not refused. -/
theorem not_refused_of_clean {call : Call} {reply : Reply} {m' : KeyMap}
    (hclean : Clean store call) (h : store.toMap.Admits call reply m') : ¬ Refused reply := by
  have hfound : ∀ k, store.contains k = true → ∃ value, store.find k = some value :=
    fun k hk => Option.isSome_iff_exists.mp hk
  cases call with
  | allKeys =>
    obtain ⟨-, ks, rfl, -⟩ := h
    exact id
  | request r =>
    obtain ⟨rfl, -⟩ := h
    cases r with
    | get req res =>
      obtain ⟨value, hvalue⟩ := hfound _ hclean
      simp [Refused, KeyMap.apply, UnorderedMap.toMap, hvalue]
    | put req => exact Bool.true_eq_false_eq_False
    | append req =>
      cases hfind : store.find req.key with
      | none => simp [Refused, KeyMap.apply, UnorderedMap.toMap, hfind]
      | some value => simp [Refused, KeyMap.apply, UnorderedMap.toMap, hfind]
    | delete req res =>
      obtain ⟨value, hvalue⟩ := hfound _ hclean
      simp [Refused, KeyMap.apply, UnorderedMap.toMap, hvalue]
    | multiGet req res =>
      obtain ⟨values, hvalues⟩ := mapM_of_contains hclean
      simp [Refused, KeyMap.apply, UnorderedMap.toMap, hvalues]
    | multiPut req =>
      have hlen : req.keys.length = req.values.length := hclean
      simp [Refused, KeyMap.apply, hlen]

/-- An order of calls on the map that explains a state of the store, with
what the map replies and what it then is. -/
structure Serializes (calls : Cid → Call) (store : UnorderedMap) (c : State Cid)
    (order : List Cid) (replies : List Reply) (m : KeyMap) : Prop where
  nodup : order.Nodup
  made : ∀ i ∈ order, c.status i ≠ .idle
  trace : Trace KeyMap.Admits store.toMap (order.map calls) replies m
  results : ∀ i reply, c.status i = .returned reply → (i, reply) ∈ order.zip replies
  realTime : ∀ i j, i ∈ c.seen j → j ∈ order → [i, j].Sublist order
  refusedLast : ∀ i reply, (i, reply) ∈ order.zip replies → Refused reply →
    ∃ before, order = before ++ [i]
  final : (∀ i p, c.status i ≠ .running p) → (c.mem.val ()).toMap = m

/-- **The store behind one mutex is linearizable**: for every family of
calls, `AllKeys` included, and every interleaving of their steps, one
order of the calls on the map explains the state. A refused call has kept
the mutex, so it is the last of the order. -/
theorem simple_store_linearizable [DecidableEq Cid] (calls : Cid → Call) (hwf : store.Wf)
    {c : State Cid}
    (hreach : Config.Reachable (fun i => program (calls i)) (fun _ => store) c) :
    ∃ order replies m, Serializes calls store c order replies m := by
  obtain ⟨order, h, hreleased⟩ :=
    Config.mutex_linearizable (fun i => program_usesMutex (calls i)) hreach
  obtain ⟨replies, store', hrun, -, htrace, -⟩ := trace_of_run calls hwf order
  refine ⟨order, replies, store'.toMap, h.nodup, h.made, htrace, fun i reply hi => ?_, h.realTime,
    fun i reply hmem hrefused => ?_, fun hquiet => ?_⟩
  · have hres := h.results i reply hi
    rwa [hrun] at hres
  · have hres : (i, reply) ∈
        (run (seqStep fun i => program (calls i)) (fun _ => store) order).1 := by rwa [hrun]
    obtain ⟨before, after, hplace, hreply⟩ := result_at_place hres
    by_cases hlast : after = []
    · exact ⟨before, by rw [hplace, hlast]⟩
    · obtain ⟨replies', store₁, hbefore, -, -, hwf₁⟩ := trace_of_run calls hwf before
      have hrel := hreleased before i after hplace hlast
      rw [Config.ReleasesAt, hbefore] at hrel
      obtain ⟨reply', store₂, heval, hadmits, -⟩ := program_means hwf₁ (calls i)
      rw [hbefore, heval] at hreply
      subst hreply
      exact absurd hrefused (not_refused_of_clean ((releases_iff _ _).mp hrel) hadmits)
  · rw [← h.final hquiet, hrun]

end

/-- A `Get` of a key that is not there, and the keys. -/
def refusedCalls : Bool → Call
  | false => .request (.get ⟨[1]⟩ ⟨[]⟩)
  | true => .allKeys

/-- The `Get` has been refused and `AllKeys` waits. -/
theorem simple_store_linearizable_refused :
    ∃ c : State Bool, c.status false = .returned (.answer ⟨false, .get ⟨[]⟩⟩) ∧
      c.status true = .running (program .allKeys) ∧
      ∃ order replies m, Serializes refusedCalls [] c order replies m := by
  have hinit : Config.Reachable (fun i => program (refusedCalls i)) (fun _ => [])
      (Config.initial fun _ => []) := .refl
  obtain ⟨c, hreach, hret, hidle, -⟩ := Config.Reachable.exec (hinit.tail (.invoke false rfl))
    (Function.update_self _ _ _) rfl
  have hinvoked := hreach.tail (.invoke true (hidle true (by decide)))
  refine ⟨_, ?_, ?_, simple_store_linearizable refusedCalls wf_empty hinvoked⟩
  · rw [← hret]
    simp
  · simp [refusedCalls]

end SystemsProjects.KvStore.Simple
