/-
SystemsProjects.KvStore.Linearizability — what one order of the requests
says about their answers.

Get, Put, Append, Delete and MultiGet lock every bucket they access, so
every interleaving of them is explained by one order on the abstract map
(`requests_linearizable`). The first two sections read off the order what
a client relies on: an appended value stays in the map until the key is
overwritten, a key is inserted between two deletions of it, and a
MultiGet answers with the map at one place of the order.
-/
import SystemsProjects.KvStore.Atomicity

namespace SystemsProjects.KvStore

open SystemsProjects.Base DbMap

/-! ## One request and one key -/

namespace Request

/-- The request may bring `key` into the map. -/
def Inserts (key : CppString) : Request → Prop
  | .put req => req.key = key
  | .append req => req.key = key
  | .multiPut req => key ∈ req.keys
  | _ => False

/-- The request may drop the value `key` has. -/
def Overwrites (key : CppString) : Request → Prop
  | .put req => req.key = key
  | .delete req _ => req.key = key
  | .multiPut req => key ∈ req.keys
  | _ => False

/-- What the request adds to the value of `key`. -/
def appended (key : CppString) : Request → CppString
  | .append req => if req.key = key then req.value else []
  | _ => []

end Request

namespace KeyMap

variable {m : KeyMap} {key : CppString} {r : Request}

theorem insertAll_of_not_mem {items : List (CppString × CppString)}
    (h : ∀ item ∈ items, item.1 ≠ key) : m.insertAll items key = m key := by
  induction items generalizing m with
  | nil => rfl
  | cons item items ih =>
    rw [insertAll_cons, ih fun i hi => h i (List.mem_cons_of_mem item hi), insert]
    exact Function.update_of_ne (h item List.mem_cons_self).symm _ _

theorem insertAll_zip_of_not_mem {keys values : List CppString} (h : key ∉ keys) :
    m.insertAll (keys.zip values) key = m key := by
  refine insertAll_of_not_mem fun item hitem he => h ?_
  rw [← he]
  exact (List.of_mem_zip hitem).1

/-- A key that is absent stays absent until a request inserts it. -/
theorem apply_absent (hr : ¬ r.Inserts key) (h : m key = none) : (m.apply r).2 key = none := by
  cases r with
  | get req res => cases hk : m req.key <;> simp [apply, hk, h]
  | put req =>
    have hne : key ≠ req.key := fun he => hr he.symm
    simp [apply, insert, hne, h]
  | append req =>
    have hne : key ≠ req.key := fun he => hr he.symm
    cases hk : m req.key <;> simp [apply, hk, insert, hne, h]
  | delete req res =>
    cases hk : m req.key with
    | none => simp [apply, hk, h]
    | some value => simp [apply, hk, erase, Function.update_apply, h]
  | multiGet req res => cases hk : req.keys.mapM m <;> simp [apply, hk, h]
  | multiPut req =>
    by_cases hlen : req.keys.length = req.values.length
    · simp only [apply, if_pos hlen]
      rw [insertAll_zip_of_not_mem hr, h]
    · simp only [apply, if_neg hlen, h]

/-- A value stays, and only grows, until a request overwrites it. -/
theorem apply_present {w : CppString} (hr : ¬ r.Overwrites key) (h : m key = some w) :
    (m.apply r).2 key = some (w ++ r.appended key) := by
  cases r with
  | get req res => cases hk : m req.key <;> simp [apply, hk, h, Request.appended]
  | put req =>
    have hne : key ≠ req.key := fun he => hr he.symm
    simp [apply, insert, hne, h, Request.appended]
  | append req =>
    by_cases hne : req.key = key
    · subst hne
      simp [apply, h, insert, Request.appended]
    · cases hk : m req.key <;> simp [apply, hk, insert, Ne.symm hne, hne, h, Request.appended]
  | delete req res =>
    have hne : key ≠ req.key := fun he => hr he.symm
    cases hk : m req.key <;> simp [apply, hk, erase, hne, h, Request.appended]
  | multiGet req res => cases hk : req.keys.mapM m <;> simp [apply, hk, h, Request.appended]
  | multiPut req =>
    by_cases hlen : req.keys.length = req.values.length
    · simp only [apply, if_pos hlen, Request.appended, List.append_nil]
      rw [insertAll_zip_of_not_mem hr, h]
    · simp only [apply, if_neg hlen, h, Request.appended, List.append_nil]

/-- An append puts its value behind the one the key had. -/
theorem apply_append (m : KeyMap) (req : AppendRequest) :
    (m.apply (.append req)).2 req.key = some ((m req.key).getD [] ++ req.value) := by
  cases hk : m req.key <;> simp [apply, hk, insert]

/-- After a deletion the key is absent, whatever the deletion answers. -/
theorem apply_delete (m : KeyMap) (req : DeleteRequest) (res : DeleteResponse) :
    (m.apply (.delete req res)).2 req.key = none := by
  cases hk : m req.key <;> simp [apply, hk, erase]

/-- A deletion succeeds only on a key that is there. -/
theorem apply_delete_ok {req : DeleteRequest} {res : DeleteResponse}
    (h : (m.apply (.delete req res)).1.ok = true) : m req.key ≠ none := by
  intro hk
  simp [apply, hk] at h

/-- A MultiGet that succeeds answers with the values of its keys. -/
theorem apply_multiGet_ok {req : MultiGetRequest} {res : MultiGetResponse}
    {values : List CppString}
    (h : (m.apply (.multiGet req res)).1 = ⟨true, .multiGet ⟨values⟩⟩) :
    req.keys.mapM m = some values := by
  cases hk : req.keys.mapM m <;> simp_all [apply]

end KeyMap

namespace Concurrent

/-! ## An order of requests -/

variable {Cid : Type} {reqs : Cid → Request} {m : KeyMap} {order : List Cid}

/-- The map the requests `order` leave. -/
def mapAfter (reqs : Cid → Request) (m : KeyMap) (order : List Cid) : KeyMap :=
  (run (mapStep reqs) m order).2

@[simp] theorem mapAfter_nil : mapAfter reqs m [] = m := rfl

@[simp] theorem mapAfter_cons (i : Cid) :
    mapAfter reqs m (i :: order) = mapAfter reqs (m.apply (reqs i)).2 order := rfl

theorem mapAfter_append (order' : List Cid) :
    mapAfter reqs m (order ++ order') = mapAfter reqs (mapAfter reqs m order) order' := by
  unfold mapAfter
  rw [run_append]

/-- Every answer is the one its request gets on the map at its place. -/
theorem answer_at_place {i : Cid} {a : Answer} (h : (i, a) ∈ (run (mapStep reqs) m order).1) :
    ∃ before after, order = before ++ i :: after ∧
      a = ((mapAfter reqs m before).apply (reqs i)).1 := by
  induction order generalizing m with
  | nil => cases h
  | cons j order ih =>
    rw [run_cons, List.mem_cons] at h
    cases h with
    | inl he =>
      cases he
      exact ⟨[], order, rfl, rfl⟩
    | inr hm =>
      obtain ⟨before, after, rfl, ha⟩ := ih hm
      exact ⟨j :: before, after, rfl, ha⟩

/-- In an order without repetitions a request has one place. -/
theorem place_unique {i : Cid} {before after before' after' : List Cid}
    (hnd : (before ++ i :: after).Nodup) (h : before ++ i :: after = before' ++ i :: after') :
    before = before' := by
  induction before generalizing before' with
  | nil =>
    cases before' with
    | nil => rfl
    | cons j before' =>
      simp only [List.nil_append, List.cons_append, List.cons.injEq] at h
      obtain ⟨rfl, rfl⟩ := h
      simp at hnd
  | cons k before ih =>
    cases before' with
    | nil =>
      simp only [List.nil_append, List.cons_append, List.cons.injEq] at h
      obtain ⟨rfl, rfl⟩ := h
      simp at hnd
    | cons j before' =>
      simp only [List.cons_append, List.cons.injEq] at h
      obtain ⟨rfl, h⟩ := h
      rw [ih (List.nodup_cons.mp hnd).2 h]

theorem mapAfter_absent {key : CppString} (hr : ∀ i ∈ order, ¬ (reqs i).Inserts key)
    (h : m key = none) : mapAfter reqs m order key = none :=
  have hstep : ∀ i ∈ order, ∀ m : KeyMap, m key = none → (mapStep reqs m i).2 key = none :=
    fun i hi _ hm => KeyMap.apply_absent (hr i hi) hm
  run_invariant hstep h

theorem mapAfter_present {key w : CppString} (hr : ∀ i ∈ order, ¬ (reqs i).Overwrites key)
    (h : m key = some w) :
    mapAfter reqs m order key = some (w ++ order.flatMap fun i => (reqs i).appended key) := by
  induction order generalizing m w with
  | nil => simpa using h
  | cons i order ih =>
    rw [mapAfter_cons, ih (fun j hj => hr j (List.mem_cons_of_mem i hj))
      (KeyMap.apply_present (hr i List.mem_cons_self) h), List.flatMap_cons, List.append_assoc]

/-! ## What a client relies on -/

/-- No append is lost: the value of an append that returned is in the map
at the end, behind what the key had before and in front of what was
appended since, unless a later request overwrites the key. -/
def AppendsKept (reqs : Cid → Request) (m : KeyMap) (c : State Cid) (order : List Cid) : Prop :=
  ∀ i req a, reqs i = .append req → c.status i = .returned a →
    ∃ before after, order = before ++ i :: after ∧
      ((∀ j ∈ after, ¬ (reqs j).Overwrites req.key) →
        mapAfter reqs m order req.key =
          some ((mapAfter reqs m before req.key).getD [] ++ req.value ++
            after.flatMap fun j => (reqs j).appended req.key))

/-- Between two deletions of a key that succeed, a request inserts it. -/
def DeletesOnce (reqs : Cid → Request) (c : State Cid) (order : List Cid) : Prop :=
  ∀ key i j res res' a a', i ≠ j → reqs i = .delete ⟨key⟩ res → reqs j = .delete ⟨key⟩ res' →
    c.status i = .returned a → a.ok = true → c.status j = .returned a' → a'.ok = true →
    ∃ x, (reqs x).Inserts key ∧ ([i, x, j].Sublist order ∨ [j, x, i].Sublist order)

/-- A MultiGet that succeeds answers with the map at its place. -/
def MultiGetsAreSnapshots (reqs : Cid → Request) (m : KeyMap) (c : State Cid)
    (order : List Cid) : Prop :=
  ∀ i req res values, reqs i = .multiGet req res →
    c.status i = .returned ⟨true, .multiGet ⟨values⟩⟩ →
    ∃ before after, order = before ++ i :: after ∧
      req.keys.mapM (mapAfter reqs m before) = some values

section Serial

variable {hasher : Hasher} {M₀ : Buckets} {c : State Cid}

theorem Serializes.appendsKept (h : Serializes hasher reqs M₀ c order) :
    AppendsKept reqs (toMap hasher M₀) c order := by
  intro i req a hreq hi
  obtain ⟨before, after, rfl, -⟩ := answer_at_place (h.results i a hi)
  refine ⟨before, after, rfl, fun hkeep => ?_⟩
  rw [mapAfter_append, mapAfter_cons, hreq]
  exact mapAfter_present hkeep (KeyMap.apply_append _ req)

theorem Serializes.multiGetsAreSnapshots (h : Serializes hasher reqs M₀ c order) :
    MultiGetsAreSnapshots reqs (toMap hasher M₀) c order := by
  intro i req res values hreq hi
  obtain ⟨before, after, rfl, ha⟩ := answer_at_place (h.results i _ hi)
  rw [hreq] at ha
  exact ⟨before, after, rfl, KeyMap.apply_multiGet_ok ha.symm⟩

/-- A deletion that succeeds after a deletion of the same key comes after
an insertion of the key. -/
theorem inserted_between {key : CppString} {i j : Cid} {res res' : DeleteResponse} {a : Answer}
    {before after : List Cid} (hnd : (before ++ i :: after).Nodup)
    (hi : reqs i = .delete ⟨key⟩ res) (hj : reqs j = .delete ⟨key⟩ res') (hmem : j ∈ after)
    (ha : (j, a) ∈ (run (mapStep reqs) m (before ++ i :: after)).1) (hok : a.ok = true) :
    ∃ x, (reqs x).Inserts key ∧ [i, x, j].Sublist (before ++ i :: after) := by
  obtain ⟨mid, rest, rfl⟩ := List.append_of_mem hmem
  obtain ⟨before', after', hplace, rfl⟩ := answer_at_place ha
  have hsplit : before ++ i :: (mid ++ j :: rest) = (before ++ i :: mid) ++ j :: rest := by simp
  have hbefore : before ++ i :: mid = before' :=
    place_unique (hsplit ▸ hnd) (hsplit.symm.trans hplace)
  subst hbefore
  by_contra hnone
  have hmid : ∀ x ∈ mid, ¬ (reqs x).Inserts key := by
    intro x hx hins
    refine hnone ⟨x, hins, ?_⟩
    have hxj : [x, j].Sublist (mid ++ j :: rest) :=
      (List.singleton_sublist.mpr hx).append (List.singleton_sublist.mpr List.mem_cons_self)
    exact (hxj.cons_cons i).trans (List.sublist_append_right before _)
  -- after the first deletion the key is absent, and nothing brings it back
  have habsent : mapAfter reqs m (before ++ i :: mid) key = none := by
    rw [mapAfter_append, mapAfter_cons, hi]
    exact mapAfter_absent hmid (KeyMap.apply_delete _ ⟨key⟩ res)
  rw [hj] at hok
  exact KeyMap.apply_delete_ok hok habsent

theorem Serializes.deletesOnce (h : Serializes hasher reqs M₀ c order) :
    DeletesOnce reqs c order := by
  intro key i j res res' a a' hne hi hj hia hok hja hok'
  have hai := h.results i a hia
  have haj := h.results j a' hja
  have hnd := h.nodup
  obtain ⟨before, after, rfl, -⟩ := answer_at_place hai
  have hjmem : j ∈ before ++ i :: after := by
    obtain ⟨before', after', he, -⟩ := answer_at_place haj
    rw [he]
    simp
  rw [List.mem_append, List.mem_cons] at hjmem
  obtain hjb | rfl | hja' := hjmem
  · obtain ⟨before', mid, rfl⟩ := List.append_of_mem hjb
    rw [List.append_assoc, List.cons_append] at hnd hai ⊢
    obtain ⟨x, hx, hsub⟩ := inserted_between hnd hj hi (by simp) hai hok
    exact ⟨x, hx, .inr hsub⟩
  · exact absurd rfl hne
  · obtain ⟨x, hx, hsub⟩ := inserted_between hnd hi hj hja' haj hok'
    exact ⟨x, hx, .inl hsub⟩

end Serial

/-- **Get, Put, Append, Delete and MultiGet are linearizable**: for every
hasher, well-formed store and family of such requests, every state that
any interleaving of their steps reaches is explained by one order of the
requests on the abstract map. In that order no append is lost, no
deletion succeeds twice for one insertion, and every MultiGet that
succeeds is a snapshot. -/
theorem requests_linearizable [DecidableEq Cid] (hasher : Hasher) (reqs : Cid → Request)
    (hreq : ∀ i req, reqs i ≠ .multiPut req) (M₀ : Buckets) (hwf : Wf hasher M₀) (c : State Cid)
    (hreach : Config.Reachable (fun i => program hasher (reqs i)) M₀ c) :
    ∃ order, Serializes hasher reqs M₀ c order ∧
      AppendsKept reqs (toMap hasher M₀) c order ∧ DeletesOnce reqs c order ∧
      MultiGetsAreSnapshots reqs (toMap hasher M₀) c order := by
  obtain ⟨order, h⟩ := linearizable (fun i => (guarded_of_ne_multiPut (hreq i)).twoPhase) hreach
  have hser := serializes_of_explains hwf h
  exact ⟨order, hser, hser.appendsKept, hser.deletesOnce, hser.multiGetsAreSnapshots⟩

/-- An append that has run to its end and a MultiGet of the same key
under way. -/
def appendRequests : Bool → Request
  | false => .append ⟨[1], [10]⟩
  | true => .multiGet ⟨[[1]]⟩ ⟨[]⟩

theorem requests_linearizable_append :
    ∃ c : State Bool, c.status false = .returned ⟨true, .append⟩ ∧
      ∃ order, Serializes (fun _ => 7) appendRequests (fun _ => []) c order ∧
        AppendsKept appendRequests (toMap (fun _ => 7) fun _ => []) c order ∧
        DeletesOnce appendRequests c order ∧
        MultiGetsAreSnapshots appendRequests (toMap (fun _ => 7) fun _ => []) c order := by
  have hreq : ∀ i req, appendRequests i ≠ .multiPut req := by
    intro i req
    cases i <;> simp [appendRequests]
  have hinit : Config.Reachable (fun i => program (fun _ => 7) (appendRequests i))
      (fun _ => []) (Config.initial fun _ => []) := .refl
  have hexec : ∃ s', (program (fun _ => 7) (appendRequests false)).exec false
      ⟨fun _ => [], fun _ => []⟩ = some (⟨true, .append⟩, s') := ⟨_, rfl⟩
  obtain ⟨s', hexec⟩ := hexec
  obtain ⟨c, hreach, hret, hidle, -⟩ := Config.Reachable.exec (hinit.tail (.invoke false rfl))
    (Function.update_self _ _ _) hexec
  have hinvoked := hreach.tail (.invoke true (hidle true (by decide)))
  refine ⟨_, ?_, requests_linearizable _ appendRequests hreq _ wf_empty _ hinvoked⟩
  rw [← hret]
  simp

end Concurrent

end SystemsProjects.KvStore
