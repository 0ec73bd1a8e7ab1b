/-
SystemsProjects.KvStore.AllKeysScan — ConcurrentKvStore::AllKeys while
other threads write.

AllKeys takes no mutex. Here it steps through the bucket lists with a
list iterator, one item a step, between the steps of the other requests;
a `std::list` iterator stays on its item whatever is inserted, and is
invalid once its item is removed. `since` records the contents the store
has had since the call; it is read by the statements only.

`scan_snapshot` says what AllKeys returns when the run respects the
shared locks AllKeys ought to hold (`Respects`): the key set of one
instant of the call. `scan_not_atomic` is a run that does not respect
them, and returns a key set the store never had.
-/
import SystemsProjects.Base.LockDiscipline
import SystemsProjects.KvStore.Atomicity
import Mathlib.Data.Set.Insert

namespace SystemsProjects.KvStore.Concurrent

open SystemsProjects.Base DbMap

variable {Cid : Type} {hasher : Hasher}

/-! ## The scan -/

/-- `std::list<DbItem>::iterator`: on an item, which its key identifies;
behind the last item; or left behind by the removal of its item. -/
inductive Iter where
  | on (key : CppString)
  | atEnd
  | dangling
  deriving DecidableEq, Repr

namespace Iter

/-- `begin()`. -/
def first : Bucket → Iter
  | [] => .atEnd
  | item :: _ => .on item.key

/-- `++it` for an iterator on the item of `key`. -/
def next (key : CppString) : Bucket → Iter
  | [] => .atEnd
  | item :: items => if item.key = key then first items else next key items

end Iter

/-- How far a call of `AllKeys` is. -/
inductive Scan where
  | ready
  | reading (b : Fin BUCKET_COUNT) (it : Iter) (keys : List CppString)
  | returned (keys : List CppString)
  /-- It has read through an iterator to a removed item. -/
  | undefined
  deriving DecidableEq, Repr

namespace Scan

def underWay : Scan → Bool
  | .reading _ _ _ => true
  | _ => false

/-- The buckets the call has begun to read. -/
def Reached : Scan → Fin BUCKET_COUNT → Prop
  | .reading b _ _, b' => b' ≤ b
  | _, _ => False

/-- The first bucket. -/
def start (M : Buckets) : Scan :=
    .reading ⟨0, BUCKET_COUNT_pos⟩ (Iter.first (M ⟨0, BUCKET_COUNT_pos⟩)) []

/-- One step: the call, the read of one item, or the way to the next
bucket. -/
def step (M : Buckets) : Scan → Option Scan
  | .ready => some (start M)
  | .reading b (.on key) keys => some (.reading b (Iter.next key (M b)) (keys ++ [key]))
  | .reading b .atEnd keys =>
    if h : b.val + 1 < BUCKET_COUNT then
      some (.reading ⟨b.val + 1, h⟩ (Iter.first (M ⟨b.val + 1, h⟩)) keys)
    else some (.returned keys)
  | .reading _ .dangling _ => some .undefined
  | .returned _ => none
  | .undefined => none

/-- The scan after another thread's step: an iterator to a removed item
is invalid. -/
def after (M : Buckets) : Scan → Scan
  | .reading b (.on key) keys =>
    if key ∈ (M b).keys then .reading b (.on key) keys else .reading b .dangling keys
  | s => s

end Scan

/-! ## The scan among the requests -/

/-- The store with its requests, a call of `AllKeys`, and the contents
the store has had since that call. -/
structure ScanState (Cid : Type) where
  store : State Cid
  scan : Scan
  since : Set Buckets

namespace ScanState

def initial (M₀ : Buckets) : ScanState Cid := ⟨Config.initial M₀, .ready, ∅⟩

variable [DecidableEq Cid]

/-- A step of a request, or of `AllKeys`. -/
inductive Step (hasher : Hasher) (reqs : Cid → Request) : ScanState Cid → ScanState Cid → Prop
  | request {s : ScanState Cid} {c' : State Cid}
      (h : Config.Step (fun i => program hasher (reqs i)) s.store c') :
      Step hasher reqs s
        { store := c', scan := s.scan.after c'.mem.val,
          since := if s.scan.underWay then insert c'.mem.val s.since else s.since }
  | scan {s : ScanState Cid} {scan' : Scan} (h : s.scan.step s.store.mem.val = some scan') :
      Step hasher reqs s
        { s with scan := scan', since := insert s.store.mem.val s.since }

/-- The step respects the shared locks `AllKeys` does not take: it begins
a bucket only when no request holds the bucket's mutex exclusively, and
no request takes exclusively the mutex of a bucket it has begun. -/
def Respects (s s' : ScanState Cid) : Prop :=
  ∀ b, s'.scan.Reached b → ∀ i, (i, LockMode.exclusive) ∈ s'.store.mem.owners b →
    s.scan.Reached b ∧ (i, LockMode.exclusive) ∈ s.store.mem.owners b

/-- What `AllKeys` promises in a state: it returns the keys of one
instant since its call, each once; it stands on no item of a bucket that
a request holds exclusively, and on no removed item. -/
structure AllKeysAtomic (hasher : Hasher) (s : ScanState Cid) : Prop where
  snapshot : ∀ keys, s.scan = .returned keys →
    ∃ M ∈ s.since, keys.Nodup ∧ ∀ k, k ∈ keys ↔ (toMap hasher M k).isSome
  unlocked : ∀ b key keys, s.scan = .reading b (.on key) keys →
    ∀ i, (i, LockMode.exclusive) ∉ s.store.mem.owners b
  defined : s.scan ≠ .undefined

end ScanState

/-! ## Well-formed contents -/

/-- Items are inserted and removed in the bucket of their key. -/
def Home (hasher : Hasher) (b : Fin BUCKET_COUNT) : BucketAct → Prop
  | .insertItem key _ => bucket hasher key = b
  | .removeItem key => bucket hasher key = b
  | _ => True

theorem multiGetLoop_acts (guards : List (Fin BUCKET_COUNT)) (keys values : List CppString) :
    (multiGetLoop hasher guards keys values).Acts (Home hasher) := by
  induction keys generalizing values with
  | nil => exact Prog.Acts.unlockAll _ _ trivial
  | cons k keys ih =>
    refine ⟨trivial, fun item => ?_⟩
    cases item with
    | none => exact Prog.Acts.unlockAll _ _ trivial
    | some item => exact ih _

theorem multiPutLoop_acts (guards : List (Fin BUCKET_COUNT)) (keys values : List CppString) :
    (multiPutLoop hasher guards keys values).Acts (Home hasher) := by
  induction keys generalizing values with
  | nil => exact Prog.Acts.unlockAll _ _ trivial
  | cons k keys ih =>
    cases values with
    | nil => exact Prog.Acts.unlockAll _ _ trivial
    | cons v values => exact ⟨rfl, fun _ => ih values⟩

theorem program_acts (r : Request) : (program hasher r).Acts (Home hasher) := by
  cases r with
  | get req res =>
    refine ⟨trivial, fun item => ?_⟩
    cases item <;> trivial
  | put req => exact ⟨rfl, fun _ => trivial⟩
  | append req =>
    refine ⟨trivial, fun item => ?_⟩
    cases item <;> exact ⟨rfl, fun _ => trivial⟩
  | delete req res =>
    refine ⟨trivial, fun item => ?_⟩
    cases item with
    | none => trivial
    | some item => exact ⟨rfl, fun _ => trivial⟩
  | multiGet req res => exact Prog.Acts.lockAll _ _ (multiGetLoop_acts _ _ _)
  | multiPut req =>
    refine Prog.Acts.lockAll _ _ ?_
    split
    · exact Prog.Acts.unlockAll _ _ trivial
    · exact multiPutLoop_acts _ _ _

/-- The contents stay well formed in every interleaving. -/
theorem wf_of_reachable [DecidableEq Cid] {reqs : Cid → Request} {M₀ : Buckets}
    (hwf : Wf hasher M₀) {c : State Cid}
    (hreach : Config.Reachable (fun i => program hasher (reqs i)) M₀ c) :
    Wf hasher c.mem.val := by
  refine hreach.cells (fun i => program_acts (reqs i)) (fun M b a hhome h => ?_) hwf
  cases a with
  | getIfExists key => simpa using h
  | items => simpa using h
  | insertItem key value =>
    obtain rfl : bucket hasher key = b := hhome
    exact h.insertItem key value
  | removeItem key =>
    obtain rfl : bucket hasher key = b := hhome
    exact h.removeItem key

/-! ## What the scan has read -/

/-- On a list with no key twice, the item behind an item. -/
theorem Iter.next_eq {before after : Bucket} {item : DbItem}
    (h : Bucket.Wf (before ++ item :: after)) :
    Iter.next item.key (before ++ item :: after) = Iter.first after := by
  induction before with
  | nil => simp [Iter.next]
  | cons i before ih =>
    obtain ⟨hi, hrest⟩ := List.nodup_cons.mp h
    have hne : i.key ≠ item.key := fun he => hi (by simp [he])
    rw [List.cons_append, Iter.next, if_neg hne]
    exact ih hrest

/-- The keys of the first `n` buckets. -/
def scanned (M : Buckets) (n : Nat) : List CppString :=
  ((List.finRange BUCKET_COUNT).take n).flatMap fun b => (M b).keys

@[simp] theorem scanned_zero (M : Buckets) : scanned M 0 = [] := rfl

theorem scanned_succ (M : Buckets) (b : Fin BUCKET_COUNT) :
    scanned M (b.val + 1) = scanned M b.val ++ (M b).keys := by
  unfold scanned
  rw [List.take_add_one]
  simp

theorem scanned_all (M : Buckets) : scanned M BUCKET_COUNT = (allKeys.eval M).1 := by
  rw [allKeys, eval_allKeysLoop, scanned, List.take_of_length_le (by simp)]
  rfl

theorem scanned_congr {M M' : Buckets} {n : Nat}
    (h : ∀ b : Fin BUCKET_COUNT, b.val < n → M b = M' b) :
    scanned M n = scanned M' n := by
  unfold scanned
  refine List.flatMap_congr fun b hb => ?_
  obtain ⟨i, hi, hget⟩ := List.getElem_of_mem hb
  rw [List.length_take] at hi
  rw [List.getElem_take, List.getElem_finRange] at hget
  rw [h b (by rw [← hget]; exact lt_of_lt_of_le hi (min_le_left _ _))]

/-- A scan that nothing has disturbed: it has read the buckets before `b`
and part of bucket `b`. -/
def Undisturbed (M : Buckets) (b : Fin BUCKET_COUNT) (it : Iter) (keys : List CppString) : Prop :=
  ∃ read todo, M b = read ++ todo ∧ it = Iter.first todo ∧
    keys = scanned M b.val ++ Bucket.keys read

/-- What one step of an undisturbed scan leads to. -/
theorem Undisturbed.step {M : Buckets} (hwf : Wf hasher M) {b : Fin BUCKET_COUNT} {it : Iter}
    {keys : List CppString} (h : Undisturbed M b it keys) {scan' : Scan}
    (hstep : (Scan.reading b it keys).step M = some scan') :
    (∃ b' it' keys', scan' = .reading b' it' keys' ∧ Undisturbed M b' it' keys') ∨
      scan' = .returned (allKeys.eval M).1 := by
  obtain ⟨read, todo, hb, rfl, rfl⟩ := h
  cases todo with
  | cons item todo =>
    refine .inl ⟨b, Iter.first todo, _, ?_, read ++ [item], todo, by simp [hb], rfl, rfl⟩
    have hnext : Iter.next item.key (M b) = Iter.first todo := by
      have := hwf.nodup b
      rw [hb] at this ⊢
      exact Iter.next_eq this
    change some (Scan.reading b (Iter.next item.key (M b)) _) = some scan' at hstep
    rw [hnext, Option.some.injEq] at hstep
    simp [← hstep, Bucket.keys]
  | nil =>
    have hkeys : scanned M b.val ++ Bucket.keys read = scanned M (b.val + 1) := by
      rw [scanned_succ, hb, List.append_nil]
    simp only [Iter.first, Scan.step, hkeys] at hstep
    split at hstep
    · rename_i hlt
      cases hstep
      exact .inl ⟨_, _, _, rfl, [], M ⟨b.val + 1, hlt⟩, rfl, rfl, by simp⟩
    · rename_i hge
      cases hstep
      have hlast : b.val + 1 = BUCKET_COUNT := le_antisymm b.isLt (not_lt.mp hge)
      exact .inr (by rw [hlast, scanned_all])

/-- Changes to buckets the scan has not begun leave it undisturbed. -/
theorem Undisturbed.after {M M' : Buckets} {b : Fin BUCKET_COUNT} {it : Iter}
    {keys : List CppString} (h : Undisturbed M b it keys) (hM : ∀ b', b' ≤ b → M' b' = M b') :
    (Scan.reading b it keys).after M' = .reading b it keys ∧ Undisturbed M' b it keys := by
  obtain ⟨read, todo, hb, rfl, rfl⟩ := h
  have hscanned : scanned M b.val = scanned M' b.val :=
    scanned_congr fun b' hb' => (hM b' (Nat.le_of_lt hb')).symm
  refine ⟨?_, read, todo, (hM b (Nat.le_refl _)).trans hb, rfl, by rw [hscanned]⟩
  cases todo with
  | nil => rfl
  | cons item todo =>
    have hmem : item.key ∈ (M' b).keys := by
      rw [hM b (Nat.le_refl _), hb]
      simp [Bucket.keys]
    exact if_pos hmem

/-! ## Runs that respect the locks -/

namespace ScanState

variable [DecidableEq Cid] {reqs : Cid → Request} {M₀ : Buckets} {s s' : ScanState Cid}

/-- A step that respects the shared locks. -/
def GuardedStep (hasher : Hasher) (reqs : Cid → Request) (s s' : ScanState Cid) : Prop :=
  Step hasher reqs s s' ∧ Respects s s'

structure Inv (hasher : Hasher) (reqs : Cid → Request) (M₀ : Buckets) (s : ScanState Cid) :
    Prop where
  reachable : Config.Reachable (fun i => program hasher (reqs i)) M₀ s.store
  unlocked : ∀ b, s.scan.Reached b → ∀ i, (i, LockMode.exclusive) ∉ s.store.mem.owners b
  current : s.scan.underWay = true → s.store.mem.val ∈ s.since
  reading : ∀ b it keys, s.scan = .reading b it keys → Undisturbed s.store.mem.val b it keys
  returned : ∀ keys, s.scan = .returned keys →
    ∃ M ∈ s.since, Wf hasher M ∧ keys = (allKeys.eval M).1
  defined : s.scan ≠ .undefined

theorem inv_initial (hasher : Hasher) (reqs : Cid → Request) (M₀ : Buckets) :
    Inv hasher reqs M₀ (initial M₀) where
  reachable := .refl
  unlocked := fun _ h => absurd h id
  current := fun h => by cases h
  reading := fun _ _ _ h => by cases h
  returned := fun _ h => by cases h
  defined := by simp [initial]

/-- Two-phase requests leave the buckets alone that the scan has begun. -/
theorem Inv.val_eq (h : Inv hasher reqs M₀ s) (hreq : ∀ i req, reqs i ≠ .multiPut req)
    {c' : State Cid} (hstep : Config.Step (fun i => program hasher (reqs i)) s.store c')
    {b : Fin BUCKET_COUNT} (hb : s.scan.Reached b) : c'.mem.val b = s.store.mem.val b := by
  obtain ⟨held, hfollows⟩ := h.reachable.follows (Prog.discipline_twoPhase (Covers bucketSpec))
    fun i => (guarded_of_ne_multiPut (hreq i)).twoPhase
  exact hfollows.val_eq hstep (h.unlocked b hb)

theorem Inv.request (h : Inv hasher reqs M₀ s) (hreq : ∀ i req, reqs i ≠ .multiPut req)
    {c' : State Cid} (hstep : Config.Step (fun i => program hasher (reqs i)) s.store c')
    (hunlocked : ∀ b, (s.scan.after c'.mem.val).Reached b →
      ∀ i, (i, LockMode.exclusive) ∉ c'.mem.owners b) :
    Inv hasher reqs M₀
      { store := c', scan := s.scan.after c'.mem.val,
        since := if s.scan.underWay then insert c'.mem.val s.since else s.since } := by
  obtain ⟨c, scan, since⟩ := s
  have hreach := h.reachable.tail hstep
  cases scan with
  | ready =>
    exact ⟨hreach, hunlocked, fun hw => (by cases hw), fun _ _ _ he => (by cases he),
      fun _ he => (by cases he), by simp [Scan.after]⟩
  | undefined => exact absurd rfl h.defined
  | returned keys =>
    exact ⟨hreach, hunlocked, fun hw => (by cases hw), fun _ _ _ he => (by cases he),
      h.returned, by simp [Scan.after]⟩
  | reading b it keys =>
    have hval : ∀ b', b' ≤ b → c'.mem.val b' = c.mem.val b' :=
      fun b' hb' => h.val_eq hreq hstep hb'
    obtain ⟨hafter, hundisturbed⟩ := (h.reading b it keys rfl).after hval
    dsimp only at hafter hunlocked ⊢
    rw [hafter] at hunlocked ⊢
    refine ⟨hreach, hunlocked, fun _ => Set.mem_insert _ _, fun b' it' keys' he => ?_,
      fun _ he => (by cases he), by simp⟩
    cases he
    exact hundisturbed

theorem Inv.scan (h : Inv hasher reqs M₀ s) (hwf : Wf hasher M₀) {scan' : Scan}
    (hstep : s.scan.step s.store.mem.val = some scan')
    (hunlocked : ∀ b, scan'.Reached b → ∀ i, (i, LockMode.exclusive) ∉ s.store.mem.owners b) :
    Inv hasher reqs M₀
      { s with scan := scan', since := insert s.store.mem.val s.since } := by
  have hwf' : Wf hasher s.store.mem.val := wf_of_reachable hwf h.reachable
  have hnow : s.store.mem.val ∈ insert s.store.mem.val s.since := Set.mem_insert _ _
  obtain ⟨c, scan, since⟩ := s
  cases scan with
  | returned keys => cases hstep
  | undefined => cases hstep
  | ready =>
    cases hstep
    refine ⟨h.reachable, hunlocked, fun _ => hnow, fun b it keys he => ?_,
      fun _ he => (by cases he),
      by simp [Scan.start]⟩
    cases he
    exact ⟨[], _, rfl, rfl, rfl⟩
  | reading b it keys =>
    obtain ⟨b', it', keys', rfl, hund⟩ | rfl := (h.reading b it keys rfl).step hwf' hstep
    · refine ⟨h.reachable, hunlocked, fun _ => hnow, fun _ _ _ he => ?_, fun _ he => (by cases he),
        by simp⟩
      cases he
      exact hund
    · refine ⟨h.reachable, hunlocked, fun hw => (by cases hw), fun _ _ _ he => (by cases he),
        fun keys he => ?_, by simp⟩
      exact ⟨_, hnow, hwf', (Scan.returned.inj he).symm⟩

theorem Inv.step (h : Inv hasher reqs M₀ s) (hreq : ∀ i req, reqs i ≠ .multiPut req)
    (hwf : Wf hasher M₀) (hstep : GuardedStep hasher reqs s s') : Inv hasher reqs M₀ s' := by
  obtain ⟨hstep, hresp⟩ := hstep
  have hunlocked : ∀ b, s'.scan.Reached b →
      ∀ i, (i, LockMode.exclusive) ∉ s'.store.mem.owners b := by
    intro b hb i hi
    obtain ⟨hb', hi'⟩ := hresp b hb i hi
    exact h.unlocked b hb' i hi'
  cases hstep with
  | request hc => exact h.request hreq hc hunlocked
  | scan hs => exact h.scan hwf hs hunlocked

/-- **AllKeys returns a snapshot in runs that respect its locks**: for
every hasher, well-formed store and family of requests other than
MultiPut, in every state of a run whose steps respect the shared locks
AllKeys does not take. -/
theorem scan_snapshot (hasher : Hasher) (reqs : Cid → Request)
    (hreq : ∀ i req, reqs i ≠ .multiPut req) (M₀ : Buckets) (hwf : Wf hasher M₀)
    (s : ScanState Cid)
    (hreach : Relation.ReflTransGen (GuardedStep hasher reqs) (initial M₀) s) :
    AllKeysAtomic hasher s := by
  have hinv : Inv hasher reqs M₀ s := by
    induction hreach with
    | refl => exact inv_initial hasher reqs M₀
    | tail _ hstep ih => exact ih.step hreq hwf hstep
  refine ⟨fun keys hk => ?_, fun b key keys hk => ?_, hinv.defined⟩
  · obtain ⟨M, hM, hwfM, hkeys⟩ := hinv.returned keys hk
    obtain ⟨ks, heval, hnodup, hmem⟩ := eval_allKeys hwfM
    rw [heval] at hkeys
    subst hkeys
    exact ⟨M, hM, hnodup, hmem⟩
  · refine hinv.unlocked b ?_
    rw [hk]
    exact Nat.le_refl _

/-! ### One thread at a time -/

section Alone

variable {c : State Cid} {since : Set Buckets}

theorem step_scan (hfree : ∀ b, c.mem.owners b = []) (hnow : c.mem.val ∈ since)
    {scan scan' : Scan} (h : scan.step c.mem.val = some scan') :
    GuardedStep hasher reqs ⟨c, scan, since⟩ ⟨c, scan', since⟩ := by
  have hstep : Step hasher reqs ⟨c, scan, since⟩ ⟨c, scan', insert c.mem.val since⟩ := .scan h
  rw [show insert c.mem.val since = since from Set.insert_eq_of_mem hnow] at hstep
  refine ⟨hstep, fun b _ i hi => ?_⟩
  rw [show c.mem.owners b = [] from hfree b] at hi
  cases hi

variable (hasher reqs since) in
/-- Left alone, the scan reads on to the end of its bucket. -/
theorem scan_bucket (hfree : ∀ b, c.mem.owners b = []) (hnow : c.mem.val ∈ since)
    {b : Fin BUCKET_COUNT} (read todo : Bucket) (hb : c.mem.val b = read ++ todo)
    (hwf : (c.mem.val b).Wf) (keys : List CppString) :
    Relation.ReflTransGen (GuardedStep hasher reqs) ⟨c, .reading b (Iter.first todo) keys, since⟩
      ⟨c, .reading b .atEnd (keys ++ Bucket.keys todo), since⟩ := by
  induction todo generalizing read keys with
  | nil => rw [Bucket.keys_nil, List.append_nil]; exact .refl
  | cons item todo ih =>
    have hnext : Iter.next item.key (c.mem.val b) = Iter.first todo := by
      rw [hb] at hwf ⊢
      exact Iter.next_eq hwf
    have hstep : (Scan.reading b (.on item.key) keys).step c.mem.val =
        some (.reading b (Iter.first todo) (keys ++ [item.key])) := by
      rw [Scan.step, hnext]
    refine .head (step_scan hfree hnow hstep) ?_
    have hrest := ih (read ++ [item]) (by simp [hb]) (keys ++ [item.key])
    rwa [List.append_assoc] at hrest

variable (hasher reqs since) in
/-- Left alone, the scan goes on through the buckets and returns. -/
theorem scan_returns (hfree : ∀ b, c.mem.owners b = []) (hnow : c.mem.val ∈ since)
    (hwf : ∀ b, (c.mem.val b).Wf) {n : Nat} {b : Fin BUCKET_COUNT}
    (hn : b.val + n + 1 = BUCKET_COUNT) (keys : List CppString) :
    Relation.ReflTransGen (GuardedStep hasher reqs) ⟨c, .reading b .atEnd keys, since⟩
      ⟨c, .returned (keys ++
        ((List.finRange BUCKET_COUNT).drop (b.val + 1)).flatMap fun b => (c.mem.val b).keys),
        since⟩ := by
  induction n generalizing b keys with
  | zero =>
    have hstep : (Scan.reading b .atEnd keys).step c.mem.val = some (.returned keys) :=
      dif_neg (by omega)
    rw [List.drop_of_length_le (by simp; omega), List.flatMap_nil, List.append_nil]
    exact .single (step_scan hfree hnow hstep)
  | succ n ih =>
    have hlt : b.val + 1 < BUCKET_COUNT := by omega
    have hstep : (Scan.reading b .atEnd keys).step c.mem.val =
        some (.reading ⟨b.val + 1, hlt⟩ (Iter.first (c.mem.val ⟨b.val + 1, hlt⟩)) keys) :=
      dif_pos hlt
    refine .head (step_scan hfree hnow hstep) ?_
    refine .trans (scan_bucket hasher reqs since hfree hnow [] _ rfl (hwf _) keys) ?_
    have hrest := ih (b := ⟨b.val + 1, hlt⟩) (by dsimp only; omega)
      (keys ++ (c.mem.val ⟨b.val + 1, hlt⟩).keys)
    rw [List.drop_eq_getElem_cons (by simpa using hlt), List.flatMap_cons, List.getElem_finRange,
      ← List.append_assoc]
    exact hrest

theorem step_request {c' : State Cid} {scan : Scan} {since' : Set Buckets}
    (h : Config.Step (fun i => program hasher (reqs i)) c c') (hw : scan.underWay = true)
    (hsince : insert c'.mem.val since = since') (hafter : scan.after c'.mem.val = scan) :
    Step hasher reqs ⟨c, scan, since⟩ ⟨c', scan, since'⟩ := by
  have hstep := Step.request (s := ⟨c, scan, since⟩) h
  dsimp only at hstep
  rwa [hafter, if_pos hw, hsince] at hstep

variable (hasher reqs) in
/-- A call under way takes its next step. -/
theorem exists_run {i : Cid} {p p' : Op Answer}
    {mem' : Memory bucketSpec (Fin BUCKET_COUNT) Cid} (hi : c.status i = .running p)
    (hs : p.step i c.mem = some (p', mem')) :
    ∃ c', Config.Step (fun i => program hasher (reqs i)) c c' ∧ c'.mem = mem' ∧
      c'.status = Function.update c.status i (.running p') :=
  ⟨_, .run i hi hs, rfl, rfl⟩

/-- A step that leaves the scan where it is, and no mutex taken but that of
bucket `b`. -/
def StepIn (hasher : Hasher) (reqs : Cid → Request) (scan : Scan) (b : Fin BUCKET_COUNT)
    (s s' : ScanState Cid) : Prop :=
  Step hasher reqs s s' ∧ s'.scan = scan ∧ ∀ b' ≠ b, s'.store.mem.owners b' = []

theorem StepIn.guarded {scan : Scan} {b : Fin BUCKET_COUNT} (hb : ¬ scan.Reached b)
    (h : StepIn hasher reqs scan b s s') : GuardedStep hasher reqs s s' := by
  obtain ⟨hstep, rfl, hfree⟩ := h
  refine ⟨hstep, fun b' hb' i hi => ?_⟩
  rw [hfree b' fun he => hb (he ▸ hb')] at hi
  cases hi

variable (hasher reqs since) in
/-- A Put runs to its end while the scan stands still. -/
theorem put_runs (scan : Scan) {i : Cid} {req : PutRequest} (hi : c.status i = .idle)
    (hreq : reqs i = .put req) (hfree : ∀ b, c.mem.owners b = []) (hnow : c.mem.val ∈ since)
    (hw : scan.underWay = true) (hbefore : scan.after c.mem.val = scan)
    (hafter : scan.after (Function.update c.mem.val (bucket hasher req.key)
      ((c.mem.val (bucket hasher req.key)).insertItem req.key req.value)) = scan) :
    ∃ c' : State Cid, c'.mem.val = Function.update c.mem.val (bucket hasher req.key)
        ((c.mem.val (bucket hasher req.key)).insertItem req.key req.value) ∧
      (∀ b, c'.mem.owners b = []) ∧ (∀ j, j ≠ i → c'.status j = c.status j) ∧
      Relation.ReflTransGen (StepIn hasher reqs scan (bucket hasher req.key)) ⟨c, scan, since⟩
        ⟨c', scan, insert c'.mem.val since⟩ := by
  let b := bucket hasher req.key
  let insertion : Op Answer :=
    .act b (.insertItem req.key req.value) fun _ => .unlock b .exclusive <| .ret ⟨true, .put⟩
  -- the call, the lock, the insertion, the release, the return
  obtain ⟨c₁, s₁, m₁, st₁⟩ : ∃ c₁, Config.Step (fun i => program hasher (reqs i)) c c₁ ∧
      c₁.mem = c.mem ∧
      c₁.status = Function.update c.status i (.running (.lock b .exclusive insertion)) :=
    ⟨_, .invoke i hi, rfl, by rw [hreq]; rfl⟩
  have r₁ : c₁.status i = .running (.lock b .exclusive insertion) := by
    rw [st₁, Function.update_self]
  have hgr : Grants (c₁.mem.owners b) .exclusive := by rw [m₁]; exact hfree b
  obtain ⟨c₂, s₂, m₂, st₂⟩ := exists_run hasher reqs r₁ (if_pos hgr)
  have r₂ : c₂.status i = .running insertion := by rw [st₂, Function.update_self]
  obtain ⟨c₃, s₃, m₃, st₃⟩ := exists_run hasher reqs r₂ rfl
  have r₃ : c₃.status i = .running (.unlock b .exclusive <| .ret ⟨true, .put⟩) := by
    rw [st₃, Function.update_self]
  obtain ⟨c₄, s₄, m₄, st₄⟩ := exists_run hasher reqs r₃ rfl
  have r₄ : c₄.status i = .running (.ret ⟨true, .put⟩) := by rw [st₄, Function.update_self]
  obtain ⟨c₅, s₅, m₅, st₅⟩ : ∃ c₅, Config.Step (fun i => program hasher (reqs i)) c₄ c₅ ∧
      c₅.mem = c₄.mem ∧ c₅.status = Function.update c₄.status i (.returned ⟨true, .put⟩) :=
    ⟨_, .return i r₄, rfl, rfl⟩
  have hval₂ : c₂.mem.val = c.mem.val := by rw [m₂, Memory.acquire_val, m₁]
  have hval₃ : c₃.mem.val = Function.update c.mem.val b
      ((c.mem.val b).insertItem req.key req.value) := by
    rw [m₃, Memory.write_val, hval₂]
  have hval₄ : c₄.mem.val = c₃.mem.val := by rw [m₄, Memory.release_val]
  have hval₅ : c₅.mem.val = c₃.mem.val := by rw [m₅, hval₄]
  have hstay : insert c.mem.val since = since := Set.insert_eq_of_mem hnow
  have hstay' : insert c₃.mem.val (insert c₃.mem.val since) = insert c₃.mem.val since :=
    Set.insert_eq_of_mem (Set.mem_insert _ _)
  have hother : ∀ b', b' ≠ b → c₁.mem.owners b' = [] ∧ c₂.mem.owners b' = [] ∧
      c₃.mem.owners b' = [] ∧ c₄.mem.owners b' = [] ∧ c₅.mem.owners b' = [] := by
    intro b' hb
    rw [m₅, m₄, m₃, m₂, m₁]
    simp [Memory.acquire, Memory.release, Memory.write, hb, hfree]
  refine ⟨c₅, hval₅.trans hval₃, fun b' => ?_, fun j hj => ?_, ?_⟩
  · by_cases hb : b' = b
    · subst hb
      rw [m₅, m₄, m₃, m₂, m₁]
      simp [Memory.acquire, Memory.release, Memory.write, hfree]
    · exact (hother b' hb).2.2.2.2
  · rw [st₅, st₄, st₃, st₂, st₁]
    simp [hj]
  · rw [← hval₃] at hafter
    rw [hval₅]
    refine .head ⟨step_request s₁ hw (by rw [m₁, hstay]) (by rw [m₁]; exact hbefore), rfl,
      fun b' hb => (hother b' hb).1⟩ ?_
    refine .head ⟨step_request s₂ hw (by rw [hval₂, hstay]) (by rw [hval₂]; exact hbefore), rfl,
      fun b' hb => (hother b' hb).2.1⟩ ?_
    refine .head ⟨step_request s₃ hw rfl hafter, rfl, fun b' hb => (hother b' hb).2.2.1⟩ ?_
    refine .head ⟨step_request s₄ hw (by rw [hval₄, hstay']) (by rw [hval₄]; exact hafter), rfl,
      fun b' hb => (hother b' hb).2.2.2.1⟩ ?_
    exact .single ⟨step_request s₅ hw (by rw [hval₅, hstay']) (by rw [hval₅]; exact hafter), rfl,
      fun b' hb => (hother b' hb).2.2.2.2⟩

end Alone

/-- A key of one byte goes to the bucket of that number. -/
def byteHasher : Hasher
  | [a] => a.toUInt64
  | _ => 0

/-- The key `[1]`, in bucket 1. -/
def oneKey : Buckets := fun b => if b.val = 1 then [⟨[1], [0]⟩] else []

/-- Two Puts, of keys in bucket 0 and in bucket 2. -/
def twoPuts : Bool → Request
  | false => .put ⟨[0], [7]⟩
  | true => .put ⟨[2], [7]⟩

theorem wf_oneKey : Wf byteHasher oneKey where
  nodup := by
    intro b
    unfold oneKey
    split
    · exact List.nodup_singleton _
    · exact List.nodup_nil
  home := by
    intro b key hkey
    unfold oneKey at hkey
    split at hkey
    · obtain rfl := List.mem_singleton.mp hkey
      exact Fin.ext (Eq.symm ‹b.val = 1›)
    · cases hkey

/-- The contents after the second Put. -/
def secondPut : Buckets := Function.update oneKey (bucket byteHasher [2])
  ((oneKey (bucket byteHasher [2])).insertItem [2] [7])

/-- While AllKeys is in bucket 0 a Put fills bucket 2. -/
theorem scan_snapshot_put :
    ∃ s : ScanState Bool, s.scan = .returned [[1], [2]] ∧ s.since = {secondPut, oneKey} ∧
      AllKeysAtomic byteHasher s := by
  have hreqs : ∀ i req, twoPuts i ≠ .multiPut req := by
    intro i req
    cases i <;> simp [twoPuts]
  have hcall : GuardedStep byteHasher twoPuts (initial oneKey)
      ⟨Config.initial oneKey, Scan.start oneKey, insert oneKey ∅⟩ :=
    ⟨.scan rfl, fun b _ i hi => by cases hi⟩
  rw [insert_empty_eq] at hcall
  obtain ⟨c, hval, hfree, -, hput⟩ := put_runs byteHasher twoPuts {oneKey}
    (c := Config.initial oneKey) (Scan.start oneKey) (i := true) rfl rfl (fun _ => rfl)
    (Set.mem_singleton _) rfl rfl rfl
  rw [show c.mem.val = secondPut from hval] at hput
  have hbucket : ¬ (Scan.start oneKey).Reached (bucket byteHasher [2]) :=
    show ¬ bucket byteHasher [2] ≤ ⟨0, BUCKET_COUNT_pos⟩ by decide
  have hguarded := Relation.ReflTransGen.mono (fun _ _ hstep => StepIn.guarded hbucket hstep) _ _
    hput
  have hwf : ∀ b, (c.mem.val b).Wf := by
    rw [hval]
    exact (wf_oneKey.insertItem [2] [7]).nodup
  have hnow : c.mem.val ∈ ({secondPut, oneKey} : Set Buckets) := by
    rw [hval]
    exact Set.mem_insert _ _
  have hrest := scan_returns byteHasher twoPuts {secondPut, oneKey} hfree hnow hwf
    (b := ⟨0, by decide⟩) (n := 59) rfl []
  have hreach := (Relation.ReflTransGen.head hcall hguarded).trans hrest
  refine ⟨_, ?_, rfl, scan_snapshot byteHasher twoPuts hreqs oneKey wf_oneKey _ hreach⟩
  rw [hval]
  rfl

/-! ## A run that does not respect them -/

/-- The contents after the first Put, and after both. -/
def onePut : Buckets := Function.update oneKey (bucket byteHasher [0])
  ((oneKey (bucket byteHasher [0])).insertItem [0] [7])

def bothPuts : Buckets := Function.update onePut (bucket byteHasher [2])
  ((onePut (bucket byteHasher [2])).insertItem [2] [7])

/-- AllKeys passes the empty bucket 0; a Put fills it, another Put fills
bucket 2; AllKeys goes on and meets the second new key. -/
theorem missed_put_reachable :
    ∃ s : ScanState Bool,
      Relation.ReflTransGen (Step byteHasher twoPuts) (initial oneKey) s ∧
      s.scan = .returned [[1], [2]] ∧ s.since = {bothPuts, onePut, oneKey} := by
  let b₁ : Fin BUCKET_COUNT := ⟨1, by decide⟩
  let atOne : Scan := .reading b₁ (Iter.first [⟨[1], [0]⟩]) []
  have hcalled : Relation.ReflTransGen (Step byteHasher twoPuts) (initial oneKey)
      ⟨Config.initial oneKey, atOne, {oneKey}⟩ := by
    have hcall : Step byteHasher twoPuts (initial oneKey)
        ⟨Config.initial oneKey, Scan.start oneKey, insert oneKey ∅⟩ := .scan rfl
    refine .head hcall (.single ?_)
    rw [insert_empty_eq]
    exact (step_scan (fun _ => rfl) (Set.mem_singleton _) rfl).1
  obtain ⟨c, hval, hfree, hst, hput⟩ := put_runs byteHasher twoPuts {oneKey}
    (c := Config.initial oneKey) atOne (i := false) rfl rfl (fun _ => rfl)
    (Set.mem_singleton _) rfl rfl rfl
  rw [show c.mem.val = onePut from hval] at hput
  obtain ⟨c', hval', hfree', -, hput'⟩ := put_runs byteHasher twoPuts {onePut, oneKey}
    (c := c) atOne (i := true) (hst true (by decide)) rfl hfree
    (by rw [show c.mem.val = onePut from hval]; exact Set.mem_insert _ _) rfl
    (by rw [show c.mem.val = onePut from hval]; rfl)
    (by rw [show c.mem.val = onePut from hval]; rfl)
  have hboth : c'.mem.val = bothPuts := by
    rw [hval', show c.mem.val = onePut from hval]
    rfl
  rw [hboth] at hput'
  have hnow : c'.mem.val ∈ ({bothPuts, onePut, oneKey} : Set Buckets) := by
    rw [hboth]; exact Set.mem_insert _ _
  have hwf : ∀ b, (c'.mem.val b).Wf := by
    rw [hboth]
    exact ((wf_oneKey.insertItem [0] [7]).insertItem [2] [7]).nodup
  have hbucket := scan_bucket byteHasher twoPuts {bothPuts, onePut, oneKey} hfree' hnow (b := b₁)
    [] [⟨[1], [0]⟩] (by rw [hboth]; rfl) (hwf b₁) []
  have hrest := scan_returns byteHasher twoPuts {bothPuts, onePut, oneKey} hfree' hnow hwf
    (b := b₁) (n := 58) rfl [[1]]
  have hend := Relation.ReflTransGen.mono (fun _ _ hstep => And.left hstep) _ _
    (hbucket.trans hrest)
  have hputs := Relation.ReflTransGen.mono (fun _ _ hstep => And.left hstep) _ _ hput
  have hputs' := Relation.ReflTransGen.mono (fun _ _ hstep => And.left hstep) _ _ hput'
  refine ⟨_, ((hcalled.trans hputs).trans hputs').trans hend, ?_, rfl⟩
  rw [hboth]
  rfl

/-- **AllKeys is not atomic**: it is not so that in every interleaving
with Puts it returns the key set of one instant. -/
theorem scan_not_atomic :
    ¬ ∀ (hasher : Hasher) (reqs : Bool → Request), (∀ i, ∃ req, reqs i = .put req) →
      ∀ M₀ : Buckets, Wf hasher M₀ → ∀ s : ScanState Bool,
        Relation.ReflTransGen (Step hasher reqs) (initial M₀) s → AllKeysAtomic hasher s := by
  intro hclaim
  obtain ⟨s, hreach, hscan, hsince⟩ := missed_put_reachable
  have hputs : ∀ i, ∃ req, twoPuts i = .put req := by
    intro i
    cases i <;> exact ⟨_, rfl⟩
  obtain ⟨M, hM, -, hkeys⟩ :=
    (hclaim byteHasher twoPuts hputs oneKey wf_oneKey s hreach).snapshot _ hscan
  rw [hsince] at hM
  -- the first contents lack the key `[2]`, the others have the key `[0]`
  obtain rfl | rfl | rfl := hM
  · exact absurd ((hkeys [0]).mpr (by decide)) (by decide)
  · exact absurd ((hkeys [0]).mpr (by decide)) (by decide)
  · exact absurd ((hkeys [2]).mp (by decide)) (by decide)

end ScanState

end SystemsProjects.KvStore.Concurrent
