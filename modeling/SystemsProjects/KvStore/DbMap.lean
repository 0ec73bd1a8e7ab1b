/-
SystemsProjects.KvStore.DbMap — the bucketed map of
concurrent_kvstore.hpp: 60 lists of items, an item's list chosen by a
hash of its key.

The three bucket operations are total functions of one list; the guard
`assert(b < BUCKET_COUNT)` is the type `Fin BUCKET_COUNT`. `bucketSpec`
packs them as the atomic actions on one locked cell. The second half says
what a bucket means: under `Bucket.Wf` (no key twice) it is a map
(`Bucket.find`), and `DbMap.Wf` adds that every item is in the bucket of
its key, so that the buckets together are one map (`DbMap.toMap`).
-/
import SystemsProjects.Base.LockProgram
import SystemsProjects.KvStore.Commands
import Mathlib.Data.List.Nodup

namespace SystemsProjects.KvStore

open SystemsProjects.Base

structure DbItem where
  key : CppString
  value : CppString
  deriving DecidableEq, Repr

/-- `std::list<DbItem>`. -/
abbrev Bucket := List DbItem

def BUCKET_COUNT : Nat := 60

theorem BUCKET_COUNT_pos : 0 < BUCKET_COUNT := by decide

/-- The constructor's `std::function<size_t(std::string)>`. -/
abbrev Hasher := CppString → UInt64

/-- `DbMap::bucket`. -/
def bucket (hasher : Hasher) (key : CppString) : Fin BUCKET_COUNT :=
  ⟨(hasher key).toNat % BUCKET_COUNT, Nat.mod_lt _ (by decide)⟩

namespace Bucket

def getIfExists (items : Bucket) (key : CppString) : Option DbItem :=
  items.find? (fun item => item.key == key)

/-- Update the first item of that key, or append a new one. -/
def insertItem (key value : CppString) : Bucket → Bucket
  | [] => [⟨key, value⟩]
  | item :: items =>
    if item.key = key then { item with value := value } :: items
    else item :: insertItem key value items

def removeItem (items : Bucket) (key : CppString) : Bool × Bucket :=
  let kept := items.filter (fun item => item.key ≠ key)
  let numRemoved := items.length - kept.length
  (decide (numRemoved > 0), kept)

end Bucket

/-- The accesses to one bucket, each made under the bucket's lock. -/
inductive BucketAct where
  | getIfExists (key : CppString)
  | insertItem (key value : CppString)
  | removeItem (key : CppString)
  | items

/-- A bucket as a cell. -/
@[reducible] def bucketSpec : CellSpec where
  Val := Bucket
  Act := BucketAct
  Rep
    | .getIfExists _ => Option DbItem
    | .insertItem _ _ => Unit
    | .removeItem _ => Bool
    | .items => Bucket
  sem
    | .getIfExists key, b => (b.getIfExists key, b)
    | .insertItem key value, b => ((), b.insertItem key value)
    | .removeItem key, b => b.removeItem key
    | .items, b => (b, b)

/-! ## One bucket as a map -/

namespace Bucket

/-- The value of a key. -/
def find (items : Bucket) (key : CppString) : Option CppString :=
  (items.getIfExists key).map DbItem.value

def keys (items : Bucket) : List CppString := items.map DbItem.key

/-- No key occurs twice. -/
def Wf (items : Bucket) : Prop := items.keys.Nodup

@[simp] theorem keys_nil : keys [] = [] := rfl

@[simp] theorem keys_cons (item : DbItem) (items : Bucket) :
    keys (item :: items) = item.key :: keys items := rfl

@[simp] theorem find_nil (key : CppString) : find [] key = none := rfl

theorem find_cons (item : DbItem) (items : Bucket) (key : CppString) :
    find (item :: items) key = if item.key = key then some item.value else find items key := by
  unfold find getIfExists
  rw [List.find?_cons]
  by_cases h : item.key = key
  · rw [if_pos h, beq_iff_eq.mpr h]; rfl
  · rw [if_neg h, beq_eq_false_iff_ne.mpr h]

theorem find_isSome_iff {items : Bucket} {key : CppString} :
    (items.find key).isSome ↔ key ∈ items.keys := by
  induction items with
  | nil => simp
  | cons item items ih =>
    rw [find_cons]
    by_cases h : item.key = key
    · simp [h]
    · rw [if_neg h, ih, keys_cons, List.mem_cons]
      exact ⟨.inr, fun hm => hm.resolve_left (Ne.symm h)⟩

theorem keys_insertItem (items : Bucket) (key value : CppString) :
    (items.insertItem key value).keys =
      if key ∈ items.keys then items.keys else items.keys ++ [key] := by
  induction items with
  | nil => rfl
  | cons item items ih =>
    unfold insertItem
    by_cases h : item.key = key
    · simp [h]
    · simp only [if_neg h, keys_cons, List.mem_cons, Ne.symm h, false_or, ih]
      by_cases hk : key ∈ keys items
      · rw [if_pos hk, if_pos hk]
      · rw [if_neg hk, if_neg hk]; rfl

theorem Wf.insertItem {items : Bucket} (h : items.Wf) (key value : CppString) :
    (items.insertItem key value).Wf := by
  unfold Wf
  rw [keys_insertItem]
  split
  · exact h
  · rename_i hk
    exact List.nodup_append.mpr ⟨h, List.nodup_singleton key, by
      intro a ha b hb
      rw [List.mem_singleton.mp hb]
      rintro rfl
      exact hk ha⟩

theorem find_insertItem (items : Bucket) (key value key' : CppString) :
    (items.insertItem key value).find key' =
      if key' = key then some value else items.find key' := by
  induction items with
  | nil => rw [insertItem, find_cons, find_nil]; simp only [eq_comm]
  | cons item items ih =>
    unfold insertItem
    by_cases h : item.key = key
    · rw [if_pos h, find_cons, find_cons, h]
      by_cases hk : key = key'
      · rw [if_pos hk, if_pos hk.symm]
      · rw [if_neg hk, if_neg hk, if_neg (Ne.symm hk)]
    · rw [if_neg h, find_cons, find_cons, ih]
      by_cases hk : item.key = key'
      · rw [if_pos hk, if_pos hk, if_neg fun he => h (hk.trans he)]
      · rw [if_neg hk, if_neg hk]

theorem Wf.removeItem {items : Bucket} (h : items.Wf) (key : CppString) :
    (items.removeItem key).2.Wf :=
  h.sublist (List.filter_sublist.map DbItem.key)

theorem find_removeItem (items : Bucket) (key key' : CppString) :
    (items.removeItem key).2.find key' = if key' = key then none else items.find key' := by
  show find (items.filter (fun item => item.key ≠ key)) key' = _
  induction items with
  | nil => simp
  | cons item items ih =>
    rw [List.filter_cons]
    by_cases h : item.key = key
    · simp only [h, ne_eq, not_true_eq_false, decide_false, Bool.false_eq_true, if_false] at ih ⊢
      rw [ih, find_cons, h]
      by_cases hk : key' = key
      · rw [if_pos hk, if_pos hk]
      · rw [if_neg hk, if_neg hk, if_neg (Ne.symm hk)]
    · simp only [h, ne_eq, not_false_eq_true, decide_true, if_true] at ih ⊢
      rw [find_cons, find_cons, ih]
      by_cases hk : item.key = key'
      · rw [if_pos hk, if_pos hk, if_neg fun he => h (hk.trans he)]
      · rw [if_neg hk, if_neg hk]

end Bucket

/-! ## The buckets as one map -/

/-- The contents of `DbMap::buckets`. -/
abbrev Buckets := Fin BUCKET_COUNT → Bucket

namespace DbMap

/-- Each key at most once, and only in its own bucket. -/
structure Wf (hasher : Hasher) (M : Buckets) : Prop where
  nodup : ∀ b, (M b).Wf
  home : ∀ b, ∀ key ∈ (M b).keys, bucket hasher key = b

def toMap (hasher : Hasher) (M : Buckets) : KeyMap :=
  fun key => (M (bucket hasher key)).find key

variable {hasher : Hasher} {M : Buckets}

theorem wf_empty : Wf hasher (fun _ => []) where
  nodup := fun _ => List.nodup_nil
  home := by intro b key h; cases h

theorem toMap_empty : toMap hasher (fun _ => []) = KeyMap.empty := rfl

/-- Replacing the bucket of `key` by one that keeps the invariant. -/
theorem Wf.update (h : Wf hasher M) {b : Fin BUCKET_COUNT} {items : Bucket} (hwf : items.Wf)
    (hhome : ∀ key ∈ items.keys, bucket hasher key = b) :
    Wf hasher (Function.update M b items) where
  nodup := by
    intro b'
    by_cases hb : b' = b
    · rw [hb, Function.update_self]; exact hwf
    · rw [Function.update_of_ne hb]; exact h.nodup b'
  home := by
    intro b' key hkey
    by_cases hb : b' = b
    · rw [hb, Function.update_self] at hkey
      rw [hb]; exact hhome key hkey
    · rw [Function.update_of_ne hb] at hkey
      exact h.home b' key hkey

/-- A change of one key in its bucket is that change of the map. -/
theorem toMap_update {key : CppString} {items : Bucket} {v : Option CppString}
    (hfind : ∀ key', items.find key' =
    if key' = key then v else (M (bucket hasher key)).find key') :
    toMap hasher (Function.update M (bucket hasher key) items) =
      Function.update (toMap hasher M) key v := by
  funext key'
  by_cases hk : key' = key
  · subst hk
    rw [Function.update_self]
    unfold toMap
    rw [Function.update_self, hfind, if_pos rfl]
  · rw [Function.update_of_ne hk]
    unfold toMap
    by_cases hb : bucket hasher key' = bucket hasher key
    · rw [hb, Function.update_self, hfind, if_neg hk]
    · rw [Function.update_of_ne hb]

theorem Wf.insertItem (h : Wf hasher M) (key value : CppString) :
    Wf hasher (Function.update M (bucket hasher key)
      ((M (bucket hasher key)).insertItem key value)) := by
  refine h.update ((h.nodup _).insertItem key value) fun key' hkey' => ?_
  rw [Bucket.keys_insertItem] at hkey'
  split at hkey'
  · exact h.home _ key' hkey'
  · rcases List.mem_append.mp hkey' with hm | hm
    · exact h.home _ key' hm
    · rw [List.mem_singleton.mp hm]

theorem toMap_insertItem (key value : CppString) :
    toMap hasher (Function.update M (bucket hasher key)
      ((M (bucket hasher key)).insertItem key value)) = (toMap hasher M).insert key value :=
  toMap_update (Bucket.find_insertItem _ key value)

theorem Wf.removeItem (h : Wf hasher M) (key : CppString) :
    Wf hasher (Function.update M (bucket hasher key)
      ((M (bucket hasher key)).removeItem key).2) := by
  refine h.update ((h.nodup _).removeItem key) fun key' hkey' => h.home _ key' ?_
  exact (List.filter_sublist.map DbItem.key).subset hkey'

theorem toMap_removeItem (key : CppString) :
    toMap hasher (Function.update M (bucket hasher key)
      ((M (bucket hasher key)).removeItem key).2) = (toMap hasher M).erase key :=
  toMap_update (Bucket.find_removeItem _ key)

end DbMap

end SystemsProjects.KvStore
