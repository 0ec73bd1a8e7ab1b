/-
SystemsProjects.KvStore.Commands — the requests and responses of the
key-value store (net/server_commands.hpp), and what the store is for: an
abstract map from keys to values.

A call is given its request and, where it has one, the response object
the caller passes in; it answers with its boolean result and the response
object as it leaves it.
-/
import Mathlib.Logic.Function.Basic

namespace SystemsProjects.KvStore

/-- `std::string`: bytes, with no encoding and no bound. -/
abbrev CppString := List UInt8

/-! ## Requests -/

structure GetRequest where
  key : CppString
  deriving DecidableEq, Repr

structure PutRequest where
  key : CppString
  value : CppString
  deriving DecidableEq, Repr

structure AppendRequest where
  key : CppString
  value : CppString
  deriving DecidableEq, Repr

structure DeleteRequest where
  key : CppString
  deriving DecidableEq, Repr

structure MultiGetRequest where
  keys : List CppString
  deriving DecidableEq, Repr

structure MultiPutRequest where
  keys : List CppString
  values : List CppString
  deriving DecidableEq, Repr

/-! ## Responses -/

structure GetResponse where
  value : CppString
  deriving DecidableEq, Repr

structure DeleteResponse where
  value : CppString
  deriving DecidableEq, Repr

structure MultiGetResponse where
  values : List CppString
  deriving DecidableEq, Repr

/-- A request, with the response object it is to fill. -/
inductive Request where
  | get (req : GetRequest) (res : GetResponse)
  | put (req : PutRequest)
  | append (req : AppendRequest)
  | delete (req : DeleteRequest) (res : DeleteResponse)
  | multiGet (req : MultiGetRequest) (res : MultiGetResponse)
  | multiPut (req : MultiPutRequest)
  deriving DecidableEq, Repr

/-- The response object as a request leaves it; `PutResponse`,
`AppendResponse` and `MultiPutResponse` have no fields. -/
inductive Response where
  | get (res : GetResponse)
  | put
  | append
  | delete (res : DeleteResponse)
  | multiGet (res : MultiGetResponse)
  | multiPut
  deriving DecidableEq, Repr

/-- The boolean result and the response. -/
structure Answer where
  ok : Bool
  res : Response
  deriving DecidableEq, Repr

/-- The operations of `KvStore`: the six requests, and `AllKeys`. -/
inductive Call where
  | request (r : Request)
  | allKeys
  deriving DecidableEq, Repr

inductive Reply where
  | answer (a : Answer)
  | keys (ks : List CppString)
  deriving DecidableEq, Repr

/-! ## The abstract map -/

abbrev KeyMap := CppString → Option CppString

namespace KeyMap

def empty : KeyMap := fun _ => none

def insert (m : KeyMap) (key value : CppString) : KeyMap := Function.update m key (some value)

def erase (m : KeyMap) (key : CppString) : KeyMap := Function.update m key none

/-- Insert pairs from left to right. -/
def insertAll (m : KeyMap) (items : List (CppString × CppString)) : KeyMap :=
  items.foldl (fun m item => m.insert item.1 item.2) m

@[simp] theorem insertAll_nil (m : KeyMap) : m.insertAll [] = m := rfl

@[simp] theorem insertAll_cons (m : KeyMap) (k v : CppString)
    (items : List (CppString × CppString)) :
    m.insertAll ((k, v) :: items) = (m.insert k v).insertAll items := rfl

/-- What a request answers and does. -/
def apply (m : KeyMap) : Request → Answer × KeyMap
  | .get req res =>
    match m req.key with
    | none => (⟨false, .get res⟩, m)
    | some value => (⟨true, .get ⟨value⟩⟩, m)
  | .put req => (⟨true, .put⟩, m.insert req.key req.value)
  | .append req =>
    match m req.key with
    | none => (⟨true, .append⟩, m.insert req.key req.value)
    | some value => (⟨true, .append⟩, m.insert req.key (value ++ req.value))
  | .delete req res =>
    match m req.key with
    | none => (⟨false, .delete res⟩, m)
    | some value => (⟨true, .delete ⟨value⟩⟩, m.erase req.key)
  | .multiGet req _ =>
    match req.keys.mapM m with
    | none => (⟨false, .multiGet ⟨[]⟩⟩, m)
    | some values => (⟨true, .multiGet ⟨values⟩⟩, m)
  | .multiPut req =>
    if req.keys.length = req.values.length then
      (⟨true, .multiPut⟩, m.insertAll (req.keys.zip req.values))
    else (⟨false, .multiPut⟩, m)

/-- A refused request changes nothing. -/
theorem apply_refused {m : KeyMap} {r : Request} (h : (m.apply r).1.ok = false) :
    (m.apply r).2 = m := by
  cases r with
  | get req res => cases hk : m req.key <;> simp [apply, hk]
  | put req => cases h
  | append req => cases hk : m req.key <;> simp [apply, hk] at h
  | delete req res =>
    cases hk : m req.key with
    | none => simp [apply, hk]
    | some value => simp [apply, hk] at h
  | multiGet req res => cases hk : req.keys.mapM m <;> simp [apply, hk]
  | multiPut req =>
    by_cases hlen : req.keys.length = req.values.length
    · simp [apply, hlen] at h
    · simp [apply, hlen]

/-- What a call may reply and does. `AllKeys` replies each key once, in
no set order. -/
def Admits (m : KeyMap) : Call → Reply → KeyMap → Prop
  | .request r, reply, m' => reply = .answer (m.apply r).1 ∧ m' = (m.apply r).2
  | .allKeys, reply, m' =>
    m' = m ∧ ∃ ks, reply = .keys ks ∧ ks.Nodup ∧ ∀ k, k ∈ ks ↔ (m k).isSome

end KeyMap

end SystemsProjects.KvStore
