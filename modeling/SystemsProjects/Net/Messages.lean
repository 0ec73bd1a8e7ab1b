/-
SystemsProjects.Net.Messages — the requests and responses on the wire:
net/shardcontroller_commands.hpp, net/server_commands.hpp and the
(de)serializers of network_messages.cpp.

The bytes of each struct are those of `zpp::bits` (common/zpp_bits.hpp)
with its default options on a little-endian machine: members in order,
containers behind a 32-bit size, nothing for a struct without members.
Reading a container resizes it to the announced size first, so a size the
allocator refuses throws before the input is found too short.
-/
import SystemsProjects.Base.ByteFormat
import SystemsProjects.KvStore.Commands
import SystemsProjects.Net.Socket

namespace SystemsProjects.Net

open SystemsProjects.Base
open SystemsProjects.KvStore (CppString GetRequest PutRequest AppendRequest DeleteRequest
  MultiGetRequest MultiPutRequest GetResponse DeleteResponse MultiGetResponse)

/-! ## The structs -/

structure Shard where
  lower : CppString
  upper : CppString

/-- `std::map<std::string, std::vector<Shard>>`, ordered by the bytes of
the server addresses. -/
structure ShardControllerConfig where
  server_to_shards : OrderedMap CppString (List Shard)

structure JoinRequest where
  server : CppString

structure LeaveRequest where
  server : CppString

structure MoveRequest where
  server : CppString
  shards : List Shard

structure QueryResponse where
  config : ShardControllerConfig

structure ErrorResponse where
  msg : CppString

/-- `QueryRequest` has no members. -/
inductive Request where
  | join (req : JoinRequest)
  | leave (req : LeaveRequest)
  | move (req : MoveRequest)
  | query
  | get (req : GetRequest)
  | put (req : PutRequest)
  | append (req : AppendRequest)
  | delete (req : DeleteRequest)
  | multiGet (req : MultiGetRequest)
  | multiPut (req : MultiPutRequest)

/-- The responses to `join`, `leave`, `move`, `put`, `append` and `multiPut`
have no members. -/
inductive Response where
  | join
  | leave
  | move
  | query (res : QueryResponse)
  | get (res : GetResponse)
  | put
  | append
  | delete (res : DeleteResponse)
  | multiGet (res : MultiGetResponse)
  | multiPut
  | error (res : ErrorResponse)

/-! ## Messages -/

inductive MessageType where
  | get
  | put
  | append
  | delete
  | multiGet
  | multiPut
  | join
  | leave
  | move
  | query
  | error
  deriving DecidableEq, Repr

namespace MessageType

def value : MessageType → UInt32
  | get => 0
  | put => 1
  | append => 2
  | delete => 3
  | multiGet => 4
  | multiPut => 5
  | join => 6
  | leave => 7
  | move => 8
  | query => 9
  | error => 10

/-- The enumerator a 32-bit value is, if any. -/
def ofValue (v : UInt32) : Option MessageType :=
  [get, put, append, delete, multiGet, multiPut, join, leave, move, query, error].find?
    fun t => t.value = v

@[simp] theorem ofValue_value (t : MessageType) : ofValue t.value = some t := by
  cases t <;> rfl

end MessageType

/-- A message; its type is any 32-bit value until it is looked at. -/
structure Message where
  type : UInt32
  sz : Nat
  buf : List UInt8
  deriving DecidableEq, Repr

/-! ## The formats -/

section Formats

variable (alloc : Nat → Option Stop)

/-- `sizeof(std::string)`. -/
def sizeofString : Nat := 32

abbrev string : Format alloc CppString := .bytes

theorem string_pos (s : CppString) : 0 < ((string alloc).write s).length := by
  simp only [string, Format.bytes, List.length_append, length_encodeLE]
  omega

theorem pair_string_pos {α : Type} (f : Format alloc α) (p : CppString × α) :
    0 < (((string alloc).pair f).write p).length := by
  have h := string_pos alloc p.1
  rw [Format.pair, List.length_append]
  omega

def strings : Format alloc (List CppString) := .vector sizeofString .bytes (string_pos alloc)

def shard : Format alloc Shard :=
  ((string alloc).pair (string alloc)).through (fun p => ⟨p.1, p.2⟩) (fun s => (s.lower, s.upper))
    fun _ => rfl

def shards : Format alloc (List Shard) :=
  .vector (2 * sizeofString) (shard alloc) fun s => pair_string_pos alloc _ (s.lower, s.upper)

def shardControllerConfig : Format alloc ShardControllerConfig :=
  (Format.map ((string alloc).pair (shards alloc)) (pair_string_pos alloc _)).through
    (fun m => ⟨m⟩) (fun c => c.server_to_shards) fun _ => rfl

def joinRequest : Format alloc JoinRequest :=
  (string alloc).through (fun s => ⟨s⟩) (fun req => req.server) fun _ => rfl

def leaveRequest : Format alloc LeaveRequest :=
  (string alloc).through (fun s => ⟨s⟩) (fun req => req.server) fun _ => rfl

def moveRequest : Format alloc MoveRequest :=
  ((string alloc).pair (shards alloc)).through (fun p => ⟨p.1, p.2⟩)
    (fun req => (req.server, req.shards)) fun _ => rfl

def getRequest : Format alloc GetRequest :=
  (string alloc).through (fun s => ⟨s⟩) (fun req => req.key) fun _ => rfl

def putRequest : Format alloc PutRequest :=
  ((string alloc).pair (string alloc)).through (fun p => ⟨p.1, p.2⟩)
    (fun req => (req.key, req.value)) fun _ => rfl

def appendRequest : Format alloc AppendRequest :=
  ((string alloc).pair (string alloc)).through (fun p => ⟨p.1, p.2⟩)
    (fun req => (req.key, req.value)) fun _ => rfl

def deleteRequest : Format alloc DeleteRequest :=
  (string alloc).through (fun s => ⟨s⟩) (fun req => req.key) fun _ => rfl

def multiGetRequest : Format alloc MultiGetRequest :=
  (strings alloc).through (fun ks => ⟨ks⟩) (fun req => req.keys) fun _ => rfl

def multiPutRequest : Format alloc MultiPutRequest :=
  ((strings alloc).pair (strings alloc)).through (fun p => ⟨p.1, p.2⟩)
    (fun req => (req.keys, req.values)) fun _ => rfl

def queryResponse : Format alloc QueryResponse :=
  (shardControllerConfig alloc).through (fun c => ⟨c⟩) (fun res => res.config) fun _ => rfl

def getResponse : Format alloc GetResponse :=
  (string alloc).through (fun s => ⟨s⟩) (fun res => res.value) fun _ => rfl

def deleteResponse : Format alloc DeleteResponse :=
  (string alloc).through (fun s => ⟨s⟩) (fun res => res.value) fun _ => rfl

def multiGetResponse : Format alloc MultiGetResponse :=
  (strings alloc).through (fun vs => ⟨vs⟩) (fun res => res.values) fun _ => rfl

def errorResponse : Format alloc ErrorResponse :=
  (string alloc).through (fun s => ⟨s⟩) (fun res => res.msg) fun _ => rfl

end Formats

/-! ## Serializing and deserializing -/

section Serializers

variable (env : RecvEnv) {α β : Type}

/-- The allocator, for the containers a reader resizes. -/
def alloc (size : Nat) : Option Stop :=
  if env.grants size then none else some (.exception .badAlloc)

/-- Writers are not stopped by the allocator here. -/
abbrev granted : Nat → Option Stop := fun _ => none

/-- `success(out(item))`: the buffer, which grows by half at a time, cannot
be enlarged beyond 64 bits. -/
def output (f : Format granted α) (a : α) : Option (List UInt8) :=
  if 3 * (f.write a).length < 2 ^ 64 then some (f.write a) else none

/-- One branch of the serializers: the type, the bytes, and their number. -/
def pack (type : MessageType) (f : Format granted α) (a : α) : Option Message :=
  (output f a).map fun buf => { type := type.value, sz := buf.length, buf := buf }

/-- One branch of the deserializers. -/
def unpack (f : Format (alloc env) α) (alternative : α → β) (message : Message) :
    Except Stop (Option β) :=
  match f.decode message.buf with
  | .error e => .error e
  | .ok item => .ok (item.map alternative)

def invalidMessageType : Stop :=
  .exception (.logicError
    "Invalid message type! Please post privately on Edstem if this occurs.")

def serialize_request : Request → Option Message
  | .join req => pack .join (joinRequest granted) req
  | .leave req => pack .leave (leaveRequest granted) req
  | .move req => pack .move (moveRequest granted) req
  | .query => pack .query .empty ()
  | .get req => pack .get (getRequest granted) req
  | .put req => pack .put (putRequest granted) req
  | .append req => pack .append (appendRequest granted) req
  | .delete req => pack .delete (deleteRequest granted) req
  | .multiGet req => pack .multiGet (multiGetRequest granted) req
  | .multiPut req => pack .multiPut (multiPutRequest granted) req

def deserialize_request (message : Message) : Except Stop (Option Request) :=
  match MessageType.ofValue message.type with
  | some .join => unpack env (joinRequest (alloc env)) .join message
  | some .leave => unpack env (leaveRequest (alloc env)) .leave message
  | some .move => unpack env (moveRequest (alloc env)) .move message
  | some .query => unpack env .empty (fun _ => .query) message
  | some .get => unpack env (getRequest (alloc env)) .get message
  | some .put => unpack env (putRequest (alloc env)) .put message
  | some .append => unpack env (appendRequest (alloc env)) .append message
  | some .delete => unpack env (deleteRequest (alloc env)) .delete message
  | some .multiGet => unpack env (multiGetRequest (alloc env)) .multiGet message
  | some .multiPut => unpack env (multiPutRequest (alloc env)) .multiPut message
  | some .error | none => .error invalidMessageType

def serialize_response : Response → Option Message
  | .join => pack .join .empty ()
  | .leave => pack .leave .empty ()
  | .move => pack .move .empty ()
  | .query res => pack .query (queryResponse granted) res
  | .get res => pack .get (getResponse granted) res
  | .put => pack .put .empty ()
  | .append => pack .append .empty ()
  | .delete res => pack .delete (deleteResponse granted) res
  | .multiGet res => pack .multiGet (multiGetResponse granted) res
  | .multiPut => pack .multiPut .empty ()
  | .error res => pack .error (errorResponse granted) res

def deserialize_response (message : Message) : Except Stop (Option Response) :=
  match MessageType.ofValue message.type with
  | some .join => unpack env .empty (fun _ => .join) message
  | some .leave => unpack env .empty (fun _ => .leave) message
  | some .move => unpack env .empty (fun _ => .move) message
  | some .query => unpack env (queryResponse (alloc env)) .query message
  | some .get => unpack env (getResponse (alloc env)) .get message
  | some .put => unpack env .empty (fun _ => .put) message
  | some .append => unpack env .empty (fun _ => .append) message
  | some .delete => unpack env (deleteResponse (alloc env)) .delete message
  | some .multiGet => unpack env (multiGetResponse (alloc env)) .multiGet message
  | some .multiPut => unpack env .empty (fun _ => .multiPut) message
  | some .error => unpack env (errorResponse (alloc env)) .error message
  | none => .error invalidMessageType

variable {env}

theorem pack_eq_some {type : MessageType} {f : Format granted α} {a : α} {m : Message}
    (h : pack type f a = some m) :
    m = { type := type.value, sz := (f.write a).length, buf := f.write a } := by
  unfold pack output at h
  split at h
  · exact (Option.some.inj h).symm
  · cases h

/-- A serialized response announces the size of its bytes. -/
theorem serialize_response_sized {res : Response} {m : Message}
    (h : serialize_response res = some m) : m.sz = m.buf.length := by
  cases res with
  | join | leave | move | put | append | multiPut => rw [pack_eq_some (a := ()) h]
  | query res | get res | delete res | multiGet res | error res => rw [pack_eq_some h]

theorem alloc_of_grants (h : ∀ n, env.grants n = true) (n : Nat) : alloc env n = none := by
  simp [alloc, h]

/-- What one branch of a serializer packs, the matching branch of the
peer's deserializer unpacks. -/
theorem deserialize_of_pack {type : MessageType} {f : Format granted α}
    (f' : Format (alloc env) α) (hf : ∀ a, f.write a = f'.write a) (alternative : α → β)
    {deserialize : Message → Except Stop (Option β)}
    (hbranch : ∀ m, MessageType.ofValue m.type = some type →
      deserialize m = unpack env f' alternative m)
    (hgrant : ∀ n, env.grants n = true) {a : α} {m : Message}
    (h : pack type f a = some m) (hlen : m.buf.length < 2 ^ 32) :
    deserialize m = .ok (some (alternative a)) := by
  obtain rfl := pack_eq_some h
  have hdecode := f'.decode_write (alloc_of_grants hgrant) a (by rw [← hf]; exact hlen)
  rw [← hf] at hdecode
  rw [hbranch _ (MessageType.ofValue_value type)]
  simp [unpack, hdecode]

/-- The two dispatches of a request agree. -/
theorem deserialize_serialize_request (hgrant : ∀ n, env.grants n = true)
    {req : Request} {m : Message} (h : serialize_request req = some m)
    (hlen : m.buf.length < 2 ^ 32) : deserialize_request env m = .ok (some req) := by
  cases req with
  | join req =>
    exact deserialize_of_pack (joinRequest (alloc env)) (fun _ => rfl) Request.join
      (fun m hm => by rw [deserialize_request, hm]) hgrant h hlen
  | leave req =>
    exact deserialize_of_pack (leaveRequest (alloc env)) (fun _ => rfl) Request.leave
      (fun m hm => by rw [deserialize_request, hm]) hgrant h hlen
  | move req =>
    exact deserialize_of_pack (moveRequest (alloc env)) (fun _ => rfl) Request.move
      (fun m hm => by rw [deserialize_request, hm]) hgrant h hlen
  | query =>
    exact deserialize_of_pack (a := ()) .empty (fun _ => rfl) (fun _ => Request.query)
      (fun m hm => by rw [deserialize_request, hm]) hgrant h hlen
  | get req =>
    exact deserialize_of_pack (getRequest (alloc env)) (fun _ => rfl) Request.get
      (fun m hm => by rw [deserialize_request, hm]) hgrant h hlen
  | put req =>
    exact deserialize_of_pack (putRequest (alloc env)) (fun _ => rfl) Request.put
      (fun m hm => by rw [deserialize_request, hm]) hgrant h hlen
  | append req =>
    exact deserialize_of_pack (appendRequest (alloc env)) (fun _ => rfl) Request.append
      (fun m hm => by rw [deserialize_request, hm]) hgrant h hlen
  | delete req =>
    exact deserialize_of_pack (deleteRequest (alloc env)) (fun _ => rfl) Request.delete
      (fun m hm => by rw [deserialize_request, hm]) hgrant h hlen
  | multiGet req =>
    exact deserialize_of_pack (multiGetRequest (alloc env)) (fun _ => rfl) Request.multiGet
      (fun m hm => by rw [deserialize_request, hm]) hgrant h hlen
  | multiPut req =>
    exact deserialize_of_pack (multiPutRequest (alloc env)) (fun _ => rfl) Request.multiPut
      (fun m hm => by rw [deserialize_request, hm]) hgrant h hlen

/-- The two dispatches of a response agree. -/
theorem deserialize_serialize_response (hgrant : ∀ n, env.grants n = true)
    {res : Response} {m : Message} (h : serialize_response res = some m)
    (hlen : m.buf.length < 2 ^ 32) : deserialize_response env m = .ok (some res) := by
  have hempty : ∀ {type : MessageType} {res : Response},
      pack type .empty () = some m →
      (∀ m, MessageType.ofValue m.type = some type →
        deserialize_response env m = unpack env .empty (fun _ => res) m) →
      deserialize_response env m = .ok (some res) := fun h hbranch =>
    deserialize_of_pack (a := ()) .empty (fun _ => rfl) (fun _ => _) hbranch hgrant h hlen
  cases res with
  | join => exact hempty h fun m hm => by rw [deserialize_response, hm]
  | leave => exact hempty h fun m hm => by rw [deserialize_response, hm]
  | move => exact hempty h fun m hm => by rw [deserialize_response, hm]
  | query res =>
    exact deserialize_of_pack (queryResponse (alloc env)) (fun _ => rfl) Response.query
      (fun m hm => by rw [deserialize_response, hm]) hgrant h hlen
  | get res =>
    exact deserialize_of_pack (getResponse (alloc env)) (fun _ => rfl) Response.get
      (fun m hm => by rw [deserialize_response, hm]) hgrant h hlen
  | put => exact hempty h fun m hm => by rw [deserialize_response, hm]
  | append => exact hempty h fun m hm => by rw [deserialize_response, hm]
  | delete res =>
    exact deserialize_of_pack (deleteResponse (alloc env)) (fun _ => rfl) Response.delete
      (fun m hm => by rw [deserialize_response, hm]) hgrant h hlen
  | multiGet res =>
    exact deserialize_of_pack (multiGetResponse (alloc env)) (fun _ => rfl) Response.multiGet
      (fun m hm => by rw [deserialize_response, hm]) hgrant h hlen
  | multiPut => exact hempty h fun m hm => by rw [deserialize_response, hm]
  | error res =>
    exact deserialize_of_pack (errorResponse (alloc env)) (fun _ => rfl) Response.error
      (fun m hm => by rw [deserialize_response, hm]) hgrant h hlen

end Serializers

end SystemsProjects.Net
