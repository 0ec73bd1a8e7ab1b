/-
SystemsProjects.Net.Framing — send_message and recv_message, and the
connections built on them (network_messages.cpp, network_conn.cpp).

A message travels as its type, its size and its bytes (`frame`). The size
is a 64-bit word whose low half is byte-swapped, and every part is moved
by a loop that counts in `int`: a send that reports success has put
exactly the frame of a message below 2^31 bytes on the wire
(`send_message_sent`), and a receive takes exactly one such frame off it
(`recv_message_frame`). `framing_round_trip` puts the two together over
whole sequences of requests and of responses.
-/
import SystemsProjects.Net.Messages

namespace SystemsProjects.Net

open SystemsProjects.Base

/-! ## Messages on a connection -/

/-- One `sendall` of `send_message`, with the checks after it. -/
def sendPart (env : SendEnv) (buf : List UInt8) (nosignal : Bool) (timeout : Nat)
    (out : Outgoing) (next : Outgoing → Except Stop (Bool × Outgoing)) :
    Except Stop (Bool × Outgoing) :=
  match sendall env buf nosignal timeout out with
  | .error e => .error e
  | .ok (curr, out) =>
    if curr < 0 then .ok (false, out)
    else if curr = buf.length then next out
    else .error .assertion

/-- One `recvall` of `recv_message`, with the checks after it. -/
def recvPart (env : RecvEnv) (len timeout : Nat) (inc : Incoming)
    (next : List UInt8 → Incoming → Except Stop (Option Message × Incoming)) :
    Except Stop (Option Message × Incoming) :=
  match recvall env len timeout inc with
  | .error e => .error e
  | .ok (curr, data, inc) =>
    if curr ≤ 0 then .ok (none, inc)
    else if curr = len then next data inc
    else .error .assertion

/-- `send_message`: type and size without a time limit and without
`SIGPIPE`, then the bytes with both. -/
def send_message (env : SendEnv) (msg : Message) (timeout : Nat) (out : Outgoing) :
    Except Stop (Bool × Outgoing) :=
  if timeout = 0 then .error .assertion
  else if msg.sz ≠ msg.buf.length then .error .assertion
  else
    sendPart env (encodeLE 4 msg.type.toNat) true 0 out fun out =>
    sendPart env (encodeLE 8 (byteSwap32 msg.sz)) true 0 out fun out =>
    if 0 < msg.sz then sendPart env msg.buf false timeout out fun out => .ok (true, out)
    else .ok (true, out)

/-- `recv_message` into a fresh message; `none` is `false`, and then no
caller looks at the message. -/
def recv_message (env : RecvEnv) (timeout : Nat) (inc : Incoming) :
    Except Stop (Option Message × Incoming) :=
  if timeout = 0 then .error .assertion
  else
    recvPart env 4 0 inc fun type inc =>
    recvPart env 8 0 inc fun size inc =>
    let sz := byteSwap32 (decodeLE size)
    if 0 < sz then
      recvPart env sz timeout inc fun buf inc =>
      .ok (some ⟨UInt32.ofNat (decodeLE type), sz, buf⟩, inc)
    else .ok (some ⟨UInt32.ofNat (decodeLE type), sz, []⟩, inc)

/-! ## Connections -/

/-- The default `timeout` in milliseconds. -/
def messageTimeout : Nat := 400

/-- Serialize and send; an item that does not serialize is not sent. -/
def sendItem {α : Type} (serialize : α → Option Message) (env : SendEnv) (item : α)
    (out : Outgoing) : Except Stop (Bool × Outgoing) :=
  match serialize item with
  | none => .ok (false, out)
  | some msg => send_message env msg messageTimeout out

/-- Receive and deserialize. -/
def recvItem {α : Type} (deserialize : Message → Except Stop (Option α)) (env : RecvEnv)
    (inc : Incoming) : Except Stop (Option α × Incoming) :=
  match recv_message env messageTimeout inc with
  | .error e => .error e
  | .ok (none, inc) => .ok (none, inc)
  | .ok (some msg, inc) =>
    match deserialize msg with
    | .error e => .error e
    | .ok item => .ok (item, inc)

namespace ClientConn

def recv_request (env : RecvEnv) : Incoming → Except Stop (Option Request × Incoming) :=
  recvItem (deserialize_request env) env

def send_response : SendEnv → Response → Outgoing → Except Stop (Bool × Outgoing) :=
  sendItem serialize_response

end ClientConn

namespace ServerConn

def send_request : SendEnv → Request → Outgoing → Except Stop (Bool × Outgoing) :=
  sendItem serialize_request

def recv_response (env : RecvEnv) : Incoming → Except Stop (Option Response × Incoming) :=
  recvItem (deserialize_response env) env

end ServerConn

/-! ## Frames -/

/-- What `send_message` sends with result `true`. -/
structure Message.WellFormed (msg : Message) : Prop where
  sized : msg.sz = msg.buf.length
  short : msg.sz < 2 ^ 31

/-- A message on the wire. -/
def frame (msg : Message) : List UInt8 :=
  encodeLE 4 msg.type.toNat ++ (encodeLE 8 (byteSwap32 msg.sz) ++ msg.buf)

/-- The type read back. -/
theorem ofNat_decodeLE_encodeLE (type : UInt32) :
    UInt32.ofNat (decodeLE (encodeLE 4 type.toNat)) = type := by
  have hlt : type.toNat < 256 ^ 4 := type.toNat_lt
  rw [decodeLE_encodeLE, Nat.mod_eq_of_lt hlt, UInt32.ofNat_toNat]

/-- The size read back, through a 64-bit word and two 32-bit byte swaps. -/
theorem byteSwap32_decodeLE_encodeLE {sz : Nat} (h : sz < 2 ^ 32) :
    byteSwap32 (decodeLE (encodeLE 8 (byteSwap32 sz))) = sz := by
  have hlt := byteSwap32_lt sz
  have hword : byteSwap32 sz < 256 ^ 8 := Nat.lt_trans hlt (by decide)
  rw [decodeLE_encodeLE, Nat.mod_eq_of_lt hword, byteSwap32_twice, Nat.mod_eq_of_lt h]

/-! ## A message that was sent -/

theorem sendPart_sent {env : SendEnv} {buf : List UInt8} {nosignal : Bool} {timeout : Nat}
    {out out' : Outgoing} {next : Outgoing → Except Stop (Bool × Outgoing)}
    (hbuf : 0 < buf.length)
    (h : sendPart env buf nosignal timeout out next = .ok (true, out')) :
    buf.length < 2 ^ 31 ∧ ∃ out₁, out₁.sent = out.sent ++ buf ∧ next out₁ = .ok (true, out') := by
  unfold sendPart at h
  split at h
  · cases h
  · rename_i curr out₁ hall
    split at h
    · cases h
    · split at h
      · rename_i hcurr
        have hlen : buf.length < 2 ^ 31 := by
          rcases sendall_result hall with hr | hr
          · exact lt_of_toInt32 (hr.symm.trans hcurr)
          · omega
        exact ⟨hlen, out₁, sendall_sent hlen hall (by omega), h⟩
      · cases h

/-- A send that reports success sent the frame of a well-formed message. -/
theorem send_message_sent {env : SendEnv} {msg : Message} {timeout : Nat} {out out' : Outgoing}
    (h : send_message env msg timeout out = .ok (true, out')) :
    msg.WellFormed ∧ out'.sent = out.sent ++ frame msg := by
  unfold send_message at h
  split at h
  · cases h
  · split at h
    · cases h
    · rename_i hsz
      rw [ne_eq, not_not] at hsz
      obtain ⟨-, out₁, hsent₁, h⟩ := sendPart_sent (by simp) h
      obtain ⟨-, out₂, hsent₂, h⟩ := sendPart_sent (by simp) h
      split at h
      · obtain ⟨hlen, out₃, hsent₃, h⟩ := sendPart_sent (by omega) h
        cases h
        refine ⟨⟨hsz, by omega⟩, ?_⟩
        simp [frame, hsent₁, hsent₂, hsent₃]
      · cases h
        have hnil : msg.buf = [] := List.length_eq_zero_iff.mp (by omega)
        refine ⟨⟨hsz, by omega⟩, ?_⟩
        simp [frame, hsent₁, hsent₂, hnil]

/-! ## A message that is received -/

/-- What a part does on a stream: go on with the bytes asked for, give up
for lack of time, or find the end of the stream. -/
theorem recvPart_cases {env : RecvEnv} (henv : env.Arrives) (timeout : Nat) {len : Nat}
    (hpos : 0 < len) (hlen : len < 2 ^ 31) (inc : Incoming) :
    (len ≤ inc.unread.length ∧ ∃ inc', inc'.unread = inc.unread.drop len ∧
      ∀ next, recvPart env len timeout inc next = next (inc.unread.take len) inc') ∨
    (0 < timeout ∧ ∃ inc', ¬ InTime env timeout inc' ∧
      ∀ next, recvPart env len timeout inc next = .ok (none, inc')) ∨
    (inc.unread.length < len ∧ ∃ inc', inc'.unread = [] ∧
      ∀ next, recvPart env len timeout inc next = .ok (none, inc')) := by
  obtain ⟨r, data, inc', hall⟩ := recvall_returns env len timeout inc
  rcases recvall_cases henv hlen hall with ⟨rfl, hle, rfl, hrest⟩ | ⟨rfl, ht, hlate⟩ |
    ⟨rfl, hshort, hempty⟩
  · refine .inl ⟨hle, inc', hrest, fun next => ?_⟩
    have hcurr : ¬ (len : Int) ≤ 0 := by omega
    simp only [recvPart, hall, if_neg hcurr, if_pos]
  · refine .inr (.inl ⟨ht, inc', hlate, fun next => ?_⟩)
    simp [recvPart, hall, ETIMEOUT]
  · refine .inr (.inr ⟨hshort, inc', hempty, fun next => ?_⟩)
    simp [recvPart, hall]

/-- A part whose bytes are there: it goes on with them or runs out of
time. -/
theorem recvPart_append {env : RecvEnv} (henv : env.Arrives) (timeout : Nat) {inc : Incoming}
    {bytes rest : List UInt8} {len : Nat} (hbytes : bytes.length = len) (hpos : 0 < len)
    (hlen : len < 2 ^ 31) (hunread : inc.unread = bytes ++ rest) :
    (∃ inc', inc'.unread = rest ∧
      ∀ next, recvPart env len timeout inc next = next bytes inc') ∨
    (0 < timeout ∧ ∃ inc', ¬ InTime env timeout inc' ∧
      ∀ next, recvPart env len timeout inc next = .ok (none, inc')) := by
  subst hbytes
  rcases recvPart_cases henv timeout hpos hlen inc with
    ⟨-, inc', hrest, hnext⟩ | hlate | ⟨hshort, -⟩
  · rw [hunread, List.drop_left] at hrest
    rw [hunread, List.take_left] at hnext
    exact .inl ⟨inc', hrest, hnext⟩
  · exact .inr hlate
  · rw [hunread, List.length_append] at hshort
    omega

/-- `recv_message` at the start of a frame takes this frame off the stream,
or runs out of time. -/
theorem recv_message_frame {env : RecvEnv} (henv : env.Arrives) {timeout : Nat}
    (hpos : 0 < timeout) {msg : Message} (hmsg : msg.WellFormed) {inc : Incoming}
    {rest : List UInt8} (hunread : inc.unread = frame msg ++ rest) :
    (∃ inc', inc'.unread = rest ∧ recv_message env timeout inc = .ok (some msg, inc')) ∨
    (∃ inc', ¬ InTime env timeout inc' ∧ recv_message env timeout inc = .ok (none, inc')) := by
  obtain ⟨type, sz, buf⟩ := msg
  obtain ⟨hsized, hshort⟩ := hmsg
  dsimp only at hsized hshort
  have hsz := byteSwap32_decodeLE_encodeLE (show sz < 2 ^ 32 by omega)
  rw [frame, List.append_assoc, List.append_assoc] at hunread
  rcases recvPart_append henv 0 (length_encodeLE 4 type.toNat) (by omega) (by omega)
    hunread with ⟨inc₁, h₁, hpart₁⟩ | ⟨hzero, -⟩
  rcases recvPart_append henv 0 (length_encodeLE 8 (byteSwap32 sz)) (by omega)
    (by omega) h₁ with ⟨inc₂, h₂, hpart₂⟩ | ⟨hzero, -⟩
  · rw [recv_message, if_neg (Nat.ne_of_gt hpos), hpart₁, hpart₂]
    dsimp only
    rw [hsz, ofNat_decodeLE_encodeLE]
    rcases Nat.eq_zero_or_pos sz with hzero | hsome
    · have hnil : buf = [] := List.length_eq_zero_iff.mp (by omega)
      rw [if_neg (by omega), hnil]
      exact .inl ⟨inc₂, by rw [h₂, hnil, List.nil_append], rfl⟩
    · rw [if_pos hsome]
      rcases recvPart_append henv timeout hsized.symm hsome hshort h₂ with
        ⟨inc₃, h₃, hpart₃⟩ | ⟨-, inc₃, hlate, hpart₃⟩
      · exact .inl ⟨inc₃, h₃, hpart₃ _⟩
      · exact .inr ⟨inc₃, hlate, hpart₃ _⟩
  · exact absurd hzero (Nat.lt_irrefl 0)
  · exact absurd hzero (Nat.lt_irrefl 0)

/-! ## Calls that return -/

theorem sendPart_returns {env : SendEnv} (henv : env.NoSignal) {buf : List UInt8}
    (hpos : 0 < buf.length) (hlen : buf.length < 2 ^ 32) (nosignal : Bool) (timeout : Nat)
    (out : Outgoing) {next : Outgoing → Except Stop (Bool × Outgoing)}
    (hnext : ∀ out, ∃ sent out', next out = .ok (sent, out')) :
    ∃ sent out', sendPart env buf nosignal timeout out next = .ok (sent, out') := by
  obtain ⟨r, out₁, hall, hr⟩ := sendall_returns henv hpos hlen nosignal timeout out
  rcases hr with hneg | rfl
  · exact ⟨false, out₁, by simp [sendPart, hall, hneg]⟩
  · obtain ⟨sent, out', h⟩ := hnext out₁
    have hcurr : ¬ (buf.length : Int) < 0 := by omega
    exact ⟨sent, out', by simp [sendPart, hall, hcurr, h]⟩

/-- No assertion fails and no signal is raised for a message below 2^32
bytes. -/
theorem send_message_returns {env : SendEnv} (henv : env.NoSignal) {msg : Message}
    (hsz : msg.sz = msg.buf.length) (hlen : msg.buf.length < 2 ^ 32) {timeout : Nat}
    (hpos : 0 < timeout) (out : Outgoing) :
    ∃ sent out', send_message env msg timeout out = .ok (sent, out') := by
  rw [send_message, if_neg (Nat.ne_of_gt hpos), if_neg (not_not_intro hsz)]
  refine sendPart_returns henv (by simp) (by simp) _ _ _ fun out₁ => ?_
  refine sendPart_returns henv (by simp) (by simp) _ _ _ fun out₂ => ?_
  split
  · exact sendPart_returns henv (by omega) hlen _ _ _ fun out₃ => ⟨_, _, rfl⟩
  · exact ⟨_, _, rfl⟩

theorem recvPart_returns (env : RecvEnv) {len : Nat} (hlen : len < 2 ^ 32) (timeout : Nat)
    (inc : Incoming) {next : List UInt8 → Incoming → Except Stop (Option Message × Incoming)}
    (hnext : ∀ data inc, ∃ msg inc', next data inc = .ok (msg, inc')) :
    ∃ msg inc', recvPart env len timeout inc next = .ok (msg, inc') := by
  obtain ⟨r, data, inc₁, hall⟩ := recvall_returns env len timeout inc
  simp only [recvPart, hall]
  split
  · exact ⟨_, _, rfl⟩
  · rename_i hpos
    have hr : r = len := by
      rcases recvall_result hall with rfl | hneg
      · exact (toInt32_neg_or_eq hlen).resolve_left (by omega)
      · exact absurd hneg hpos
    rw [if_pos hr]
    exact hnext data inc₁

/-- No assertion fails in `recv_message`, whatever arrives. -/
theorem recv_message_returns (env : RecvEnv) {timeout : Nat} (hpos : 0 < timeout)
    (inc : Incoming) : ∃ msg inc', recv_message env timeout inc = .ok (msg, inc') := by
  rw [recv_message, if_neg (Nat.ne_of_gt hpos)]
  refine recvPart_returns env (by decide) _ _ fun type inc₁ => ?_
  refine recvPart_returns env (by decide) _ _ fun size inc₂ => ?_
  dsimp only
  split
  · exact recvPart_returns env (byteSwap32_lt _) _ _ fun buf inc₃ => ⟨_, _, rfl⟩
  · exact ⟨_, _, rfl⟩

/-! ## Sequences -/

/-- All items are sent, each with result `true`. -/
def Sent {α : Type} (send : α → Outgoing → Except Stop (Bool × Outgoing)) :
    List α → Outgoing → Outgoing → Prop
  | [], out, out' => out' = out
  | item :: items, out, out' =>
    ∃ out₁, send item out = .ok (true, out₁) ∧ Sent send items out₁ out'

/-- Successive receives return these items. -/
def Received {α : Type} (recv : Incoming → Except Stop (Option α × Incoming)) :
    List α → Incoming → Incoming → Prop
  | [], inc, inc' => inc' = inc
  | item :: items, inc, inc' =>
    ∃ inc₁, recv inc = .ok (some item, inc₁) ∧ Received recv items inc₁ inc'

/-- What is sent at one end of a connection is received at the other, and
nothing of it is left over. -/
def RoundTrips {α : Type} (send : α → Outgoing → Except Stop (Bool × Outgoing))
    (recv : Incoming → Except Stop (Option α × Incoming)) : Prop :=
  ∀ (items : List α) (out out' : Outgoing), Sent send items out out' →
    ∃ bytes, out'.sent = out.sent ++ bytes ∧
      ∀ (inc : Incoming) (rest : List UInt8), inc.unread = bytes ++ rest →
        ∃ inc', Received recv items inc inc' ∧ inc'.unread = rest

theorem roundTrips_of_dispatch {α : Type} {sender : SendEnv} {receiver : RecvEnv}
    (henv : receiver.Arrives) (htime : ∀ n, receiver.elapsed n ≤ messageTimeout)
    {serialize : α → Option Message} {deserialize : Message → Except Stop (Option α)}
    (hagree : ∀ item m, serialize item = some m → m.buf.length < 2 ^ 32 →
      deserialize m = .ok (some item)) :
    RoundTrips (sendItem serialize sender) (recvItem deserialize receiver) := by
  intro items
  induction items with
  | nil =>
    intro out out' hsent
    cases hsent
    exact ⟨[], (List.append_nil _).symm, fun inc rest hinc => ⟨inc, rfl, hinc⟩⟩
  | cons item items ih =>
    intro out out' hsent
    obtain ⟨out₁, hsend, hsent⟩ := hsent
    obtain ⟨bytes, hbytes, hrecv⟩ := ih out₁ out' hsent
    unfold sendItem at hsend
    split at hsend
    · cases hsend
    · rename_i msg hmsg
      obtain ⟨hwf, hframe⟩ := send_message_sent hsend
      have hdecode := hagree item msg hmsg (by have := hwf.sized; have := hwf.short; omega)
      refine ⟨frame msg ++ bytes, ?_, fun inc rest hinc => ?_⟩
      · rw [hbytes, hframe, List.append_assoc]
      · rw [List.append_assoc] at hinc
        rcases recv_message_frame henv (show 0 < messageTimeout by decide) hwf hinc with
          ⟨inc₁, hrest, hmessage⟩ | ⟨inc₁, hlate, -⟩
        · obtain ⟨inc', hreceived, hleft⟩ := hrecv inc₁ rest hrest
          exact ⟨inc', ⟨inc₁, by simp [recvItem, hmessage, hdecode], hreceived⟩, hleft⟩
        · exact absurd (fun n _ => htime n) hlate

/-- **Framing round trip**: whatever the fragmentation, when every item of
a sequence was sent with success, the peer's successive receives return
exactly the sequence and leave nothing of it. -/
theorem framing_round_trip (sender : SendEnv) (receiver : RecvEnv) (henv : receiver.Arrives)
    (htime : ∀ n, receiver.elapsed n ≤ messageTimeout)
    (hgrant : ∀ n, receiver.grants n = true) :
    RoundTrips (ServerConn.send_request sender) (ClientConn.recv_request receiver) ∧
      RoundTrips (ClientConn.send_response sender) (ServerConn.recv_response receiver) := by
  constructor
  · exact roundTrips_of_dispatch henv htime fun _ _ h hlen =>
      deserialize_serialize_request hgrant h hlen
  · exact roundTrips_of_dispatch henv htime fun _ _ h hlen =>
      deserialize_serialize_response hgrant h hlen

/-- A connection that moves one byte per call. -/
def trickleOut : SendEnv := ⟨fun _ _ => .accepts 1, fun _ => 0⟩

def trickleIn : RecvEnv := ⟨fun _ => .delivers 1, fun _ => 0, fun _ => true⟩

/-- A `Get` of the key "k" and a `Query`, byte by byte. -/
theorem framing_round_trip_trickle :
    ∃ out' inc', Sent (ServerConn.send_request trickleOut) [.get ⟨[107]⟩, .query] ⟨[], 0, 0⟩ out' ∧
      Received (ClientConn.recv_request trickleIn) [.get ⟨[107]⟩, .query] ⟨out'.sent, 0, 0⟩ inc' ∧
      inc'.unread = [] := by
  have hsent : Sent (ServerConn.send_request trickleOut) [.get ⟨[107]⟩, .query] ⟨[], 0, 0⟩
      ⟨[0, 0, 0, 0, 0, 0, 0, 5, 0, 0, 0, 0, 1, 0, 0, 0, 107,
        9, 0, 0, 0, 0, 0, 0, 0, 0, 0, 0, 0], 29, 5⟩ :=
    ⟨_, rfl, _, rfl, rfl⟩
  obtain ⟨bytes, hbytes, hrecv⟩ := (framing_round_trip trickleOut trickleIn (fun _ => ⟨1, rfl⟩)
    (fun _ => Nat.zero_le _) fun _ => rfl).1 _ _ _ hsent
  change _ = bytes at hbytes
  subst hbytes
  obtain ⟨inc', hreceived, hleft⟩ := hrecv ⟨_, 0, 0⟩ [] (List.append_nil _).symm
  exact ⟨_, inc', hsent, hreceived, hleft⟩

end SystemsProjects.Net
