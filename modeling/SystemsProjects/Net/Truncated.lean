/-
SystemsProjects.Net.Truncated — one message on a connection that may fail
at any call.

Whatever `send` does, what a send that returns has put on the wire is the
beginning of the message's frame (`send_message_prefix`). Whatever `recv`
does, a receive that has returned a message has taken the bytes of its
type, its size and its payload off the stream, so that from the beginning
of one frame it returns that message, with the whole frame read, or
nothing (`recv_message_whole`). The two together: no failure makes a
message out of another one.
-/
import SystemsProjects.Net.Framing

namespace SystemsProjects.Net

open SystemsProjects.Base

/-! ## Sends -/

/-- What one call of `send` puts on the wire is the beginning of what it
was given. -/
theorem send_prefix {env : SendEnv} {data : List UInt8} {nosignal : Bool} {out out' : Outgoing}
    {r : Int} (h : send env data nosignal out = .ok (r, out')) :
    ∃ k ≤ data.length, out'.sent = out.sent ++ data.take k := by
  have hnone : ∀ c, ∃ k ≤ data.length,
      ({ out with calls := c } : Outgoing).sent = out.sent ++ data.take k :=
    fun _ => ⟨0, Nat.zero_le _, by rw [List.take_zero, List.append_nil]⟩
  unfold send at h
  split at h
  · cases h
    exact ⟨_, moved_le_wanted _ _ _, rfl⟩
  · cases h
    exact hnone _
  · split at h
    · cases h
      exact hnone _
    · cases h

/-- A positive result is the number of bytes put on the wire. -/
theorem send_counts {env : SendEnv} {data : List UInt8} {nosignal : Bool} {out out' : Outgoing}
    {r : Int} (hlen : data.length < 2 ^ 32) (h : send env data nosignal out = .ok (r, out'))
    (hr : 0 < r) : r.toNat ≤ data.length ∧ out'.sent = out.sent ++ data.take r.toNat := by
  unfold send at h
  split at h
  · rename_i n _
    cases h
    have hle := moved_le_wanted n data.length data.length
    rcases toInt32_neg_or_eq (show moved n data.length data.length < 2 ^ 32 by omega) with
      hneg | heq
    · omega
    · rw [heq, Int.toNat_natCast]
      exact ⟨hle, rfl⟩
  · cases h
    omega
  · split at h
    · cases h
      omega
    · cases h

/-- A `sendall` that returns has put a beginning of the buffer on the
wire, and all of it if its result is positive. -/
theorem sendall_prefix {env : SendEnv} {buf : List UInt8} {nosignal : Bool} {timeout : Nat}
    {out out' : Outgoing} {r : Int} (hlen : buf.length < 2 ^ 32)
    (h : sendall env buf nosignal timeout out = .ok (r, out')) :
    ∃ k ≤ buf.length, out'.sent = out.sent ++ buf.take k ∧ (0 < r → k = buf.length) := by
  have hcases := transferLoop_cases
    (I := fun done (out₁ : Outgoing) => out₁.sent = out.sent ++ buf.take done)
    (fun done out₁ _ hI => hI)
    (fun done out₁ r₁ out₂ hlt hI hc hpos => by
      obtain ⟨hle, hsent⟩ := send_counts (by rw [List.length_drop]; omega) hc hpos
      rw [List.length_drop] at hle
      refine ⟨by omega, ?_⟩
      rw [hsent, hI, List.append_assoc, List.take_add])
    (Nat.zero_le _) (Nat.le_refl _) (by rw [List.take_zero, List.append_nil]) h
  rcases hcases with ⟨-, hI⟩ | ⟨done, out₁, hlt, hI, -, rfl, rfl⟩ | ⟨done, out₁, hlt, hI, hc, hneg⟩
  · exact ⟨buf.length, Nat.le_refl _, hI, fun _ => rfl⟩
  · exact ⟨done, by omega, hI, fun hr => absurd hr (by decide)⟩
  · obtain ⟨k, hk, hsent⟩ := send_prefix hc
    rw [List.length_drop] at hk
    refine ⟨done + k, by omega, ?_, fun hr => by omega⟩
    rw [hsent, hI, List.append_assoc, List.take_add]

/-- One part of a message, followed by what is sent after it. -/
theorem sendPart_prefix {env : SendEnv} {buf rest : List UInt8} {nosignal : Bool} {timeout : Nat}
    {out out' : Outgoing} {sent : Bool} {next : Outgoing → Except Stop (Bool × Outgoing)}
    (hbuf : 0 < buf.length) (hlen : buf.length < 2 ^ 32)
    (hnext : ∀ out₁, next out₁ = .ok (sent, out') →
      ∃ bytes, bytes <+: rest ∧ out'.sent = out₁.sent ++ bytes)
    (h : sendPart env buf nosignal timeout out next = .ok (sent, out')) :
    ∃ bytes, bytes <+: buf ++ rest ∧ out'.sent = out.sent ++ bytes := by
  unfold sendPart at h
  split at h
  · cases h
  · rename_i curr out₁ hall
    obtain ⟨k, hk, hsent, hall'⟩ := sendall_prefix hlen hall
    split at h
    · cases h
      exact ⟨buf.take k, (List.take_prefix _ _).trans (List.prefix_append _ _), hsent⟩
    · split at h
      · rename_i hcurr
        obtain rfl := hall' (by omega)
        rw [List.take_length] at hsent
        obtain ⟨bytes, hbytes, hrest⟩ := hnext out₁ h
        refine ⟨buf ++ bytes, List.prefix_append_right_inj _ |>.mpr hbytes, ?_⟩
        rw [hrest, hsent, List.append_assoc]
      · cases h

/-- **What is on the wire is the beginning of the frame**, whatever the
result. -/
theorem send_message_prefix {env : SendEnv} {msg : Message} {timeout : Nat} {out out' : Outgoing}
    {sent : Bool} (hlen : msg.buf.length < 2 ^ 32)
    (h : send_message env msg timeout out = .ok (sent, out')) :
    ∃ bytes, bytes <+: frame msg ∧ out'.sent = out.sent ++ bytes := by
  unfold send_message at h
  split at h
  · cases h
  · split at h
    · cases h
    · rename_i hsz
      rw [ne_eq, not_not] at hsz
      refine sendPart_prefix (by simp) (by simp) (fun out₁ h₁ => ?_) h
      refine sendPart_prefix (by simp) (by simp) (fun out₂ h₂ => ?_) h₁
      split at h₂
      · rw [← List.append_nil msg.buf]
        refine sendPart_prefix (by omega) hlen (fun out₃ h₃ => ?_) h₂
        cases h₃
        exact ⟨[], List.nil_prefix, (List.append_nil _).symm⟩
      · cases h₂
        exact ⟨[], List.nil_prefix, (List.append_nil _).symm⟩

/-! ## Receives -/

/-- A positive result of `recv` is the number of bytes taken. -/
theorem recv_counts {env : RecvEnv} {len : Nat} (hlen : len < 2 ^ 32) (data : List UInt8)
    (inc : Incoming) (hr : 0 < (recv env len data inc).1) :
    ∃ k : Nat, (recv env len data inc).1 = (k : Int) ∧ k ≤ len ∧ k ≤ inc.unread.length ∧
      (recv env len data inc).2.1 = data ++ inc.unread.take k ∧
      (recv env len data inc).2.2.unread = inc.unread.drop k := by
  unfold recv at hr ⊢
  split at hr
  · rename_i n hn
    have hle := moved_le_wanted n len inc.unread.length
    dsimp only at hr ⊢
    rcases toInt32_neg_or_eq (show moved n len inc.unread.length < 2 ^ 32 by omega) with
      hneg | heq
    · omega
    · exact ⟨_, heq, hle, moved_le_available _ _ _, rfl, rfl⟩
  · exact absurd hr (Int.not_lt.mpr (by decide : (-1 : Int) ≤ 0))
  · exact absurd hr (Int.lt_irrefl 0)

/-- A `recvall` with a positive result has taken what it was asked for. -/
theorem recvall_taken {env : RecvEnv} {len timeout : Nat} (hlen : len < 2 ^ 32)
    {inc inc' : Incoming} {r : Int} {data : List UInt8}
    (h : recvall env len timeout inc = .ok (r, data, inc')) (hr : 0 < r) :
    len ≤ inc.unread.length ∧ data = inc.unread.take len ∧
      inc'.unread = inc.unread.drop len := by
  have hcases := transferLoop_cases (ε := Stop)
    (I := fun done (p : List UInt8 × Incoming) => done ≤ inc.unread.length ∧
      p.1 = inc.unread.take done ∧ p.2.unread = inc.unread.drop done)
    (fun done p _ hI => hI)
    (fun done p r₁ p' hlt hI hc hpos => by
      obtain ⟨hdone, hdata, hinb⟩ := hI
      rw [Except.ok.injEq] at hc
      have hpos' : 0 < (recv env (len - done) p.1 p.2).1 := by rw [hc]; exact hpos
      obtain ⟨k, hk, hle, hav, hd, hu⟩ := recv_counts (by omega) p.1 p.2 hpos'
      rw [hc] at hk hd hu
      dsimp only at hk hd hu
      rw [hinb, List.length_drop] at hav
      rw [hk, Int.toNat_natCast]
      refine ⟨by omega, by omega, ?_, ?_⟩
      · rw [hd, hdata, hinb, List.take_add]
      · rw [hu, hinb, List.drop_drop])
    (Nat.zero_le _) (Nat.le_refl _) ⟨Nat.zero_le _, rfl, rfl⟩ h
  rcases hcases with ⟨-, hI⟩ | ⟨_, _, -, -, -, rfl, -⟩ | ⟨_, _, -, -, -, hneg⟩
  · exact hI
  · exact absurd hr (by decide)
  · omega

/-- One part of a message: it is there and is taken, or nothing is
returned. -/
theorem recvPart_taken {env : RecvEnv} {len timeout : Nat} (hlen : len < 2 ^ 32)
    {inc inc' : Incoming} {msg : Message}
    {next : List UInt8 → Incoming → Except Stop (Option Message × Incoming)}
    (h : recvPart env len timeout inc next = .ok (some msg, inc')) :
    len ≤ inc.unread.length ∧ ∃ inc₁, inc₁.unread = inc.unread.drop len ∧
      next (inc.unread.take len) inc₁ = .ok (some msg, inc') := by
  unfold recvPart at h
  split at h
  · cases h
  · rename_i curr data inc₁ hall
    split at h
    · cases h
    · rename_i hcurr
      obtain ⟨hle, rfl, hrest⟩ := recvall_taken hlen hall (by omega)
      split at h
      · exact ⟨hle, inc₁, hrest, h⟩
      · cases h

/-- A prefix of `a ++ b` as long as `a` starts with `a`. -/
theorem prefix_append_of_length_le {α : Type} {l a b : List α} (h : l <+: a ++ b)
    (hle : a.length ≤ l.length) : l.take a.length = a ∧ l.drop a.length <+: b := by
  obtain ⟨t, ht⟩ := h
  have htake := congrArg (List.take a.length) ht
  have hdrop := congrArg (List.drop a.length) ht
  rw [List.take_append_of_le_length hle, List.take_left] at htake
  rw [List.drop_append_of_le_length hle, List.drop_left] at hdrop
  exact ⟨htake, t, hdrop⟩

/-- **No message is made of another**: from the beginning of a frame a
receive returns the message of the frame, all of which it has read, or
nothing. -/
theorem recv_message_whole {env : RecvEnv} {timeout : Nat} {msg msg' : Message}
    (hsz : msg.sz = msg.buf.length) (hlen : msg.buf.length < 2 ^ 32) {inc inc' : Incoming}
    (hunread : inc.unread <+: frame msg)
    (h : recv_message env timeout inc = .ok (some msg', inc')) :
    msg' = msg ∧ inc.unread ≠ [] ∧ inc'.unread = [] := by
  obtain ⟨type, sz, buf⟩ := msg
  dsimp only at hsz hlen
  have hsize := byteSwap32_decodeLE_encodeLE (show sz < 2 ^ 32 by omega)
  unfold recv_message at h
  split at h
  · cases h
  · obtain ⟨hle₁, inc₁, hrest₁, h₁⟩ := recvPart_taken (by decide) h
    obtain ⟨hle₂, inc₂, hrest₂, h₂⟩ := recvPart_taken (by decide) h₁
    obtain ⟨htype, hunread₁⟩ := prefix_append_of_length_le hunread
      (by rw [length_encodeLE]; exact hle₁)
    rw [length_encodeLE] at htype hunread₁
    rw [← hrest₁] at hunread₁
    obtain ⟨hword, hunread₂⟩ := prefix_append_of_length_le hunread₁
      (by rw [length_encodeLE]; exact hle₂)
    rw [length_encodeLE] at hword hunread₂
    rw [← hrest₂] at hunread₂
    rw [htype, hword] at h₂
    dsimp only at h₂ hunread₂
    rw [hsize, ofNat_decodeLE_encodeLE] at h₂
    have hne : inc.unread ≠ [] := by
      intro hnil
      rw [hnil] at hle₁
      exact absurd hle₁ (by decide)
    split at h₂
    · obtain ⟨hle₃, inc₃, hrest₃, h₃⟩ := recvPart_taken (by omega) h₂
      have hall : inc₂.unread <+: buf ++ [] := (List.append_nil buf).symm ▸ hunread₂
      obtain ⟨hbuf, hunread₃⟩ := prefix_append_of_length_le hall (by rw [← hsz]; exact hle₃)
      rw [← hsz] at hbuf hunread₃
      cases h₃
      exact ⟨by rw [hbuf], hne, by rw [hrest₃]; exact List.prefix_nil.mp hunread₃⟩
    · have hnil : buf = [] := List.length_eq_zero_iff.mp (by omega)
      cases h₂
      subst hnil
      exact ⟨rfl, hne, List.prefix_nil.mp hunread₂⟩

/-! ## Items -/

section

variable {α : Type} {serialize : α → Option Message}
  {deserialize : Message → Except Stop (Option α)} {item : α} {msg : Message}

/-- An item that was sent, or was not: a beginning of its frame is on the
wire. -/
theorem sendItem_prefix {env : SendEnv} {out out' : Outgoing} {sent : Bool}
    (hmsg : serialize item = some msg) (hlen : msg.buf.length < 2 ^ 32)
    (h : sendItem serialize env item out = .ok (sent, out')) :
    ∃ bytes, bytes <+: frame msg ∧ out'.sent = out.sent ++ bytes := by
  unfold sendItem at h
  rw [hmsg] at h
  exact send_message_prefix hlen h

/-- Nothing is received from an empty stream. -/
theorem recvItem_empty {env : RecvEnv} {inc inc' : Incoming} {item' : Option α}
    (hempty : inc.unread = []) (h : recvItem deserialize env inc = .ok (item', inc')) :
    item' = none := by
  unfold recvItem at h
  split at h
  · cases h
  · cases h
    rfl
  · rename_i msg' inc₁ hrecv
    have hstart : inc.unread <+: frame ⟨0, 0, []⟩ := by
      rw [hempty]
      exact List.nil_prefix
    exact absurd hempty (recv_message_whole rfl (by decide) hstart hrecv).2.1

/-- From the beginning of its frame the item is received, or nothing. -/
theorem recvItem_prefix {env : RecvEnv} {inc inc' : Incoming} {item' : Option α}
    (hsz : msg.sz = msg.buf.length) (hlen : msg.buf.length < 2 ^ 32)
    (hdecode : deserialize msg = .ok (some item)) (hunread : inc.unread <+: frame msg)
    (h : recvItem deserialize env inc = .ok (item', inc')) :
    item' = none ∨ item' = some item ∧ inc.unread ≠ [] ∧ inc'.unread = [] := by
  unfold recvItem at h
  split at h
  · cases h
  · cases h
    exact .inl rfl
  · rename_i msg' inc₁ hrecv
    obtain ⟨rfl, hne, hempty⟩ := recv_message_whole hsz hlen hunread hrecv
    rw [hdecode] at h
    cases h
    exact .inr ⟨rfl, hne, hempty⟩

end

end SystemsProjects.Net
