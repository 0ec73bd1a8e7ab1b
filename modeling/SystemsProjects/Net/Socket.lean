/-
SystemsProjects.Net.Socket — network_helpers.cpp: `sendall` and `recvall`
over one end of a TCP connection.

The two directions of a connection are apart. The incoming one is the
bytes still to be read from it, those that arrive later included: a `recv`
with nothing to read waits, so how many bytes a call returns is all that
the arrival times decide. The environments say that number for each call,
which calls fail, and what the clock shows at each check of the time limit.

`sendall_sent` says what a `sendall` that moved everything has done, and
`recvall_cases` what a `recvall` has.
-/
import SystemsProjects.Base.Transfer

namespace SystemsProjects.Net

open SystemsProjects.Base

/-- What is thrown: `std::logic_error` with its text, or `std::bad_alloc`. -/
inductive Exception where
  | logicError (what : String)
  | badAlloc
  deriving DecidableEq, Repr

/-- How the process can stop: a failed assertion, a signal whose default
action kills it, an exception that leaves a thread's function. -/
inductive Stop where
  | assertion
  | signal
  | exception (e : Exception)
  deriving DecidableEq, Repr

/-! ## The operating system -/

/-- What a call of `send` with bytes to send does. -/
inductive SendAnswer where
  | accepts (n : Nat)
  | fails
  | brokenPipe
  deriving DecidableEq, Repr

/-- What a call of `recv` does. It returns 0 at the end of the stream and
on a connection that was shut down. -/
inductive RecvAnswer where
  | delivers (n : Nat)
  | fails
  | shutDown
  deriving DecidableEq, Repr

/-- The answer to the `n`-th call of `send` on the socket, made with or
without `MSG_NOSIGNAL`, and the milliseconds since `begin` at the `n`-th
check of a time limit. -/
structure SendEnv where
  send : Nat → Bool → SendAnswer
  elapsed : Nat → Nat

/-- The same for `recv`, and the sizes the allocator grants. -/
structure RecvEnv where
  recv : Nat → RecvAnswer
  elapsed : Nat → Nat
  grants : Nat → Bool

/-- The outgoing direction: the bytes handed to the network so far. The
counters number the calls and the checks. -/
structure Outgoing where
  sent : List UInt8
  calls : Nat
  checks : Nat
  deriving DecidableEq, Repr

/-- The incoming direction: the bytes still to be read. -/
structure Incoming where
  unread : List UInt8
  calls : Nat
  checks : Nat
  deriving DecidableEq, Repr

/-- A call of the system on `wanted > 0` bytes of which `available` can be
moved returns at least one and at most all of these. -/
def moved (n wanted available : Nat) : Nat := min (max n 1) (min wanted available)

theorem moved_le_wanted (n wanted available : Nat) : moved n wanted available ≤ wanted := by
  unfold moved
  omega

theorem moved_le_available (n wanted available : Nat) : moved n wanted available ≤ available := by
  unfold moved
  omega

theorem moved_pos {n wanted available : Nat} (hw : 0 < wanted) (ha : 0 < available) :
    0 < moved n wanted available := by
  unfold moved
  omega

/-- `send`: without `MSG_NOSIGNAL` a broken pipe raises `SIGPIPE`. -/
def send (env : SendEnv) (data : List UInt8) (nosignal : Bool) (out : Outgoing) :
    Except Stop (Int × Outgoing) :=
  match env.send out.calls nosignal with
  | .accepts n =>
    let k := moved n data.length data.length
    .ok (toInt32 k, { out with sent := out.sent ++ data.take k, calls := out.calls + 1 })
  | .fails => .ok (-1, { out with calls := out.calls + 1 })
  | .brokenPipe =>
    if nosignal then .ok (-1, { out with calls := out.calls + 1 }) else .error .signal

/-- `recv` of at most `len` bytes, appended to those read before. -/
def recv (env : RecvEnv) (len : Nat) (data : List UInt8) (inc : Incoming) :
    Int × List UInt8 × Incoming :=
  match env.recv inc.calls with
  | .delivers n =>
    let k := moved n len inc.unread.length
    (toInt32 k, data ++ inc.unread.take k,
      { inc with unread := inc.unread.drop k, calls := inc.calls + 1 })
  | .fails => (-1, data, { inc with calls := inc.calls + 1 })
  | .shutDown => (0, data, { inc with calls := inc.calls + 1 })

/-! ## sendall and recvall -/

def ETIMEOUT : Int := -2

/-- The check of the time limit, and the number of checks made after it;
there is none when `timeout` is 0. -/
def timedOut (elapsed : Nat → Nat) (timeout checks : Nat) : Bool × Nat :=
  if 0 < timeout then (decide (timeout < elapsed checks), checks + 1) else (false, checks)

def sendall (env : SendEnv) (buf : List UInt8) (nosignal : Bool) (timeout : Nat)
    (out : Outgoing) : Except Stop (Int × Outgoing) :=
  transferAll
    (fun out =>
      let (late, checks) := timedOut env.elapsed timeout out.checks
      (late, { out with checks := checks }))
    ETIMEOUT (fun n_sent => send env (buf.drop n_sent) nosignal) buf.length out

def recvall (env : RecvEnv) (len timeout : Nat) (inc : Incoming) :
    Except Stop (Int × List UInt8 × Incoming) :=
  transferAll
    (fun (data, inc) =>
      let (late, checks) := timedOut env.elapsed timeout inc.checks
      (late, data, { inc with checks := checks }))
    ETIMEOUT (fun n_recvd (data, inc) => .ok (recv env (len - n_recvd) data inc)) len ([], inc)

/-! ## What the clock and one call do -/

/-- A limit that has run out is one the clock showed at a check made. -/
theorem timedOut_late {elapsed : Nat → Nat} {timeout checks : Nat}
    (h : (timedOut elapsed timeout checks).1 = true) :
    0 < timeout ∧ ∃ n < (timedOut elapsed timeout checks).2, timeout < elapsed n := by
  unfold timedOut at h ⊢
  split at h
  · rename_i hpos
    rw [if_pos hpos]
    exact ⟨hpos, checks, Nat.lt_succ_self _, of_decide_eq_true h⟩
  · cases h

/-- A positive result of `send` is at most the bytes given, and is as many
as were sent unless there are more than an `int` counts. -/
theorem send_pos {env : SendEnv} {data : List UInt8} {nosignal : Bool} {out out' : Outgoing}
    {r : Int} (h : send env data nosignal out = .ok (r, out')) (hr : 0 < r) :
    r.toNat ≤ data.length ∧
      (data.length < 2 ^ 31 → out'.sent = out.sent ++ data.take r.toNat) := by
  unfold send at h
  split at h
  · rename_i n _
    simp only [Except.ok.injEq, Prod.mk.injEq] at h
    obtain ⟨rfl, rfl⟩ := h
    have hle := moved_le_wanted n data.length data.length
    refine ⟨Nat.le_trans (toInt32_toNat_le _) hle, fun hlt => ?_⟩
    rw [toInt32_of_lt (by omega), Int.toNat_natCast]
  · simp only [Except.ok.injEq, Prod.mk.injEq] at h
    omega
  · split at h
    · simp only [Except.ok.injEq, Prod.mk.injEq] at h
      omega
    · cases h

theorem recv_toNat_le (env : RecvEnv) (len : Nat) (data : List UInt8) (inc : Incoming) :
    (recv env len data inc).1.toNat ≤ len := by
  unfold recv
  split
  · exact Nat.le_trans (toInt32_toNat_le _) (moved_le_wanted _ _ _)
  · exact Nat.zero_le _
  · exact Nat.zero_le _

/-! ## What the loops do -/

/-- `sendall` with a positive result has sent all of the buffer. -/
theorem sendall_sent {env : SendEnv} {buf : List UInt8} {nosignal : Bool} {timeout : Nat}
    {out out' : Outgoing} {r : Int} (hlen : buf.length < 2 ^ 31)
    (h : sendall env buf nosignal timeout out = .ok (r, out')) (hr : 0 < r) :
    out'.sent = out.sent ++ buf := by
  have hcases := transferLoop_cases
    (I := fun done (out₁ : Outgoing) => out₁.sent = out.sent ++ buf.take done)
    (fun done out₁ _ hI => hI)
    (fun done out₁ r₁ out₂ hlt hI hc hpos => by
      obtain ⟨hle, hsent⟩ := send_pos hc hpos
      rw [List.length_drop] at hle
      refine ⟨by omega, ?_⟩
      rw [hsent (by rw [List.length_drop]; omega), hI, List.append_assoc, List.take_add])
    (Nat.zero_le _) (Nat.le_refl _) (by rw [List.take_zero, List.append_nil]) h
  rcases hcases with ⟨-, hI⟩ | ⟨_, _, -, -, -, rfl, -⟩ | ⟨_, _, -, -, -, hneg⟩
  · simpa using hI
  · exact absurd hr (by decide)
  · omega

theorem sendall_result {env : SendEnv} {buf : List UInt8} {nosignal : Bool} {timeout : Nat}
    {out out' : Outgoing} {r : Int}
    (h : sendall env buf nosignal timeout out = .ok (r, out')) :
    r = toInt32 buf.length ∨ r ≤ 0 :=
  transferAll_result (by decide) (fun done out₁ r₁ out₂ hlt hc hpos => by
    have hle := (send_pos hc hpos).1
    rw [List.length_drop] at hle
    omega) h

/-- No call made without `MSG_NOSIGNAL` finds the pipe broken. -/
def SendEnv.NoSignal (env : SendEnv) : Prop := ∀ n, env.send n false ≠ .brokenPipe

theorem send_returns {env : SendEnv} (henv : env.NoSignal) (data : List UInt8) (nosignal : Bool)
    (out : Outgoing) : ∃ r out', send env data nosignal out = .ok (r, out') := by
  unfold send
  split
  · exact ⟨_, _, rfl⟩
  · exact ⟨_, _, rfl⟩
  · rename_i hpipe
    cases nosignal with
    | true => exact ⟨_, _, rfl⟩
    | false => exact absurd hpipe (henv out.calls)

/-- No call of `send` with bytes to send returns 0. -/
theorem send_ne_zero {env : SendEnv} {data : List UInt8} {nosignal : Bool} {out out' : Outgoing}
    {r : Int} (hpos : 0 < data.length) (hlen : data.length < 2 ^ 32)
    (h : send env data nosignal out = .ok (r, out')) : r ≠ 0 := by
  unfold send at h
  split at h
  · rename_i n _
    simp only [Except.ok.injEq, Prod.mk.injEq] at h
    obtain ⟨rfl, -⟩ := h
    exact toInt32_ne_zero (moved_pos hpos hpos)
      (Nat.lt_of_le_of_lt (moved_le_wanted _ _ _) hlen)
  · cases h
    decide
  · split at h
    · cases h
      decide
    · cases h

/-- `sendall` returns, and what it returns is negative or the number of
bytes, when this number fits 32 bits. -/
theorem sendall_returns {env : SendEnv} (henv : env.NoSignal) {buf : List UInt8}
    (hpos : 0 < buf.length) (hlen : buf.length < 2 ^ 32) (nosignal : Bool) (timeout : Nat)
    (out : Outgoing) :
    ∃ r out', sendall env buf nosignal timeout out = .ok (r, out') ∧
      (r < 0 ∨ r = buf.length) := by
  obtain ⟨r, out', h⟩ : ∃ r out', sendall env buf nosignal timeout out = .ok (r, out') :=
    transferLoop_returns (fun _ out => send_returns henv _ nosignal out) buf.length 0 out
  refine ⟨r, out', h, ?_⟩
  have hcases := transferLoop_cases (I := fun _ _ => True) (fun _ _ _ _ => trivial)
    (fun done out₁ r₁ out₂ hlt _ hc hr => by
      have hle := (send_pos hc hr).1
      rw [List.length_drop] at hle
      exact ⟨by omega, trivial⟩)
    (Nat.zero_le _) (Nat.le_refl _) trivial h
  rcases hcases with ⟨rfl, -⟩ | ⟨_, _, -, -, -, rfl, -⟩ | ⟨done, _, hlt, -, hc, hneg⟩
  · exact toInt32_neg_or_eq hlen
  · exact .inl (by decide)
  · have hne := send_ne_zero (by rw [List.length_drop]; omega)
      (by rw [List.length_drop]; omega) hc
    exact .inl (by omega)

/-- `recvall` always returns. -/
theorem recvall_returns (env : RecvEnv) (len timeout : Nat) (inc : Incoming) :
    ∃ r data inc', recvall env len timeout inc = .ok (r, data, inc') := by
  obtain ⟨r, ⟨data, inc'⟩, h⟩ : ∃ r p, recvall env len timeout inc = .ok (r, p) :=
    transferLoop_returns (fun _ _ => ⟨_, _, rfl⟩) len 0 ([], inc)
  exact ⟨r, data, inc', h⟩

theorem recvall_result {env : RecvEnv} {len timeout : Nat} {inc inc' : Incoming} {r : Int}
    {data : List UInt8} (h : recvall env len timeout inc = .ok (r, data, inc')) :
    r = toInt32 len ∨ r ≤ 0 :=
  transferAll_result (by decide) (fun done p r₁ p' hlt hc hpos => by
    have hle := recv_toNat_le env (len - done) p.1 p.2
    simp only [Except.ok.injEq] at hc
    rw [hc] at hle
    dsimp only at hle
    omega) h

/-- Every call of `recv` returns bytes while there are any. -/
def RecvEnv.Arrives (env : RecvEnv) : Prop := ∀ n, ∃ k, env.recv n = .delivers k

/-- No check of the limit made so far on the socket found it run out. -/
def InTime (env : RecvEnv) (timeout : Nat) (inc : Incoming) : Prop :=
  ∀ n < inc.checks, env.elapsed n ≤ timeout

/-- What a call of `recv` takes from the stream. -/
theorem recv_arrives {env : RecvEnv} (henv : env.Arrives) {len : Nat} (hlen : len < 2 ^ 31)
    (data : List UInt8) (inc : Incoming) :
    ∃ k, k ≤ len ∧ (0 < len → 0 < inc.unread.length → 0 < k) ∧ k ≤ inc.unread.length ∧
      recv env len data inc = ((k : Int), data ++ inc.unread.take k,
        { inc with unread := inc.unread.drop k, calls := inc.calls + 1 }) := by
  obtain ⟨n, hn⟩ := henv inc.calls
  have hle := moved_le_wanted n len inc.unread.length
  refine ⟨moved n len inc.unread.length, hle, moved_pos, moved_le_available _ _ _, ?_⟩
  simp only [recv, hn]
  rw [toInt32_of_lt (by omega)]

/-- `recvall` on a stream: it takes what it asks for, or runs out of time,
or finds the end of the stream. -/
theorem recvall_cases {env : RecvEnv} (henv : env.Arrives) {len timeout : Nat}
    (hlen : len < 2 ^ 31) {inc inc' : Incoming} {r : Int} {data : List UInt8}
    (h : recvall env len timeout inc = .ok (r, data, inc')) :
    (r = len ∧ len ≤ inc.unread.length ∧ data = inc.unread.take len ∧
      inc'.unread = inc.unread.drop len) ∨
    (r = ETIMEOUT ∧ 0 < timeout ∧ ¬ InTime env timeout inc') ∨
    (r = 0 ∧ inc.unread.length < len ∧ inc'.unread = []) := by
  have hcases := transferLoop_cases (ε := Stop)
    (I := fun done (p : List UInt8 × Incoming) => done ≤ inc.unread.length ∧
      p.1 = inc.unread.take done ∧ p.2.unread = inc.unread.drop done)
    (fun done p _ hI => hI)
    (fun done p r₁ p' hlt hI hc hpos => by
      obtain ⟨hdone, hdata, hinb⟩ := hI
      obtain ⟨k, hk, -, hav, hrecv⟩ :=
        recv_arrives henv (show len - done < 2 ^ 31 by omega) p.1 p.2
      simp only [hrecv, Except.ok.injEq, Prod.mk.injEq] at hc
      obtain ⟨rfl, rfl⟩ := hc
      rw [hinb, List.length_drop] at hav
      rw [Int.toNat_natCast]
      refine ⟨by omega, by omega, ?_, ?_⟩
      · rw [hdata, hinb, List.take_add]
      · rw [hinb, List.drop_drop])
    (Nat.zero_le _) (Nat.le_refl _) ⟨Nat.zero_le _, rfl, rfl⟩ h
  rcases hcases with ⟨hr, hle, hdata, hinb⟩ | ⟨_, p, -, -, hlate, hr, hp⟩ |
    ⟨done, p, hlt, ⟨hdone, -, hinb⟩, hc, hneg⟩
  · exact .inl ⟨hr.trans (toInt32_of_lt hlen), hle, hdata, hinb⟩
  · obtain ⟨hpos, n, hn, hlt⟩ := timedOut_late hlate
    refine .inr (.inl ⟨hr, hpos, fun hin => ?_⟩)
    have hle := hin n (by rw [(Prod.mk.inj hp).2]; exact hn)
    omega
  · obtain ⟨k, hk, hpos, hav, hrecv⟩ :=
      recv_arrives henv (show len - done < 2 ^ 31 by omega) p.1 p.2
    simp only [hrecv, Except.ok.injEq, Prod.mk.injEq] at hc
    obtain ⟨rfl, -, rfl⟩ := hc
    obtain rfl : k = 0 := by omega
    have hempty : p.2.unread = [] := by
      refine List.length_eq_zero_iff.mp ?_
      by_contra hne
      exact absurd (hpos (by omega) (by omega)) (by omega)
    have hend : inc.unread.length ≤ done := by
      rw [hempty] at hinb
      exact List.drop_eq_nil_iff.mp hinb.symm
    exact .inr (.inr ⟨rfl, by omega, by rw [List.drop_zero]; exact hempty⟩)

end SystemsProjects.Net
