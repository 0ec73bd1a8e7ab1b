/-
SystemsProjects.Net.NetworkConn — when ClientConn and ServerConn release
their descriptors (net/network_conn.hpp, net/network_conn.cpp).

In `ClientConn` one flag stands for connected and for not yet closed:
`close` and the destructor call `::close` only while it is set, and
`shutdown` clears it as well. `ServerConn` has no flag: every `close` calls
`::close`, the destructor only shuts the socket down.

`lifetime` is what one connection asks of the OS. `System` has any number
of them over the table of open descriptors, where a number that was closed
may be given out again; `closes` records whose descriptor each `::close`
met. `released_exactly_once` says under which calls a connection closes its
descriptor once, and that in a run of such calls nothing leaks and nothing
of another connection is closed.
-/
import Mathlib.Data.List.Nodup
import Mathlib.Logic.Function.Basic

namespace SystemsProjects.Net.NetworkConn

/-! ## The source -/

inductive SysCall where
  | close (fd : Nat)
  | shutdown (fd : Nat)
  deriving DecidableEq, Repr

structure ClientConn where
  fd : Nat
  is_connected : Bool

namespace ClientConn

def close (conn : ClientConn) : ClientConn × List SysCall :=
  if conn.is_connected then ({ conn with is_connected := false }, [.close conn.fd]) else (conn, [])

def shutdown (conn : ClientConn) : ClientConn × List SysCall :=
  if conn.is_connected then ({ conn with is_connected := false }, [.shutdown conn.fd]) else
  (conn, [])

/-- The destructor. -/
def destroy (conn : ClientConn) : List SysCall :=
  if conn.is_connected then [.close conn.fd] else []

end ClientConn

structure ServerConn where
  fd : Nat

namespace ServerConn

def close (conn : ServerConn) : ServerConn × List SysCall := (conn, [.close conn.fd])

def shutdown (conn : ServerConn) : ServerConn × List SysCall := (conn, [.shutdown conn.fd])

/-- The destructor. -/
def destroy (conn : ServerConn) : List SysCall := [.shutdown conn.fd]

end ServerConn

/-! ## One connection -/

inductive Conn where
  | client (conn : ClientConn)
  | server (conn : ServerConn)

inductive Method where
  | close
  | shutdown
  deriving DecidableEq, Repr

namespace Conn

def fd : Conn → Nat
  | client conn => conn.fd
  | server conn => conn.fd

def call : Conn → Method → Conn × List SysCall
  | client conn, .close => (client conn.close.1, conn.close.2)
  | client conn, .shutdown => (client conn.shutdown.1, conn.shutdown.2)
  | server conn, .close => (server conn.close.1, conn.close.2)
  | server conn, .shutdown => (server conn.shutdown.1, conn.shutdown.2)

def destroy : Conn → List SysCall
  | client conn => conn.destroy
  | server conn => conn.destroy

/-- The calls of a connection on which `methods` are called and which is
destroyed then. -/
def lifetime (conn : Conn) : List Method → List SysCall
  | [] => conn.destroy
  | method :: methods => (conn.call method).2 ++ lifetime (conn.call method).1 methods

end Conn

section

variable {fd : Nat} {methods : List Method}

/-- A client that is not connected asks for nothing any more. -/
theorem lifetime_disconnected (fd : Nat) (methods : List Method) :
    (Conn.client ⟨fd, false⟩).lifetime methods = [] := by
  induction methods with
  | nil => rfl
  | cons method methods ih =>
    cases method with
    | close => exact ih
    | shutdown => exact ih

/-- **A `ClientConn` closes its descriptor once** unless `shutdown` comes
first. -/
theorem client_closes_once_iff (fd : Nat) (methods : List Method) :
    ((Conn.client ⟨fd, true⟩).lifetime methods).count (.close fd) = 1 ↔
      methods.head? ≠ some .shutdown := by
  cases methods with
  | nil => simp [Conn.lifetime, Conn.destroy, ClientConn.destroy]
  | cons method methods =>
    cases method with
    | close => simp [Conn.lifetime, Conn.call, ClientConn.close, lifetime_disconnected]
    | shutdown => simp [Conn.lifetime, Conn.call, ClientConn.shutdown, lifetime_disconnected]

theorem server_closes (fd : Nat) (methods : List Method) :
    ((Conn.server ⟨fd⟩).lifetime methods).count (.close fd) = methods.count .close := by
  induction methods with
  | nil => simp [Conn.lifetime, Conn.destroy, ServerConn.destroy]
  | cons method methods ih =>
    cases method with
    | close => simp [Conn.lifetime, Conn.call, ServerConn.close, ih]
    | shutdown => simp [Conn.lifetime, Conn.call, ServerConn.shutdown, ih]

end

/-! ## The connections of a process -/

/-- A `::close`: the connection that calls it, and the one whose socket the
descriptor is then. -/
structure Close where
  caller : Nat
  owner : Option Nat

structure System where
  /-- The sockets of the open descriptors, by the numbers of their connections. -/
  table : Nat → Option Nat
  /-- The connections that are not destroyed. -/
  conns : Nat → Option Conn
  /-- The number of the next connection. -/
  next : Nat
  closes : List Close

inductive Action where
  /-- `accept_client` where the OS returns `fd`; `getnameinfo` may fail. -/
  | accept (fd : Nat) (named : Bool)
  /-- `connect_to_server`. -/
  | connect (fd : Nat)
  | call (i : Nat) (method : Method)
  | destroy (i : Nat)

namespace System

def init : System := ⟨fun _ => none, fun _ => none, 0, []⟩

def sysCall (i : Nat) (s : System) : SysCall → System
  | .close fd =>
    { s with table := Function.update s.table fd none, closes := s.closes ++ [⟨i, s.table fd⟩] }
  | .shutdown _ => s

@[simp] theorem sysCall_close_table (i : Nat) (s : System) (fd : Nat) :
    (sysCall i s (.close fd)).table = Function.update s.table fd none := rfl

/-- A new socket, with the connection made for it. -/
def opened (s : System) (fd : Nat) (conn : Option Conn) : System :=
  { s with
    table := Function.update s.table fd (some s.next)
    conns := Function.update s.conns s.next conn
    next := s.next + 1 }

@[simp] theorem opened_table (s : System) (fd : Nat) (conn : Option Conn) :
    (s.opened fd conn).table = Function.update s.table fd (some s.next) := rfl

@[simp] theorem opened_conns (s : System) (fd : Nat) (conn : Option Conn) :
    (s.opened fd conn).conns = Function.update s.conns s.next conn := rfl

/-- Connection `i` after a method, or without it after its destructor. -/
def replaced (s : System) (i : Nat) (conn : Option Conn) : System :=
  { s with conns := Function.update s.conns i conn }

@[simp] theorem replaced_table (s : System) (i : Nat) (conn : Option Conn) :
    (s.replaced i conn).table = s.table := rfl

@[simp] theorem replaced_conns (s : System) (i : Nat) (conn : Option Conn) :
    (s.replaced i conn).conns = Function.update s.conns i conn := rfl

/-- The OS gives out descriptors that are not open. -/
def step (s : System) : Action → Option System
  | .accept fd named =>
    if s.table fd = none then
      some (s.opened fd (if named then some (.client ⟨fd, true⟩) else none))
    else none
  | .connect fd => if s.table fd = none then some (s.opened fd (some (.server ⟨fd⟩))) else none
  | .call i method =>
    (s.conns i).map fun conn =>
      ((conn.call method).2.foldl (sysCall i) s).replaced i (some (conn.call method).1)
  | .destroy i =>
    (s.conns i).map fun conn => (conn.destroy.foldl (sysCall i) s).replaced i none

/-- Connection `i` has called `::close`. -/
def HasClosed (s : System) (i : Nat) : Prop := i ∈ s.closes.map Close.caller

/-- The steps after which each connection still closes its descriptor once:
no `shutdown` of a client before it closed, one `close` of a server, before
it is destroyed, and an address for every client that is accepted. -/
def Releases (s : System) : Action → Prop
  | .accept _ named => named = true
  | .connect _ => True
  | .call i method =>
    ∀ conn, s.conns i = some conn →
      match conn, method with
      | .client _, .shutdown => s.HasClosed i
      | .client _, .close => True
      | .server _, .close => ¬ s.HasClosed i
      | .server _, .shutdown => True
  | .destroy i => ∀ conn, s.conns i = some (.server conn) → s.HasClosed i

/-- The states of runs in which every step is one of these. -/
inductive Disciplined : System → Prop where
  | init : Disciplined init
  | step {s s' : System} {a : Action} (hs : Disciplined s) (ha : s.Releases a)
      (hstep : s.step a = some s') : Disciplined s'

/-- Every connection that is gone closed its descriptor once, every open
descriptor is of a connection that is still there, and every `::close` met
the caller's own socket. -/
structure Clean (s : System) : Prop where
  once : ∀ i < s.next, s.conns i = none → (s.closes.map Close.caller).count i = 1
  held : ∀ fd i, s.table fd = some i → s.conns i ≠ none
  own : ∀ e ∈ s.closes, e.owner = some e.caller

/-! ## The invariant -/

structure Sound (s : System) : Prop where
  closed_lt : ∀ i, s.HasClosed i → i < s.next
  conns_lt : ∀ i conn, s.conns i = some conn → i < s.next
  once : (s.closes.map Close.caller).Nodup
  own : ∀ e ∈ s.closes, e.owner = some e.caller
  table : ∀ fd i, s.table fd = some i → ¬ s.HasClosed i ∧ ∃ conn, s.conns i = some conn ∧
    conn.fd = fd
  holds : ∀ i conn, s.conns i = some conn → ¬ s.HasClosed i → s.table conn.fd = some i
  connected : ∀ i conn, s.conns i = some (.client conn) →
    (conn.is_connected = true ↔ ¬ s.HasClosed i)
  gone : ∀ i < s.next, s.conns i = none → s.HasClosed i

variable {s s' : System} {i : Nat} {conn : Conn} {conn' : Option Conn}

theorem Sound.init : Sound init where
  closed_lt := fun i h => absurd h List.not_mem_nil
  conns_lt := fun i conn h => by cases h
  once := List.nodup_nil
  own := fun e h => absurd h List.not_mem_nil
  table := fun fd i h => by cases h
  holds := fun i conn h => by cases h
  connected := fun i conn h => by cases h
  gone := fun i h => absurd h (Nat.not_lt_zero i)

theorem Sound.clean (h : Sound s) : Clean s where
  once := by
    intro i hi hnone
    exact List.count_eq_one_of_mem h.once (h.gone i hi hnone)
  held := by
    intro fd i hfd hnone
    obtain ⟨-, conn, hconn, -⟩ := h.table fd i hfd
    rw [hnone] at hconn
    cases hconn
  own := h.own

/-- A socket and the connection made for it. -/
theorem Sound.opened (h : Sound s) {fd : Nat} (hfd : s.table fd = none) (hconn : conn.fd = fd)
    (hclient : ∀ c, conn = .client c → c.is_connected = true) :
    Sound (s.opened fd (some conn)) := by
  have hnew : ¬ s.HasClosed s.next := fun hclosed => Nat.lt_irrefl _ (h.closed_lt _ hclosed)
  have hold : ∀ i c, s.conns i = some c → i ≠ s.next := by
    intro i c hc
    exact Nat.ne_of_lt (h.conns_lt i c hc)
  refine ⟨?_, ?_, h.once, h.own, ?_, ?_, ?_, ?_⟩
  · intro i hclosed
    exact Nat.lt_succ_of_lt (h.closed_lt i hclosed)
  · intro i c hc
    by_cases hi : i = s.next
    · exact hi ▸ Nat.lt_succ_self _
    · rw [opened_conns, Function.update_of_ne hi] at hc
      exact Nat.lt_succ_of_lt (h.conns_lt i c hc)
  · intro fd' i hi
    by_cases heq : fd' = fd
    · rw [opened_table, heq, Function.update_self] at hi
      cases hi
      exact ⟨hnew, conn, Function.update_self .., hconn.trans heq.symm⟩
    · rw [opened_table, Function.update_of_ne heq] at hi
      obtain ⟨hclosed, c, hc, hcfd⟩ := h.table fd' i hi
      exact ⟨hclosed, c, (Function.update_of_ne (hold i c hc) ..).trans hc, hcfd⟩
  · intro i c hc hclosed
    by_cases hi : i = s.next
    · rw [opened_conns, hi, Function.update_self] at hc
      cases hc
      rw [opened_table, hi, hconn, Function.update_self]
    · rw [opened_conns, Function.update_of_ne hi] at hc
      have hfd' := h.holds i c hc hclosed
      have hne : c.fd ≠ fd := by
        intro heq
        rw [heq, hfd] at hfd'
        cases hfd'
      rw [opened_table, Function.update_of_ne hne, hfd']
  · intro i c hc
    by_cases hi : i = s.next
    · rw [opened_conns, hi, Function.update_self] at hc
      rw [hi]
      exact iff_of_true (hclient c (Option.some.inj hc)) hnew
    · rw [opened_conns, Function.update_of_ne hi] at hc
      exact h.connected i c hc
  · intro i hi hnone
    by_cases heq : i = s.next
    · rw [opened_conns, heq, Function.update_self] at hnone
      cases hnone
    · rw [opened_conns, Function.update_of_ne heq] at hnone
      exact h.gone i (Nat.lt_of_le_of_ne (Nat.le_of_lt_succ hi) heq) hnone

/-- A connection that changes or goes without a `::close`. -/
theorem Sound.keep (h : Sound s) (hconn : s.conns i = some conn)
    (hgone : conn' = none → s.HasClosed i) (hfd : ∀ c, conn' = some c → c.fd = conn.fd)
    (hclient : ∀ c, conn' = some (.client c) → (c.is_connected = true ↔ ¬ s.HasClosed i)) :
    Sound (s.replaced i conn') := by
  refine ⟨h.closed_lt, ?_, h.once, h.own, ?_, ?_, ?_, ?_⟩
  · intro j c hc
    by_cases hj : j = i
    · exact hj ▸ h.conns_lt i conn hconn
    · rw [replaced_conns, Function.update_of_ne hj] at hc
      exact h.conns_lt j c hc
  · intro fd j hj
    obtain ⟨hclosed, c, hc, hcfd⟩ := h.table fd j hj
    refine ⟨hclosed, ?_⟩
    by_cases heq : j = i
    · subst heq
      rw [hconn] at hc
      cases hc
      obtain _ | c' := conn'
      · exact absurd (hgone rfl) hclosed
      · exact ⟨c', Function.update_self .., (hfd c' rfl).trans hcfd⟩
    · exact ⟨c, (Function.update_of_ne heq ..).trans hc, hcfd⟩
  · intro j c hc hclosed
    by_cases hj : j = i
    · subst hj
      rw [replaced_conns, Function.update_self] at hc
      rw [hfd c hc]
      exact h.holds j conn hconn hclosed
    · rw [replaced_conns, Function.update_of_ne hj] at hc
      exact h.holds j c hc hclosed
  · intro j c hc
    by_cases hj : j = i
    · subst hj
      rw [replaced_conns, Function.update_self] at hc
      exact hclient c hc
    · rw [replaced_conns, Function.update_of_ne hj] at hc
      exact h.connected j c hc
  · intro j hj hnone
    by_cases heq : j = i
    · subst heq
      rw [replaced_conns, Function.update_self] at hnone
      exact hgone hnone
    · rw [replaced_conns, Function.update_of_ne heq] at hnone
      exact h.gone j hj hnone

/-- The first `::close` of a connection. -/
theorem Sound.close (h : Sound s) (hconn : s.conns i = some conn) (hopen : ¬ s.HasClosed i)
    (hclient : ∀ c, conn' = some (.client c) → c.is_connected = false) :
    Sound ((sysCall i s (.close conn.fd)).replaced i conn') := by
  have hown : s.table conn.fd = some i := h.holds i conn hconn hopen
  have hclosed : ∀ j, (sysCall i s (.close conn.fd)).HasClosed j ↔ s.HasClosed j ∨ j = i := by
    intro j
    simp only [HasClosed, sysCall, List.map_append, List.map_singleton, List.mem_append,
      List.mem_singleton]
  refine ⟨?_, ?_, ?_, ?_, ?_, ?_, ?_, ?_⟩
  · intro j hj
    rcases (hclosed j).mp hj with hj | rfl
    · exact h.closed_lt j hj
    · exact h.conns_lt j conn hconn
  · intro j c hc
    by_cases hj : j = i
    · exact hj ▸ h.conns_lt i conn hconn
    · exact h.conns_lt j c ((Function.update_of_ne hj ..).symm.trans hc)
  · have hconcat := List.Nodup.concat hopen h.once
    rw [List.concat_eq_append] at hconcat
    simpa only [replaced, sysCall, List.map_append, List.map_singleton] using hconcat
  · intro e he
    rcases List.mem_append.mp he with he | he
    · exact h.own e he
    · rw [List.mem_singleton.mp he]
      exact hown
  · intro fd j hj
    by_cases heq : fd = conn.fd
    · rw [replaced_table, sysCall_close_table, heq, Function.update_self] at hj
      cases hj
    · rw [replaced_table, sysCall_close_table, Function.update_of_ne heq] at hj
      obtain ⟨hj', c, hc, hcfd⟩ := h.table fd j hj
      have hne : j ≠ i := by
        rintro rfl
        rw [hconn] at hc
        cases hc
        exact heq hcfd.symm
      exact ⟨fun hcl => ((hclosed j).mp hcl).elim hj' hne, c,
        (Function.update_of_ne hne ..).trans hc,
        hcfd⟩
  · intro j c hc hj
    have hj' : ¬ s.HasClosed j ∧ j ≠ i := not_or.mp fun hor => hj ((hclosed j).mpr hor)
    have hc' : s.conns j = some c := (Function.update_of_ne hj'.2 ..).symm.trans hc
    have htable := h.holds j c hc' hj'.1
    have hne : c.fd ≠ conn.fd := by
      intro heq
      rw [heq, hown] at htable
      exact hj'.2 (Option.some.inj htable).symm
    exact (Function.update_of_ne hne ..).trans htable
  · intro j c hc
    by_cases hj : j = i
    · subst hj
      have hc' := (Function.update_self ..).symm.trans hc
      rw [hclient c hc']
      exact iff_of_false Bool.false_ne_true (fun hn => hn ((hclosed j).mpr (.inr rfl)))
    · have hc' : s.conns j = some (.client c) := (Function.update_of_ne hj ..).symm.trans hc
      have hiff : (sysCall i s (.close conn.fd)).HasClosed j ↔ s.HasClosed j :=
        (hclosed j).trans (or_iff_left hj)
      exact (h.connected j c hc').trans (not_congr hiff.symm)
  · intro j hj hnone
    refine (hclosed j).mpr ?_
    by_cases heq : j = i
    · exact .inr heq
    · exact .inl (h.gone j hj ((Function.update_of_ne heq ..).symm.trans hnone))

/-- A connection on which a method did nothing that the table shows. -/
theorem Sound.same (h : Sound s) (hconn : s.conns i = some conn) :
    Sound (s.replaced i (some conn)) := by
  refine h.keep hconn (fun hnone => by cases hnone) ?_ ?_
  · intro c hc
    exact congrArg Conn.fd (Option.some.inj hc).symm
  · intro c hc
    exact h.connected i c (hconn.trans hc)

theorem Sound.call (h : Sound s) (hconn : s.conns i = some conn) (method : Method)
    (ha : s.Releases (.call i method)) :
    Sound (((conn.call method).2.foldl (sysCall i) s).replaced i (some (conn.call method).1)) := by
  have ha := ha conn hconn
  cases conn with
  | client conn =>
    obtain ⟨fd, is_connected⟩ := conn
    have hflag := h.connected i _ hconn
    cases is_connected with
    | true =>
      have hopen := hflag.mp rfl
      cases method with
      | close =>
        refine h.close hconn hopen fun c hc => ?_
        cases hc
        rfl
      | shutdown => exact absurd ha hopen
    | false =>
      cases method with
      | close => exact h.same hconn
      | shutdown => exact h.same hconn
  | server conn =>
    cases method with
    | close => exact h.close hconn ha fun c hc => by cases hc
    | shutdown => exact h.same hconn

theorem Sound.destroy (h : Sound s) (hconn : s.conns i = some conn) (ha : s.Releases (.destroy i)) :
    Sound ((conn.destroy.foldl (sysCall i) s).replaced i none) := by
  cases conn with
  | client conn =>
    obtain ⟨fd, is_connected⟩ := conn
    have hflag := h.connected i _ hconn
    cases is_connected with
    | true => exact h.close hconn (hflag.mp rfl) fun c hc => by cases hc
    | false =>
      have hclosed : s.HasClosed i := by
        by_contra hopen
        exact Bool.false_ne_true (hflag.mpr hopen)
      exact h.keep hconn (fun _ => hclosed) (fun c hc => by cases hc) (fun c hc => by cases hc)
  | server conn =>
    exact h.keep hconn (fun _ => ha conn hconn) (fun c hc => by cases hc) (fun c hc => by cases hc)

theorem Sound.step {a : Action} (h : Sound s) (ha : s.Releases a) (hstep : s.step a = some s') :
    Sound s' := by
  cases a with
  | accept fd named =>
    obtain rfl : named = true := ha
    simp only [System.step, Option.ite_none_right_eq_some] at hstep
    obtain ⟨hfd, rfl⟩ : s.table fd = none ∧ _ = s' := hstep.imp_right Option.some.inj
    exact h.opened hfd rfl fun c hc => by cases hc; rfl
  | connect fd =>
    simp only [System.step, Option.ite_none_right_eq_some] at hstep
    obtain ⟨hfd, rfl⟩ : s.table fd = none ∧ _ = s' := hstep.imp_right Option.some.inj
    exact h.opened hfd rfl fun c hc => by cases hc
  | call i method =>
    obtain ⟨conn, hconn, rfl⟩ := Option.map_eq_some_iff.mp hstep
    exact h.call hconn method ha
  | destroy i =>
    obtain ⟨conn, hconn, rfl⟩ := Option.map_eq_some_iff.mp hstep
    exact h.destroy hconn ha

theorem Disciplined.sound (h : Disciplined s) : Sound s := by
  induction h with
  | init => exact Sound.init
  | step _ ha hstep ih => exact ih.step ha hstep

end System

/-- **Every socket is released exactly once** under these calls and no
others: a client is not shut down first, a server is closed once. In a run
of such steps no descriptor leaks and no `::close` meets another socket. -/
theorem released_exactly_once (fd : Nat) (methods : List Method) (s : System) :
    (((Conn.client ⟨fd, true⟩).lifetime methods).count (.close fd) = 1 ↔
      methods.head? ≠ some .shutdown) ∧
    (((Conn.server ⟨fd⟩).lifetime methods).count (.close fd) = 1 ↔ methods.count .close = 1) ∧
    (s.Disciplined → s.Clean) := by
  refine ⟨client_closes_once_iff fd methods, ?_, fun hs => hs.sound.clean⟩
  rw [server_closes]

/-- A descriptor that was closed is given out again. -/
theorem released_exactly_once_reused :
    (((System.init.opened 4 (some (.client ⟨4, true⟩))).sysCall 0 (.close 4)).replaced 0
      (some (.client ⟨4, false⟩))).opened 4 (some (.client ⟨4, true⟩)) |>.Clean :=
  (released_exactly_once 4 [] _).2.2
    (.step (a := .accept 4 true)
      (.step (a := .call 0 .close)
        (.step (a := .accept 4 true) .init rfl rfl)
        (fun conn hconn => by cases hconn; trivial) rfl)
      rfl rfl)

/-- `StaticShardController::handle_client` shuts a client down and lets go
of it. -/
theorem shutdown_leaks :
    ¬ ∀ fd methods, ((Conn.client ⟨fd, true⟩).lifetime methods).count (.close fd) = 1 := by
  intro hall
  have hone := hall 4 [.shutdown]
  rw [client_closes_once_iff] at hone
  exact hone rfl

/-! ## The callers -/

/-- Where the servers and clients let go of a connection. -/
inductive Caller where
  /-- `StaticShardController::handle_client`, perhaps after `stop`. -/
  | handleClient (stopped : Bool)
  /-- `KvServer::work_loop`, when nothing can be received or sent. -/
  | workLoop
  /-- `KvServer::stop` while the client is queued; a worker may still take it. -/
  | queued (taken : Bool)
  /-- Every call of `SimpleClient`. -/
  | simpleClient
  /-- `KvServer::stop` on `shardcontroller_conn`. -/
  | shardcontrollerConn

namespace Caller

def conn (fd : Nat) : Caller → Conn
  | handleClient _ | workLoop | queued _ => .client ⟨fd, true⟩
  | simpleClient | shardcontrollerConn => .server ⟨fd⟩

def methods : Caller → List Method
  | handleClient stopped => (if stopped then [.shutdown] else []) ++ [.shutdown]
  | workLoop => [.close]
  | queued taken => .shutdown :: if taken then [.close] else []
  | simpleClient => []
  | shardcontrollerConn => [.shutdown]

end Caller

/-- Only `work_loop` releases its connections. -/
theorem caller_releases_iff (caller : Caller) (fd : Nat) :
    ((caller.conn fd).lifetime caller.methods).count (.close fd) = 1 ↔ caller = .workLoop := by
  cases caller with
  | handleClient stopped =>
    rw [Caller.conn, client_closes_once_iff]
    cases stopped <;> simp [Caller.methods]
  | workLoop =>
    rw [Caller.conn, client_closes_once_iff]
    simp [Caller.methods]
  | queued taken =>
    rw [Caller.conn, client_closes_once_iff]
    simp [Caller.methods]
  | simpleClient =>
    rw [Caller.conn, server_closes]
    simp [Caller.methods]
  | shardcontrollerConn =>
    rw [Caller.conn, server_closes]
    simp [Caller.methods]

end SystemsProjects.Net.NetworkConn
