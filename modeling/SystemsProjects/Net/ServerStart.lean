/-
SystemsProjects.Net.ServerStart — KvServer::start with the threads it
starts (server/server.cpp): accept_clients_loop and the work_loops, over
the connection queues and their mutexes.

`start` starts the listener thread before it gives the containers their
size. `Run` interleaves the statements of all threads and the clients that
connect. `accept_clients_loop` indexes `conn_queue_mtxs` with the first
client it gets (`early_client_faults`); where it only goes on from a client
once the containers have their size, every index is in bounds and every
client is queued for a worker (`start_safe`).

An index outside a container is the outcome `fault`.
-/
import Mathlib.Data.List.Basic

namespace SystemsProjects.Net.ServerStart

/-! ## The source -/

/-- The statement `start` is at. What follows the workers does not touch
the queues. -/
inductive Start where
  | openListener
  | startListener
  | resizeWorkers
  | resizeQueues
  | resizeMutexes
  | startWorker (i : Nat)
  | started
  | failed

/-- Where `accept_clients_loop` is; clients are numbered. -/
inductive Acceptor where
  | notStarted
  | accepting
  | locking (client : Nat)
  | pushing (client : Nat)
  | unlocking
  | returned

/-- Where a `work_loop` is. -/
inductive Worker where
  | notStarted
  | locking
  | polling
  | unlocking (client : Option Nat)
  | serving (client : Nat)

structure State where
  start : Start
  acceptor : Acceptor
  next_worker : Nat
  workers : List Worker
  conn_queues : List (List Nat)
  /-- Whether each mutex is locked. -/
  conn_queue_mtxs : List Bool
  /-- How many clients were accepted. -/
  accepted : Nat
  /-- The clients that workers took. -/
  taken : List Nat

inductive Outcome where
  | blocked
  | fault
  | next (s : State)

/-- `resize` of a vector or deque. -/
def resize {α : Type} (n : Nat) (xs : List α) (x : α) : List α :=
  xs.take n ++ List.replicate (n - xs.length) x

namespace State

/-- A server that was not started. -/
def init : State := ⟨.openListener, .notStarted, 0, [], [], [], 0, []⟩

/-- `conn_queue_mtxs[i].lock()`. -/
def lock (s : State) (i : Nat) (k : State → Outcome) : Outcome :=
  match s.conn_queue_mtxs[i]? with
  | none => .fault
  | some true => .blocked
  | some false => k { s with conn_queue_mtxs := s.conn_queue_mtxs.set i true }

/-- `conn_queue_mtxs[i].unlock()`. -/
def unlock (s : State) (i : Nat) (k : State → Outcome) : Outcome :=
  match s.conn_queue_mtxs[i]? with
  | none => .fault
  | some _ => k { s with conn_queue_mtxs := s.conn_queue_mtxs.set i false }

/-- `conn_queues[i]`. -/
def queue (s : State) (i : Nat) (k : List Nat → Outcome) : Outcome :=
  match s.conn_queues[i]? with
  | none => .fault
  | some q => k q

def setQueue (s : State) (i : Nat) (q : List Nat) : State :=
  { s with conn_queues := s.conn_queues.set i q }

def setWorker (s : State) (i : Nat) (w : Worker) : State := { s with workers := s.workers.set i w }

end State

/-- The next statement of `start`; `ok` is whether the listener opens. -/
def startStep (n_workers : Nat) (s : State) (ok : Bool) : Outcome :=
  match s.start with
  | .openListener => .next { s with start := if ok then .startListener else .failed }
  | .startListener => .next { s with start := .resizeWorkers, acceptor := .accepting }
  | .resizeWorkers =>
    .next { s with start := .resizeQueues, workers := resize n_workers s.workers .notStarted }
  | .resizeQueues =>
    .next { s with start := .resizeMutexes, conn_queues := resize n_workers s.conn_queues [] }
  | .resizeMutexes =>
    .next
      { s with start := .startWorker 0
               conn_queue_mtxs := resize n_workers s.conn_queue_mtxs false }
  | .startWorker i =>
    match s.workers[i]? with
    | none => .next { s with start := .started }
    | some _ => .next { s.setWorker i .locking with start := .startWorker (i + 1) }
  | .started => .blocked
  | .failed => .blocked

/-- `accept_client`, which fails once the listener is shut down. -/
def acceptStep (s : State) (ok : Bool) : Outcome :=
  match s.acceptor with
  | .accepting =>
    .next (if ok then { s with acceptor := .locking s.accepted, accepted := s.accepted + 1 }
      else { s with acceptor := .returned })
  | _ => .blocked

/-- The rest of an iteration of `accept_clients_loop`. -/
def acceptorStep (n_workers : Nat) (s : State) : Outcome :=
  match s.acceptor with
  | .locking client => s.lock s.next_worker fun s => .next { s with acceptor := .pushing client }
  | .pushing client =>
    s.queue s.next_worker fun q =>
      .next { s.setQueue s.next_worker (q ++ [client]) with acceptor := .unlocking }
  | .unlocking =>
    s.unlock s.next_worker fun s =>
      .next { s with acceptor := .accepting, next_worker := (s.next_worker + 1) % n_workers }
  | _ => .blocked

/-- `work_loop(i)`; a client is served until its connection closes. -/
def workerStep (s : State) (i : Nat) : Outcome :=
  match s.workers[i]? with
  | some .locking => s.lock i fun s => .next (s.setWorker i .polling)
  | some .polling =>
    s.queue i fun q =>
      match q with
      | [] => .next (s.setWorker i (.unlocking none))
      | client :: rest =>
        .next { (s.setQueue i rest).setWorker i (.unlocking (some client)) with
          taken := client :: s.taken }
  | some (.unlocking client) =>
    s.unlock i fun s =>
      .next (s.setWorker i (match client with
        | none => .locking
        | some client => .serving client))
  | some (.serving _) => .next (s.setWorker i .locking)
  | some .notStarted => .blocked
  | none => .blocked

inductive Action where
  | start (ok : Bool)
  | accept (ok : Bool)
  | acceptor
  | worker (i : Nat)

def step (n_workers : Nat) (s : State) : Action → Outcome
  | .start ok => startStep n_workers s ok
  | .accept ok => acceptStep s ok
  | .acceptor => acceptorStep n_workers s
  | .worker i => workerStep s i

/-- Runs of the threads whose steps all meet `guard`. -/
inductive Run (n_workers : Nat) (guard : State → Action → Prop) : State → Prop where
  | init : Run n_workers guard State.init
  | step {s s' : State} {a : Action} (hs : Run n_workers guard s) (hg : guard s a)
      (hstep : step n_workers s a = .next s') : Run n_workers guard s'

/-! ## What start-up promises -/

/-- How far `start` is. -/
def Start.rank : Start → Nat
  | openListener => 0
  | startListener => 1
  | resizeWorkers => 2
  | resizeQueues => 3
  | resizeMutexes => 4
  | startWorker _ => 5
  | started => 5
  | failed => 0

theorem Start.rank_le (start : Start) : start.rank ≤ 5 := by
  cases start <;> simp [Start.rank]

/-- The condition: `accept_clients_loop` goes on from a client it accepted
only when both containers have been resized. -/
def Timely (s : State) : Action → Prop
  | .acceptor => (∃ client, s.acceptor = .locking client) → s.start.rank = 5
  | _ => True

/-- Worker `j` is in its loop, or `start` is still to start it. -/
def Polls (n_workers : Nat) (s : State) (j : Nat) : Prop :=
  (∃ w, s.workers[j]? = some w ∧ w ≠ .notStarted) ∨
    match s.start with
    | .startWorker i => i ≤ j ∧ j < n_workers
    | .started => False
    | .failed => False
    | _ => j < n_workers

/-- A client the listener thread is about to queue. -/
def Acceptor.Holds (client : Nat) : Acceptor → Prop
  | locking c => c = client
  | pushing c => c = client
  | _ => False

/-- A client is about to be queued, on a queue that a worker polls, or taken
from it. -/
def Served (n_workers : Nat) (s : State) (client : Nat) : Prop :=
  s.acceptor.Holds client ∨ client ∈ s.taken ∨
    ∃ j q, s.conn_queues[j]? = some q ∧ client ∈ q ∧ Polls n_workers s j

/-! ## The invariant -/

/-- Between `lock` and `unlock`. -/
def Acceptor.Inside : Acceptor → Prop
  | pushing _ => True
  | unlocking => True
  | _ => False

structure Inv (n : Nat) (s : State) : Prop where
  workers : s.workers.length = if 3 ≤ s.start.rank then n else 0
  queues : s.conn_queues.length = if 4 ≤ s.start.rank then n else 0
  mutexes : s.conn_queue_mtxs.length = if s.start.rank = 5 then n else 0
  next_lt : s.next_worker < n
  quiet : s.start.rank ≤ 1 → s.acceptor = .notStarted
  outside : s.start.rank < 5 → ¬ s.acceptor.Inside
  idle : s.start.rank < 5 → ∀ w ∈ s.workers, w = .notStarted
  polls : s.start.rank = 0 ∨ ∀ j < n, Polls n s j
  served : ∀ client < s.accepted,
    s.acceptor.Holds client ∨ client ∈ s.taken ∨ ∃ q ∈ s.conn_queues, client ∈ q

section

variable {n i : Nat} {s s' : State} {k : State → Outcome} {l : List Nat → Outcome}

theorem Inv.init (hn : 0 < n) : Inv n State.init where
  workers := rfl
  queues := rfl
  mutexes := rfl
  next_lt := hn
  quiet := fun _ => rfl
  outside := fun _ h => h
  idle := fun _ _ hw => absurd hw List.not_mem_nil
  polls := .inl rfl
  served := fun c hc => absurd hc (Nat.not_lt_zero c)

theorem resize_nil {α : Type} (n : Nat) (x : α) : resize n [] x = List.replicate n x := by
  rw [resize, List.take_nil, List.nil_append, List.length_nil, Nat.sub_zero]

/-! ### The operations -/

/-- A mutex that exists is locked once it is free. -/
theorem lock_cases (hi : i < s.conn_queue_mtxs.length) :
    s.lock i k = .blocked ∨
    s.lock i k = k { s with conn_queue_mtxs := s.conn_queue_mtxs.set i true } := by
  rw [State.lock, List.getElem?_eq_getElem hi]
  cases s.conn_queue_mtxs[i] with
  | true => exact .inl rfl
  | false => exact .inr rfl

theorem unlock_eq (hi : i < s.conn_queue_mtxs.length) :
    s.unlock i k = k { s with conn_queue_mtxs := s.conn_queue_mtxs.set i false } := by
  rw [State.unlock, List.getElem?_eq_getElem hi]

theorem queue_eq (hi : i < s.conn_queues.length) : s.queue i l = l s.conn_queues[i] := by
  rw [State.queue, List.getElem?_eq_getElem hi]

/-! ### What the invariant does not see -/

theorem Inv.mutex (h : Inv n s) (locked : Bool) :
    Inv n { s with conn_queue_mtxs := s.conn_queue_mtxs.set i locked } :=
  { h with mutexes := (List.length_set ..).trans h.mutexes }

/-- A worker in its loop goes on. -/
theorem Inv.setWorker {w w' : Worker} (h : Inv n s) (hw : s.workers[i]? = some w)
    (hne : w ≠ .notStarted)
    (hne' : w' ≠ .notStarted) : Inv n (s.setWorker i w') := by
  have hrank : ¬ s.start.rank < 5 := fun hlt => hne (h.idle hlt w (List.mem_of_getElem? hw))
  refine { h with
    workers := (List.length_set ..).trans h.workers
    idle := fun hlt => absurd hlt hrank
    polls := h.polls.imp_right fun hpolls j hj => ?_ }
  refine (hpolls j hj).imp_left fun ⟨v, hv, hvne⟩ => ?_
  obtain ⟨hlen, -⟩ := List.getElem?_eq_some_iff.mp hw
  by_cases heq : i = j
  · subst heq
    exact ⟨w', List.getElem?_set_self hlen, hne'⟩
  · exact ⟨v, (List.getElem?_set_ne heq).trans hv, hvne⟩

/-- A worker in its loop has a queue and a mutex. -/
theorem Inv.worker_lt {w : Worker} (h : Inv n s) (hw : s.workers[i]? = some w)
    (hne : w ≠ .notStarted) :
    i < s.conn_queue_mtxs.length ∧ i < s.conn_queues.length := by
  have hrank : ¬ s.start.rank < 5 := fun hlt => hne (h.idle hlt w (List.mem_of_getElem? hw))
  have hle := s.start.rank_le
  obtain ⟨hlen, -⟩ := List.getElem?_eq_some_iff.mp hw
  rw [h.workers, if_pos (by omega)] at hlen
  rw [h.mutexes, h.queues, if_pos (by omega), if_pos (by omega)]
  exact ⟨hlen, hlen⟩

theorem Inv.next_worker_lt (h : Inv n s) (hrank : s.start.rank = 5) :
    s.next_worker < s.conn_queue_mtxs.length ∧ s.next_worker < s.conn_queues.length := by
  rw [h.mutexes, h.queues, if_pos hrank, if_pos (by omega)]
  exact ⟨h.next_lt, h.next_lt⟩

theorem Inv.inside_rank (h : Inv n s) (hin : s.acceptor.Inside) : s.start.rank = 5 := by
  have hle := s.start.rank_le
  have hlt : ¬ s.start.rank < 5 := fun hlt => h.outside hlt hin
  omega

/-- A client stays queued when one queue changes and keeps it. -/
theorem queued_set {queues : List (List Nat)} {q : List Nat} {client : Nat} (hi : i < queues.length)
    (hkeep : client ∈ queues[i] → client ∈ q) (h : ∃ q' ∈ queues, client ∈ q') :
    ∃ q' ∈ queues.set i q, client ∈ q' := by
  obtain ⟨q', hq', hclient⟩ := h
  obtain ⟨j, hj, rfl⟩ := List.getElem_of_mem hq'
  by_cases heq : i = j
  · subst heq
    exact ⟨q, List.mem_set hi q, hkeep hclient⟩
  · refine ⟨queues[j], ?_, hclient⟩
    exact List.mem_iff_getElem?.mpr ⟨j,
      (List.getElem?_set_ne heq).trans (List.getElem?_eq_getElem hj)⟩

/-! ### The steps -/

theorem Inv.start {ok : Bool} (h : Inv n s) (hstep : startStep n s ok = .next s') : Inv n s' := by
  obtain ⟨start, acceptor, next_worker, workers, conn_queues, conn_queue_mtxs, accepted, taken⟩ := s
  obtain ⟨hworkers, hqueues, hmutexes, hnext, hquiet, houtside, hidle, hpolls, hserved⟩ := h
  cases start with
  | openListener =>
    cases hstep
    cases ok with
    | true =>
      exact ⟨hworkers, hqueues, hmutexes, hnext, fun _ => hquiet (by simp [Start.rank]),
        fun _ => houtside (by simp [Start.rank]),
        fun _ => hidle (by simp [Start.rank]), .inr fun j hj => .inr hj, hserved⟩
    | false =>
      exact ⟨hworkers, hqueues, hmutexes, hnext, fun _ => hquiet (by simp [Start.rank]),
        fun _ => houtside (by simp [Start.rank]),
        fun _ => hidle (by simp [Start.rank]), .inl rfl, hserved⟩
  | startListener =>
    cases hstep
    obtain rfl : acceptor = .notStarted := hquiet (by simp [Start.rank])
    exact ⟨hworkers, hqueues, hmutexes, hnext, fun hle => absurd hle (by simp [Start.rank]),
      fun _ hin => hin,
      fun _ => hidle (by simp [Start.rank]), .inr fun j hj => .inr hj, hserved⟩
  | resizeWorkers =>
    cases hstep
    obtain rfl := List.eq_nil_of_length_eq_zero hworkers
    refine ⟨?_, hqueues, hmutexes, hnext, fun hle => absurd hle (by simp [Start.rank]),
      fun _ => houtside (by simp [Start.rank]),
      fun _ w hw => ?_, .inr fun j hj => .inr hj, hserved⟩
    · rw [resize_nil, List.length_replicate]
      rfl
    · rw [resize_nil] at hw
      exact List.eq_of_mem_replicate hw
  | resizeQueues =>
    cases hstep
    obtain rfl := List.eq_nil_of_length_eq_zero hqueues
    refine ⟨hworkers, ?_, hmutexes, hnext, fun hle => absurd hle (by simp [Start.rank]),
      fun _ => houtside (by simp [Start.rank]),
      fun _ => hidle (by simp [Start.rank]), .inr fun j hj => .inr hj, fun client hclient => ?_⟩
    · rw [resize_nil, List.length_replicate]
      rfl
    · -- nothing was queued yet
      refine (hserved client hclient).imp_right (Or.imp_right ?_)
      rintro ⟨q, hq, -⟩
      exact absurd hq List.not_mem_nil
  | resizeMutexes =>
    cases hstep
    obtain rfl := List.eq_nil_of_length_eq_zero hmutexes
    refine ⟨hworkers, hqueues, ?_, hnext, fun hle => absurd hle (by simp [Start.rank]),
      fun hlt => absurd hlt (by simp [Start.rank]), fun hlt => absurd hlt (by simp [Start.rank]),
      .inr fun j hj => .inr ⟨Nat.zero_le j, hj⟩, hserved⟩
    rw [resize_nil, List.length_replicate]
    rfl
  | startWorker i =>
    have hpolls := hpolls.resolve_left (by simp [Start.rank])
    dsimp only [startStep] at hstep
    split at hstep
    · next hnone =>
      cases hstep
      have hlen : n ≤ i :=
        Nat.le_trans (Nat.le_of_eq hworkers.symm) (List.getElem?_eq_none_iff.mp hnone)
      refine ⟨hworkers, hqueues, hmutexes, hnext, fun hle => absurd hle (by simp [Start.rank]),
        fun hlt => absurd hlt (by simp [Start.rank]), fun hlt => absurd hlt (by simp [Start.rank]),
        .inr fun j hj => .inl ?_, hserved⟩
      -- every worker was started
      rcases hpolls j hj with hstarted | ⟨hij, -⟩
      · exact hstarted
      · exact absurd (Nat.le_trans hlen hij) (Nat.not_le.mpr hj)
    · next w hw =>
      cases hstep
      obtain ⟨hlen, -⟩ := List.getElem?_eq_some_iff.mp hw
      refine ⟨(List.length_set ..).trans hworkers, hqueues, hmutexes, hnext,
        fun hle => absurd hle (by simp [Start.rank]), fun hlt => absurd hlt (by simp [Start.rank]),
        fun hlt => absurd hlt (by simp [Start.rank]), .inr fun j hj => ?_, hserved⟩
      by_cases heq : i = j
      · subst heq
        exact .inl ⟨.locking, List.getElem?_set_self hlen, by intro h; cases h⟩
      · rcases hpolls j hj with ⟨v, hv, hvne⟩ | ⟨hij, hjn⟩
        · exact .inl ⟨v, (List.getElem?_set_ne heq).trans hv, hvne⟩
        · exact .inr ⟨Nat.lt_of_le_of_ne hij heq, hjn⟩
  | started => cases hstep
  | failed => cases hstep

theorem Inv.accept {ok : Bool} (h : Inv n s) (hstep : acceptStep s ok = .next s') : Inv n s' := by
  unfold acceptStep at hstep
  split at hstep
  · next hacceptor =>
    have hrank : ¬ s.start.rank ≤ 1 := by
      intro hle
      have hquiet := h.quiet hle
      rw [hacceptor] at hquiet
      cases hquiet
    cases hstep
    cases ok with
    | true =>
      refine { h with
        quiet := fun hle => absurd hle hrank
        outside := fun _ hin => hin
        served := fun client hclient => ?_ }
      rcases Nat.lt_or_eq_of_le (Nat.le_of_lt_succ hclient) with hlt | rfl
      · have hold := h.served client hlt
        rw [hacceptor] at hold
        exact .inr (hold.resolve_left id)
      · exact .inl rfl
    | false =>
      refine { h with
        quiet := fun hle => absurd hle hrank
        outside := fun _ hin => hin
        served := fun client hclient => ?_ }
      have hold := h.served client hclient
      rw [hacceptor] at hold
      exact .inr (hold.resolve_left id)
  · cases hstep

theorem Inv.acceptor (h : Inv n s) (ht : Timely s .acceptor) (hstep : acceptorStep n s = .next s') :
    Inv n s' := by
  unfold acceptorStep at hstep
  split at hstep
  · next client hacceptor =>
    have hrank := ht ⟨client, hacceptor⟩
    rcases lock_cases (h.next_worker_lt hrank).1 with hlock | hlock
    · rw [hlock] at hstep
      cases hstep
    · rw [hlock] at hstep
      cases hstep
      refine { h.mutex true with
        quiet := fun hle => absurd (hrank ▸ hle) (by decide)
        outside := fun hlt => absurd (hrank ▸ hlt) (by decide)
        served := fun c hc => ?_ }
      have hold := h.served c hc
      rw [hacceptor] at hold
      exact hold
  · next client hacceptor =>
    have hrank := h.inside_rank (by rw [hacceptor]; trivial)
    have hlen := (h.next_worker_lt hrank).2
    rw [queue_eq hlen] at hstep
    cases hstep
    refine { h with
      queues := (List.length_set ..).trans h.queues
      quiet := fun hle => absurd (hrank ▸ hle) (by decide)
      outside := fun hlt => absurd (hrank ▸ hlt) (by decide)
      served := fun c hc => ?_ }
    -- the pushed client is on its queue now, the others are where they were
    rcases h.served c hc with hheld | htaken | hqueued
    · rw [hacceptor] at hheld
      refine .inr (.inr ⟨_, List.mem_set hlen _, ?_⟩)
      exact List.mem_append_right _ (List.mem_singleton.mpr hheld.symm)
    · exact .inr (.inl htaken)
    · exact .inr (.inr (queued_set hlen (List.mem_append_left _) hqueued))
  · next hacceptor =>
    have hrank := h.inside_rank (by rw [hacceptor]; trivial)
    rw [unlock_eq (h.next_worker_lt hrank).1] at hstep
    cases hstep
    refine { h.mutex false with
      next_lt := Nat.mod_lt _ (Nat.lt_of_le_of_lt (Nat.zero_le _) h.next_lt)
      quiet := fun hle => absurd (hrank ▸ hle) (by decide)
      outside := fun hlt => absurd (hrank ▸ hlt) (by decide)
      served := fun c hc => ?_ }
    have hold := h.served c hc
    rw [hacceptor] at hold
    exact hold
  · cases hstep

theorem Inv.worker (h : Inv n s) (hstep : workerStep s i = .next s') : Inv n s' := by
  unfold workerStep at hstep
  split at hstep
  · next hw =>
    have hne : Worker.locking ≠ .notStarted := by intro h; cases h
    rcases lock_cases (h.worker_lt hw hne).1 with hlock | hlock
    · rw [hlock] at hstep
      cases hstep
    · rw [hlock] at hstep
      cases hstep
      exact (h.mutex true).setWorker hw hne (by intro h; cases h)
  · next hw =>
    have hne : Worker.polling ≠ .notStarted := by intro h; cases h
    have hlen := (h.worker_lt hw hne).2
    rw [queue_eq hlen] at hstep
    split at hstep
    · cases hstep
      exact h.setWorker hw hne (by intro h; cases h)
    · next client rest hq =>
      cases hstep
      have hset := h.setWorker hw hne
        (show Worker.unlocking (some client) ≠ .notStarted by intro h; cases h)
      refine { hset with
        queues := (List.length_set ..).trans h.queues
        served := fun c hc => ?_ }
      rcases h.served c hc with hheld | htaken | hqueued
      · exact .inl hheld
      · exact .inr (.inl (List.mem_cons_of_mem _ htaken))
      · by_cases heq : c = client
        · exact .inr (.inl (heq ▸ List.mem_cons_self))
        · refine .inr (.inr (queued_set hlen (fun hmem => ?_) hqueued))
          rw [hq] at hmem
          exact (List.mem_cons.mp hmem).resolve_left heq
  · next client hw =>
    have hne : Worker.unlocking client ≠ .notStarted := by intro h; cases h
    rw [unlock_eq (h.worker_lt hw hne).1] at hstep
    cases hstep
    refine (h.mutex false).setWorker hw hne ?_
    cases client <;> (intro h; cases h)
  · next client hw =>
    cases hstep
    exact h.setWorker hw (by intro h; cases h) (by intro h; cases h)
  · cases hstep
  · cases hstep

theorem Inv.step {a : Action} (h : Inv n s) (ht : Timely s a) (hstep : step n s a = .next s') :
    Inv n s' := by
  cases a with
  | start ok => exact h.start hstep
  | accept ok => exact h.accept hstep
  | acceptor => exact h.acceptor ht hstep
  | worker i => exact h.worker hstep

theorem Run.inv (hn : 0 < n) (h : Run n Timely s) : Inv n s := by
  induction h with
  | init => exact Inv.init hn
  | step _ ht hstep ih => exact ih.step ht hstep

/-! ## Start-up -/

theorem startStep_no_fault (ok : Bool) : startStep n s ok ≠ .fault := by
  unfold startStep
  split
  case h_6 => split <;> (intro h; cases h)
  all_goals intro h; cases h

theorem acceptStep_no_fault (ok : Bool) : acceptStep s ok ≠ .fault := by
  unfold acceptStep
  split <;> (intro h; cases h)

theorem Inv.acceptor_no_fault (h : Inv n s) (ht : Timely s .acceptor) :
    acceptorStep n s ≠ .fault := by
  unfold acceptorStep
  split
  · next client hacceptor =>
    rcases lock_cases (h.next_worker_lt (ht ⟨client, hacceptor⟩)).1 with hlock | hlock <;>
      (rw [hlock]; intro h; cases h)
  · next client hacceptor =>
    have hrank := h.inside_rank (by rw [hacceptor]; trivial)
    rw [queue_eq (h.next_worker_lt hrank).2]
    intro h
    cases h
  · next hacceptor =>
    have hrank := h.inside_rank (by rw [hacceptor]; trivial)
    rw [unlock_eq (h.next_worker_lt hrank).1]
    intro h
    cases h
  · intro h
    cases h

theorem Inv.worker_no_fault (h : Inv n s) (i : Nat) : workerStep s i ≠ .fault := by
  unfold workerStep
  split
  · next hw =>
    rcases lock_cases (h.worker_lt hw (by intro h; cases h)).1 with hlock | hlock <;>
      (rw [hlock]; intro h; cases h)
  · next hw =>
    rw [queue_eq (h.worker_lt hw (by intro h; cases h)).2]
    split <;> (intro h; cases h)
  · next client hw =>
    rw [unlock_eq (h.worker_lt hw (by intro h; cases h)).1]
    intro h
    cases h
  all_goals intro h; cases h

/-- An index is out of bounds exactly if the condition is broken. -/
theorem Inv.no_fault_iff (h : Inv n s) (a : Action) : ServerStart.step n s a ≠ .fault ↔
    Timely s a := by
  cases a with
  | start ok => exact iff_of_true (startStep_no_fault ok) trivial
  | accept ok => exact iff_of_true (acceptStep_no_fault ok) trivial
  | acceptor =>
    refine ⟨fun hsafe hlocking => ?_, h.acceptor_no_fault⟩
    obtain ⟨client, hacceptor⟩ := hlocking
    by_contra hrank
    have hlen := h.mutexes
    rw [if_neg hrank] at hlen
    apply hsafe
    rw [ServerStart.step, acceptorStep, hacceptor]
    dsimp only
    rw [State.lock, List.getElem?_eq_none (by omega)]
  | worker i => exact iff_of_true (h.worker_no_fault i) trivial

theorem Inv.all_served (h : Inv n s) {client : Nat} (hclient : client < s.accepted) :
    Served n s client := by
  refine (h.served client hclient).imp_right (Or.imp_right ?_)
  rintro ⟨q, hq, hmem⟩
  obtain ⟨j, hj, rfl⟩ := List.getElem_of_mem hq
  have hlen := h.queues
  have hrank : 4 ≤ s.start.rank := by
    by_contra hlt
    rw [if_neg hlt] at hlen
    omega
  rw [if_pos hrank] at hlen
  exact ⟨j, _, List.getElem?_eq_getElem hj, hmem, h.polls.resolve_left (by omega) j (hlen ▸ hj)⟩

/-- **Start-up is safe** for clients that come at any time if
`accept_clients_loop` waits for the containers: in every state that is
reached so an index is out of bounds only if it does not, and each client
that was accepted is, or will be, on a queue of a worker. -/
theorem start_safe (hn : 0 < n) (hs : Run n Timely s) :
    (∀ a, step n s a ≠ .fault ↔ Timely s a) ∧ ∀ client < s.accepted, Served n s client :=
  ⟨(hs.inv hn).no_fault_iff, fun _ hclient => (hs.inv hn).all_served hclient⟩

end

theorem start_safe_one :
    ∃ s : State, s.accepted = 1 ∧ (∀ a, step 1 s a ≠ .fault ↔ Timely s a) ∧
      ∀ client < s.accepted, Served 1 s client := by
  have hstarted : Run 1 Timely ⟨.startWorker 1, .accepting, 0, [.locking], [[]], [false], 0, []⟩ :=
    .step (a := .start true) (.step (a := .start true) (.step (a := .start true)
      (.step (a := .start true) (.step (a := .start true) (.step (a := .start true) .init
        trivial rfl) trivial rfl) trivial rfl) trivial rfl) trivial rfl) trivial rfl
  have hclient : Run 1 Timely ⟨.startWorker 1, .pushing 0, 0, [.locking], [[]], [true], 1, []⟩ :=
    .step (a := .acceptor) (.step (a := .accept true) hstarted trivial rfl) (fun _ => rfl) rfl
  exact ⟨_, rfl, start_safe (by decide) hclient⟩

/-- A client that connects before the containers have their size makes
`accept_clients_loop` index an empty deque. -/
theorem early_client_faults :
    ¬ ∀ n > 0, ∀ s, Run n (fun _ _ => True) s → ∀ a, step n s a ≠ .fault := by
  intro hall
  have hrun : Run 1 (fun _ _ => True) ⟨.resizeWorkers, .locking 0, 0, [], [], [], 1, []⟩ :=
    .step (a := .accept true) (.step (a := .start true) (.step (a := .start true) .init
      trivial rfl) trivial rfl) trivial rfl
  exact hall 1 Nat.one_pos _ hrun .acceptor rfl

end SystemsProjects.Net.ServerStart
