/-
SystemsProjects.Net.StreamIntegrity — several receives on one connection.

A receive that runs out of time has taken the type, the size and part of
the bytes of a message off the stream, and nothing puts the stream back to
the start of a message. `KvServer::work_loop` closes a connection on which
a receive failed; `process_config_loop` goes on using its own.

`stream_intact` covers the runs in which no receive follows one that ran
out of time. `stream_misframed` is a run in which one does: the second
receive makes a message, and a response, of bytes from the middle of the
first message.
-/
import Mathlib.Data.List.Forall2
import Mathlib.Data.List.ReduceOption
import SystemsProjects.Net.Framing

namespace SystemsProjects.Net

open SystemsProjects.Base

/-! ## Runs of receives -/

/-- Successive receives from `inc`, each in a state that satisfies `guard`,
and their results. -/
inductive Calls {α : Type} (recv : Incoming → Except Stop (Option α × Incoming))
    (guard : Incoming → Prop) (inc : Incoming) : List (Option α) → Incoming → Prop
  | start : Calls recv guard inc [] inc
  | call {results : List (Option α)} {inc₁ inc₂ : Incoming} {result : Option α} :
    Calls recv guard inc results inc₁ → guard inc₁ → recv inc₁ = .ok (result, inc₂) →
    Calls recv guard inc (results ++ [result]) inc₂

/-- The bytes of a sequence of messages. -/
def frames (msgs : List Message) : List UInt8 := msgs.flatMap frame

/-- The receives that returned `true` yield the messages in the order they
were sent, the `i`-th receive no other than the `i`-th message. -/
structure Intact (msgs : List Message) (results : List (Option Message)) : Prop where
  inOrder : results.reduceOption <+: msgs
  attributed : ∀ (i : Nat) (msg : Message), results[i]? = some (some msg) → msgs[i]? = some msg

/-- What a run has done: received some messages, then perhaps nothing; it
stands at the start of a message or at the end, or has run out of time. -/
def Progress (env : RecvEnv) (msgs : List Message) (results : List (Option Message))
    (inc : Incoming) : Prop :=
  ∃ (received left : List Message) (failed : Nat), msgs = received ++ left ∧
    results = received.map some ++ List.replicate failed none ∧
    ((inc.unread = frames left ∧ (failed = 0 ∨ left = [])) ∨ ¬ InTime env messageTimeout inc)

theorem Progress.intact {env : RecvEnv} {msgs : List Message} {results : List (Option Message)}
    {inc : Incoming} (h : Progress env msgs results inc) : Intact msgs results := by
  obtain ⟨received, left, failed, rfl, rfl, -⟩ := h
  constructor
  · have hreduce : (received.map some ++ List.replicate failed none).reduceOption = received := by
      simp [List.reduceOption]
    rw [hreduce]
    exact List.prefix_append _ _
  · intro i msg hi
    rcases Nat.lt_or_ge i received.length with hlt | hge
    · rw [List.getElem?_append_left (by simpa using hlt), List.getElem?_map] at hi
      rw [List.getElem?_append_left hlt]
      simpa using hi
    · rw [List.getElem?_append_right (by simpa using hge)] at hi
      simp [List.getElem?_replicate] at hi

/-- A receive at the end of the stream fails and stays there. -/
theorem recv_message_end {env : RecvEnv} (henv : env.Arrives) {inc : Incoming}
    (hend : inc.unread = []) :
    ∃ inc', inc'.unread = [] ∧ recv_message env messageTimeout inc = .ok (none, inc') := by
  rcases recvPart_cases henv 0 (show 0 < 4 by omega) (by omega) inc with
    ⟨hle, -⟩ | ⟨hzero, -⟩ | ⟨-, inc', hempty, hpart⟩
  · rw [hend] at hle
    exact absurd hle (by decide)
  · exact absurd hzero (Nat.lt_irrefl 0)
  · exact ⟨inc', hempty, by rw [recv_message, if_neg (by decide), hpart]⟩

/-- One receive in time. -/
theorem Progress.step {env : RecvEnv} (henv : env.Arrives) {msgs : List Message}
    (hmsgs : ∀ msg ∈ msgs, msg.WellFormed) {results : List (Option Message)}
    {inc inc' : Incoming} {result : Option Message} (h : Progress env msgs results inc)
    (htime : InTime env messageTimeout inc)
    (hrecv : recv_message env messageTimeout inc = .ok (result, inc')) :
    Progress env msgs (results ++ [result]) inc' := by
  obtain ⟨received, left, failed, rfl, rfl, ⟨hunread, hleft⟩ | hlate⟩ := h
  · cases left with
    | nil =>
      obtain ⟨inc₁, hempty, hend⟩ := recv_message_end henv hunread
      rw [hend] at hrecv
      cases hrecv
      refine ⟨received, [], failed + 1, rfl, ?_, .inl ⟨hempty, .inr rfl⟩⟩
      rw [List.append_assoc, List.replicate_succ']
    | cons msg left =>
      obtain rfl : failed = 0 := hleft.resolve_right (List.cons_ne_nil _ _)
      have hwf : msg.WellFormed := hmsgs msg (by simp)
      rcases recv_message_frame henv (show 0 < messageTimeout by decide) hwf hunread with
        ⟨inc₁, hrest, hmessage⟩ | ⟨inc₁, hlate, hmessage⟩
      · rw [hmessage] at hrecv
        cases hrecv
        refine ⟨received ++ [msg], left, 0, ?_, ?_, .inl ⟨hrest, .inl rfl⟩⟩
        · rw [List.append_assoc, List.singleton_append]
        · simp
      · rw [hmessage] at hrecv
        cases hrecv
        refine ⟨received, msg :: left, 1, rfl, ?_, .inr hlate⟩
        simp
  · exact absurd htime hlate

theorem Calls.progress {env : RecvEnv} (henv : env.Arrives) {msgs : List Message}
    (hmsgs : ∀ msg ∈ msgs, msg.WellFormed) {results : List (Option Message)}
    {inc inc' : Incoming} (hunread : inc.unread = frames msgs)
    (h : Calls (recv_message env messageTimeout) (InTime env messageTimeout) inc results inc') :
    Progress env msgs results inc' := by
  induction h with
  | start => exact ⟨[], msgs, 0, rfl, rfl, .inl ⟨hunread, .inl rfl⟩⟩
  | call _ htime hrecv ih => exact ih.step henv hmsgs htime hrecv

/-! ## Responses -/

/-- A result of `recvItem` comes from a result of `recv_message`. -/
def BuiltFrom {α : Type} (deserialize : Message → Except Stop (Option α)) (item : Option α)
    (result : Option Message) : Prop :=
  item = none ∨ ∃ msg, result = some msg ∧ deserialize msg = .ok item

theorem recvItem_builtFrom {α : Type} {deserialize : Message → Except Stop (Option α)}
    {env : RecvEnv} {inc inc' : Incoming} {item : Option α}
    (h : recvItem deserialize env inc = .ok (item, inc')) :
    ∃ result, recv_message env messageTimeout inc = .ok (result, inc') ∧
      BuiltFrom deserialize item result := by
  unfold recvItem at h
  split at h
  · cases h
  · rename_i inc₁ hmessage
    cases h
    exact ⟨none, hmessage, .inl rfl⟩
  · rename_i msg inc₁ hmessage
    split at h
    · cases h
    · rename_i item' hitem
      cases h
      exact ⟨some msg, hmessage, .inr ⟨msg, rfl, hitem⟩⟩

/-- Receiving items is receiving messages and deserializing each. -/
theorem Calls.messages {α : Type} {deserialize : Message → Except Stop (Option α)}
    {env : RecvEnv} {guard : Incoming → Prop} {inc inc' : Incoming} {items : List (Option α)}
    (h : Calls (recvItem deserialize env) guard inc items inc') :
    ∃ results, Calls (recv_message env messageTimeout) guard inc results inc' ∧
      List.Forall₂ (BuiltFrom deserialize) items results := by
  induction h with
  | start => exact ⟨[], .start, .nil⟩
  | call _ hguard hrecv ih =>
    obtain ⟨results, hcalls, hbuilt⟩ := ih
    obtain ⟨result, hmessage, hitem⟩ := recvItem_builtFrom hrecv
    exact ⟨results ++ [result], hcalls.call hguard hmessage,
      List.rel_append hbuilt (.cons hitem .nil)⟩

/-- The `i`-th response is the one the `i`-th message carries. -/
def Answers (env : RecvEnv) (msgs : List Message) (responses : List (Option Response)) : Prop :=
  ∀ (i : Nat) (res : Response), responses[i]? = some (some res) →
    ∃ msg, msgs[i]? = some msg ∧ deserialize_response env msg = .ok (some res)

theorem Intact.answers {env : RecvEnv} {msgs : List Message} {results : List (Option Message)}
    {responses : List (Option Response)} (h : Intact msgs results)
    (hbuilt : List.Forall₂ (BuiltFrom (deserialize_response env)) responses results) :
    Answers env msgs responses := by
  intro i res hi
  obtain ⟨hlt, hres⟩ := List.getElem?_eq_some_iff.mp hi
  have hlt' : i < results.length := hbuilt.length_eq ▸ hlt
  have hitem := hbuilt.get hlt hlt'
  rw [List.get_eq_getElem, List.get_eq_getElem, hres] at hitem
  rcases hitem with hnone | ⟨msg, hmsg, hdecode⟩
  · cases hnone
  · refine ⟨msg, h.attributed i msg ?_, hdecode⟩
    rw [List.getElem?_eq_getElem hlt', hmsg]

/-- **Stream integrity**: on a stream of well-formed messages, as long as
no receive is made after one that ran out of time, the receives return the
messages in order, and each response is the one its message carries. -/
theorem stream_intact {env : RecvEnv} (henv : env.Arrives) {msgs : List Message}
    (hmsgs : ∀ msg ∈ msgs, msg.WellFormed) {inc : Incoming} (hunread : inc.unread = frames msgs) :
    (∀ results inc',
      Calls (recv_message env messageTimeout) (InTime env messageTimeout) inc results inc' →
        Intact msgs results) ∧
    ∀ responses inc',
      Calls (ServerConn.recv_response env) (InTime env messageTimeout) inc responses inc' →
        Answers env msgs responses := by
  constructor
  · intro results inc' h
    exact (h.progress henv hmsgs hunread).intact
  · intro responses inc' h
    obtain ⟨results, hcalls, hbuilt⟩ := h.messages
    exact (hcalls.progress henv hmsgs hunread).intact.answers hbuilt

/-- The response to a `Query`: one server, its name spelled like the header
of an empty message, and no shards. -/
def oneServer : Message :=
  ⟨MessageType.query.value, 24,
    [1, 0, 0, 0, 12, 0, 0, 0, 2, 0, 0, 0, 0, 0, 0, 0, 0, 0, 0, 0, 0, 0, 0, 0]⟩

theorem oneServer_wellFormed : ∀ msg ∈ [oneServer], msg.WellFormed := by
  intro msg hmsg
  obtain rfl := List.mem_singleton.mp hmsg
  exact ⟨rfl, by decide⟩

/-- The response to a `Join`. -/
def joined : Message := ⟨MessageType.join.value, 0, []⟩

theorem responses_wellFormed : ∀ msg ∈ [oneServer, joined], msg.WellFormed := by
  intro msg hmsg
  rcases List.mem_cons.mp hmsg with rfl | hmsg
  · exact oneServer_wellFormed oneServer (List.mem_singleton_self _)
  · obtain rfl := List.mem_singleton.mp hmsg
    exact ⟨rfl, by decide⟩

/-- Eight bytes at a time, 100 ms apart. -/
def prompt : RecvEnv := ⟨fun _ => .delivers 8, fun n => 100 * (n % 3), fun _ => true⟩

theorem prompt_inTime (inc : Incoming) : InTime prompt messageTimeout inc := by
  intro n _
  simp only [prompt, messageTimeout]
  omega

/-- Two receives in time, and a third at the end of the stream. -/
theorem stream_intact_two :
    ∃ inc', Calls (recv_message prompt messageTimeout) (InTime prompt messageTimeout)
        ⟨frames [oneServer, joined], 0, 0⟩ [some oneServer, some joined, none] inc' ∧
      inc'.checks = 3 ∧ Intact [oneServer, joined] [some oneServer, some joined, none] := by
  have hfirst : recv_message prompt messageTimeout ⟨frames [oneServer, joined], 0, 0⟩ =
      .ok (some oneServer, ⟨frame joined, 5, 3⟩) := rfl
  have hsecond : recv_message prompt messageTimeout ⟨frame joined, 5, 3⟩ =
      .ok (some joined, ⟨[], 7, 3⟩) := rfl
  have hthird : recv_message prompt messageTimeout ⟨[], 7, 3⟩ = .ok (none, ⟨[], 8, 3⟩) := rfl
  have hstart : Calls (recv_message prompt messageTimeout) (InTime prompt messageTimeout)
    ⟨frames [oneServer, joined], 0, 0⟩ [] ⟨frames [oneServer, joined], 0, 0⟩ := .start
  have hcalls := ((hstart.call (prompt_inTime _) hfirst).call (prompt_inTime _) hsecond).call
    (prompt_inTime _) hthird
  exact ⟨_, hcalls, rfl, (stream_intact (fun _ => ⟨8, rfl⟩) responses_wellFormed rfl).1 _ _ hcalls⟩

/-! ## A receive after one that ran out of time -/

/-- Eight bytes of a message arrive in time, the rest after 401 ms. -/
def stalled : RecvEnv :=
  ⟨fun _ => .delivers 8, fun n => if n = 0 then 0 else 401, fun _ => true⟩

/-- **A reused connection is misframed**: not every run of receives is
intact, and not every response answers its request. -/
theorem stream_misframed :
    ¬ ∀ (env : RecvEnv), env.Arrives → ∀ (msgs : List Message),
      (∀ msg ∈ msgs, msg.WellFormed) →
      (∀ results inc', Calls (recv_message env messageTimeout) (fun _ => True)
        ⟨frames msgs, 0, 0⟩ results inc' → Intact msgs results) ∧
      ∀ responses inc', Calls (ServerConn.recv_response env) (fun _ => True)
        ⟨frames msgs, 0, 0⟩ responses inc' → Answers env msgs responses := by
  intro hclaim
  have hfirst : ServerConn.recv_response stalled ⟨frames [oneServer], 0, 0⟩ =
      .ok (none, ⟨[2, 0, 0, 0, 0, 0, 0, 0, 0, 0, 0, 0, 0, 0, 0, 0], 3, 2⟩) := rfl
  have hsecond : ServerConn.recv_response stalled
      ⟨[2, 0, 0, 0, 0, 0, 0, 0, 0, 0, 0, 0, 0, 0, 0, 0], 3, 2⟩ =
      .ok (some .append, ⟨[0, 0, 0, 0], 5, 2⟩) := rfl
  have hstart : Calls (ServerConn.recv_response stalled) (fun _ => True)
    ⟨frames [oneServer], 0, 0⟩ [] ⟨frames [oneServer], 0, 0⟩ := .start
  have hcalls := (hstart.call trivial hfirst).call trivial hsecond
  have hanswers := (hclaim stalled
    (fun _ => ⟨8, rfl⟩) [oneServer] oneServer_wellFormed).2 _ _ hcalls
  obtain ⟨msg, hmsg, -⟩ := hanswers 1 .append rfl
  cases hmsg

end SystemsProjects.Net
