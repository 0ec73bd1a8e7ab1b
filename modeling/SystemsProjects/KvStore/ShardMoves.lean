/-
SystemsProjects.KvStore.ShardMoves — `StaticShardController::Move`
(shardcontroller/static_shardcontroller.cpp).

`Move` compares every requested shard with every shard of every server and
returns false at the first one of another granularity. A server that it is
done with has its shards replaced by `new_shards`, into which no case of
the `switch` inserts anything yet. After the first requested shard no
server has a shard left (`serverLoop_cases`), so a mismatch is found for the
first requested shard or not at all; the servers before it have lost
their shards by then (`move_leaves_alone_iff`).

The new configuration is given by the entries of `server_to_shards`. The
lines `Move` prints at its end are left out.
-/
import SystemsProjects.KvStore.ShardSplitting

namespace SystemsProjects.KvStore.ShardController

open SystemsProjects.Base
open SystemsProjects.Net (Shard MoveRequest ShardControllerConfig)
open SystemsProjects.KvStore.Sharding

/-! ## The source -/

/-- An entry of `server_to_shards`. -/
abbrev Entry := CppString × List Shard

/-- The loop over the shards of a server; it returns `new_shards`, or
`none` where `Move` returns false. -/
def currentLoop (moved_shards : Shard) : List Shard → List Shard →
    Except Fault (Option (List Shard))
  | [], new_shards => .ok (some new_shards)
  | current_shard :: rest, new_shards => do
    if (← granularity moved_shards) ≠ (← granularity current_shard) then
      return none
    match ← getOverlap current_shard moved_shards with
    | .noOverlap => currentLoop moved_shards rest new_shards
    | .overlapStart => currentLoop moved_shards rest new_shards
    | .overlapEnd => currentLoop moved_shards rest new_shards
    | .completelyContains => currentLoop moved_shards rest new_shards
    | .completelyContained => currentLoop moved_shards rest new_shards

/-- The loop over the servers: whether it came to its end, and the entries
then. -/
def serverLoop (moved_shards : Shard) : List Entry → Except Fault (Bool × List Entry)
  | [] => .ok (true, [])
  | (server, current_shards) :: rest => do
    match ← currentLoop moved_shards current_shards [] with
    | none => return (false, (server, current_shards) :: rest)
    | some new_shards =>
      let (done, rest) ← serverLoop moved_shards rest
      return (done, (server, new_shards) :: rest)

/-- The loop over the requested shards. -/
def requestLoop : List Shard → List Entry → Except Fault (Bool × List Entry)
  | [], entries => .ok (true, entries)
  | moved_shards :: rest, entries => do
    let (done, entries) ← serverLoop moved_shards entries
    if done then requestLoop rest entries else return (false, entries)

/-- `StaticShardController::Move`: what it returns, and the entries of
`server_to_shards` then. -/
def move (config : ShardControllerConfig) (req : MoveRequest) :
    Except Fault (Bool × List Entry) :=
  requestLoop req.shards config.server_to_shards.entries

/-! ## One server -/

/-- The granularities can be compared, and are equal. -/
structure SameGranularity (a b : Shard) : Prop where
  left : a.lower.length = a.upper.length
  right : b.lower.length = b.upper.length
  eq : a.lower.length = b.lower.length

/-- The granularities can be compared, and differ. -/
structure OtherGranularity (a b : Shard) : Prop where
  left : a.lower.length = a.upper.length
  right : b.lower.length = b.upper.length
  ne : a.lower.length ≠ b.lower.length

/-- The loop over these shards comes to its end. -/
def Passes (moved : Shard) (shards : List Shard) : Prop :=
  ∀ shard ∈ shards, SameGranularity moved shard

/-- The first of these shards that differs from the moved one has another
granularity. -/
def Rejects (moved : Shard) (shards : List Shard) : Prop :=
  ∃ before shard after, shards = before ++ shard :: after ∧ Passes moved before ∧
    OtherGranularity moved shard

section

variable {moved shard : Shard} {shards acc : List Shard} {entries after : List Entry}

/-- Some case of `get_overlap` applies to any two shards. -/
theorem exists_getOverlap (a b : Shard) : ∃ status, getOverlap a b = .ok status := by
  simp only [getOverlap, StrLe]
  by_cases hlower : a.lower < b.lower <;> by_cases hupper : b.upper < a.upper <;>
    simp only [hlower, hupper] <;> split <;> exact ⟨_, rfl⟩

/-- A round of the loop over the shards of a server. -/
theorem currentLoop_same (h : SameGranularity moved shard) :
    currentLoop moved (shard :: shards) acc = currentLoop moved shards acc := by
  obtain ⟨status, hstatus⟩ := exists_getOverlap shard moved
  have hleft : granularity moved = .ok moved.lower.length := by simp [granularity, assert, h.left]
  have hright : granularity shard = .ok moved.lower.length := by
    simp [granularity, assert, h.right, h.eq]
  rw [currentLoop, hleft, hright, ok_bind, ok_bind, if_neg (not_not_intro rfl), hstatus, ok_bind]
  cases status <;> rfl

theorem currentLoop_other (h : OtherGranularity moved shard) :
    currentLoop moved (shard :: shards) acc = .ok none := by
  have hleft : granularity moved = .ok moved.lower.length := by simp [granularity, assert, h.left]
  have hright : granularity shard = .ok shard.lower.length := by
    simp [granularity, assert, h.right]
  rw [currentLoop, hleft, hright, ok_bind, ok_bind, if_pos h.ne]
  rfl

theorem currentLoop_passes (h : Passes moved shards) (rest acc : List Shard) :
    currentLoop moved (shards ++ rest) acc = currentLoop moved rest acc := by
  induction shards with
  | nil => rfl
  | cons shard shards ih =>
    obtain ⟨hshard, hshards⟩ := List.forall_mem_cons.mp h
    rw [List.cons_append, currentLoop_same hshard, ih hshards]

theorem currentLoop_rejects (h : Rejects moved shards) :
    currentLoop moved shards acc = .ok none := by
  obtain ⟨before, shard, after, rfl, hbefore, hshard⟩ := h
  rw [currentLoop_passes hbefore, currentLoop_other hshard]

/-- Both ways the loop over the shards of a server returns. -/
theorem currentLoop_cases {result : Option (List Shard)}
    (h : currentLoop moved shards acc = .ok result) :
    (result = some acc ∧ Passes moved shards) ∨ (result = none ∧ Rejects moved shards) := by
  induction shards with
  | nil =>
    cases h
    exact .inl ⟨rfl, by simp [Passes]⟩
  | cons shard shards ih =>
    by_cases hleft : moved.lower.length = moved.upper.length
    · by_cases hright : shard.lower.length = shard.upper.length
      · by_cases heq : moved.lower.length = shard.lower.length
        · have hsame : SameGranularity moved shard := ⟨hleft, hright, heq⟩
          rw [currentLoop_same hsame] at h
          rcases ih h with ⟨rfl, hpasses⟩ | ⟨rfl, before, bad, after, rfl, hbefore, hbad⟩
          · exact .inl ⟨rfl, List.forall_mem_cons.mpr ⟨hsame, hpasses⟩⟩
          · exact .inr ⟨rfl, shard :: before, bad, after, rfl,
              List.forall_mem_cons.mpr ⟨hsame, hbefore⟩, hbad⟩
        · have hother : OtherGranularity moved shard := ⟨hleft, hright, heq⟩
          rw [currentLoop_other hother] at h
          cases h
          exact .inr ⟨rfl, [], shard, shards, rfl, by simp [Passes], hother⟩
      · simp [currentLoop, granularity, assert, hleft, hright] at h
    · simp [currentLoop, granularity, assert, hleft] at h

/-! ## All servers -/

/-- The servers without their shards. -/
def cleared (entries : List Entry) : List Entry := entries.map fun entry => (entry.1, [])

/-- `entries` are servers that pass, one that rejects the shard, and the
rest. -/
structure FirstRejection (moved : Shard) (entries before : List Entry) (server : CppString)
    (shards : List Shard) (rest : List Entry) : Prop where
  entries : entries = before ++ (server, shards) :: rest
  passes : ∀ entry ∈ before, Passes moved entry.2
  rejects : Rejects moved shards

theorem serverLoop_passes {before : List Entry} (h : ∀ entry ∈ before, Passes moved entry.2)
    (rest : List Entry) :
    serverLoop moved (before ++ rest) =
      (serverLoop moved rest).map fun result => (result.1, cleared before ++ result.2) := by
  induction before with
  | nil => cases hrest : serverLoop moved rest <;> simp [cleared, hrest, Except.map]
  | cons entry before ih =>
    obtain ⟨hentry, hbefore⟩ := List.forall_mem_cons.mp h
    have hcurrent := currentLoop_passes hentry [] []
    rw [List.append_nil] at hcurrent
    rw [List.cons_append, serverLoop, hcurrent, currentLoop, ok_bind, ih hbefore]
    cases serverLoop moved rest <;> rfl

/-- What the loop over the servers has done where it stops. -/
theorem FirstRejection.serverLoop_eq {before rest : List Entry} {server : CppString}
    (h : FirstRejection moved entries before server shards rest) :
    serverLoop moved entries = .ok (false, cleared before ++ (server, shards) :: rest) := by
  rw [h.entries, serverLoop_passes h.passes, serverLoop, currentLoop_rejects h.rejects]
  rfl

theorem cleared_eq_self (h : ∀ entry ∈ entries, entry.2 = []) : cleared entries = entries := by
  refine (List.map_congr_left fun entry hentry => ?_).trans (List.map_id entries)
  rw [← h entry hentry, id]

theorem cleared_empty : ∀ entry ∈ cleared entries, entry.2 = [] := by
  intro entry hentry
  obtain ⟨_, -, rfl⟩ := List.mem_map.mp hentry
  rfl

theorem serverLoop_all_pass (h : ∀ entry ∈ entries, Passes moved entry.2) :
    serverLoop moved entries = .ok (true, cleared entries) := by
  have hall := serverLoop_passes h []
  rwa [List.append_nil, serverLoop, Except.map, List.append_nil] at hall

theorem serverLoop_cleared (moved : Shard) (entries : List Entry) :
    serverLoop moved (cleared entries) = .ok (true, cleared entries) := by
  have hpass : ∀ entry ∈ cleared entries, Passes moved entry.2 := by
    intro entry hentry
    rw [cleared_empty entry hentry]
    exact List.forall_mem_nil _
  rw [serverLoop_all_pass hpass, cleared_eq_self cleared_empty]

/-- Both ways the loop over the servers returns. -/
theorem serverLoop_cases {done : Bool} (h : serverLoop moved entries = .ok (done, after)) :
    (done = true ∧ after = cleared entries) ∨
      ∃ before server shards rest, FirstRejection moved entries before server shards rest := by
  induction entries generalizing done after with
  | nil =>
    cases h
    exact .inl ⟨rfl, rfl⟩
  | cons entry entries ih =>
    obtain ⟨result, hcurrent, hrest⟩ := bind_eq_ok h
    rcases currentLoop_cases hcurrent with ⟨rfl, hpasses⟩ | ⟨-, hrejects⟩
    · obtain ⟨⟨done', after'⟩, hservers, hresult⟩ := bind_eq_ok hrest
      cases hresult
      rcases ih hservers with ⟨rfl, rfl⟩ | ⟨before, server, shards, rest, hfirst⟩
      · exact .inl ⟨rfl, rfl⟩
      · refine .inr ⟨entry :: before, server, shards, rest, ?_, ?_, hfirst.rejects⟩
        · rw [hfirst.entries, List.cons_append]
        · exact List.forall_mem_cons.mpr ⟨hpasses, hfirst.passes⟩
    · exact .inr ⟨[], entry.1, entry.2, entries, rfl, List.forall_mem_nil _, hrejects⟩

/-- Behind the first requested shard nothing is left to reject. -/
theorem requestLoop_cleared (reqs : List Shard) (entries : List Entry) :
    requestLoop reqs (cleared entries) = .ok (true, cleared entries) := by
  induction reqs with
  | nil => rfl
  | cons moved reqs ih =>
    rw [requestLoop, serverLoop_cleared, ok_bind]
    exact ih

/-! ## Rejected requests -/

/-- A call that returns false leaves `server_to_shards` as it was. -/
def LeavesAlone (config : ShardControllerConfig) (req : MoveRequest) : Prop :=
  ∀ after, move config req = .ok (false, after) → after = config.server_to_shards.entries

/-- The first requested shard is rejected at a server, and a server before
it holds a shard. -/
def RejectsLate (config : ShardControllerConfig) (req : MoveRequest) : Prop :=
  ∃ moved more before server shards rest, req.shards = moved :: more ∧
    FirstRejection moved config.server_to_shards.entries before server shards rest ∧
    ∃ entry ∈ before, entry.2 ≠ []

/-- What a rejected call leaves. -/
theorem FirstRejection.move_eq {config : ShardControllerConfig} {req : MoveRequest}
    {more : List Shard} {before rest : List Entry} {server : CppString}
    (hreq : req.shards = moved :: more)
    (h : FirstRejection moved config.server_to_shards.entries before server shards rest) :
    move config req = .ok (false, cleared before ++ (server, shards) :: rest) := by
  rw [move, hreq, requestLoop, h.serverLoop_eq]
  rfl

/-- A call returns false only if the first requested shard is rejected. -/
theorem move_false {config : ShardControllerConfig} {req : MoveRequest}
    (h : move config req = .ok (false, after)) :
    ∃ moved more before server shards rest, req.shards = moved :: more ∧
      FirstRejection moved config.server_to_shards.entries before server shards rest := by
  rw [move] at h
  cases hreq : req.shards with
  | nil =>
    rw [hreq] at h
    cases h
  | cons moved more =>
    rw [hreq] at h
    obtain ⟨⟨done, entries⟩, hservers, hmore⟩ := bind_eq_ok h
    rcases serverLoop_cases hservers with ⟨rfl, rfl⟩ | ⟨before, server, shards, rest, hfirst⟩
    · have hcleared := requestLoop_cleared more config.server_to_shards.entries
      have hdone : requestLoop more (cleared config.server_to_shards.entries) =
          .ok (false, after) := hmore
      rw [hcleared] at hdone
      cases hdone
    · exact ⟨moved, more, before, server, shards, rest, rfl, hfirst⟩

/-- **A rejected Move leaves the configuration alone** exactly if no server
in front of the one that rejects it holds a shard. -/
theorem move_leaves_alone_iff {config : ShardControllerConfig} {req : MoveRequest} :
    LeavesAlone config req ↔ ¬ RejectsLate config req := by
  constructor
  · rintro halone ⟨moved, more, before, server, shards, rest, hreq, hfirst, entry, hentry, hne⟩
    have hsame := halone _ (hfirst.move_eq hreq)
    rw [hfirst.entries] at hsame
    have hbefore : cleared before = before := List.append_inj_left hsame (by simp [cleared])
    rw [← hbefore] at hentry
    exact hne (cleared_empty entry hentry)
  · intro hearly after hfalse
    obtain ⟨moved, more, before, server, shards, rest, hreq, hfirst⟩ := move_false hfalse
    have hempty : ∀ entry ∈ before, entry.2 = [] := by
      intro entry hentry
      by_contra hne
      exact hearly ⟨moved, more, before, server, shards, rest, hreq, hfirst, entry, hentry, hne⟩
    have hmove := hfirst.move_eq hreq
    rw [hfalse, cleared_eq_self hempty, ← hfirst.entries] at hmove
    exact congrArg Prod.snd (Except.ok.inj hmove)

end

/-- The server `a` with the shard `[A, B]` and `b` with `[AA, AB]`. -/
def mixedConfig : ShardControllerConfig :=
  ⟨⟨[([97], [⟨[65], [66]⟩]), ([98], [⟨[65, 65], [65, 66]⟩])], by decide⟩⟩

/-- A request for `[A, A]` is rejected at `b`; `a` has lost its shard. -/
theorem move_clears_a :
    move mixedConfig ⟨[98], [⟨[65], [65]⟩]⟩ =
        .ok (false, [([97], []), ([98], [⟨[65, 65], [65, 66]⟩])]) ∧
      ¬ LeavesAlone mixedConfig ⟨[98], [⟨[65], [65]⟩]⟩ := by
  have hmove : move mixedConfig ⟨[98], [⟨[65], [65]⟩]⟩ =
      .ok (false, [([97], []), ([98], [⟨[65, 65], [65, 66]⟩])]) := rfl
  refine ⟨hmove, fun halone => ?_⟩
  have hsame := halone _ hmove
  simp [mixedConfig] at hsame

end SystemsProjects.KvStore.ShardController
