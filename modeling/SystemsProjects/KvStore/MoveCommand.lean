/-
SystemsProjects.KvStore.MoveCommand — the `move` command of the client
(client/cmd/movecommand.cpp), with `split`, `is_number` and `to_upper`
(common/utils.cpp) and `is_valid` (common/shard.cpp).

The loop over the bounds reads two tokens at a time and writes one slot of
a vector of half as many. It is `parsePairs` on the tokens behind the
address (`moveLoop_eq`), which accepts exactly the complete pairs
(`parsePairs_shards_iff`). The message about a bound without a partner is
printed, but nothing returns behind it: if the bounds before it are good
and the last one is valid, the loop reads the token that is not there
(`parsesSafely_iff`).

A read or a write outside a vector is a `Fault` here. `std::toupper` is
that of the C locale, for a negative `char` too.
-/
import SystemsProjects.KvStore.Shards

namespace SystemsProjects.KvStore.Sharding

open SystemsProjects.Base
open SystemsProjects.Net (Shard MoveRequest)

/-! ## The source -/

/-- `split`, with the item that `std::getline` has read so far. -/
def splitFrom (delim : UInt8) : CppString → CppString → List CppString
  | [], item => if item.isEmpty then [] else [item]
  | c :: rest, item =>
    if c = delim then
      if item.isEmpty then splitFrom delim rest [] else item :: splitFrom delim rest []
    else splitFrom delim rest (item ++ [c])

/-- `split`; the delimiter is `' '`. -/
def split (s : CppString) : List CppString := splitFrom 32 s []

/-- `std::isdigit`. -/
def isdigit (c : UInt8) : Bool := 48 ≤ c && c ≤ 57

def isNumber (s : CppString) : Bool := !s.isEmpty && s.all isdigit

def toUpper (s : CppString) : CppString := s.map toupper

def isValid (s : CppString) : Bool := s.all fun c => VALID_CHARS.contains (toupper c)

/-- `tokens[i]`. -/
def token (tokens : List CppString) (i : Nat) : Except Fault CppString :=
  match tokens[i]? with
  | some t => .ok t
  | none => .error .outOfRange

/-- `shards[i] = shard`. -/
def setShard (shards : List Shard) (i : Nat) (shard : Shard) : Except Fault (List Shard) :=
  if i < shards.length then .ok (shards.set i shard) else .error .outOfRange

def usage : String :=
  "Usage: move <address> <s1 lower> <s1 upper> ... <sn lower> <sn upper>"

def missingMessage : String := "Missing server address, or at least 1 shard. " ++ usage

def illFormedShardsMessage : String := "Ill-formed shards. " ++ usage

def illFormedAddressMessage : String := "Ill-formed address. " ++ usage

def invalidBoundsMessage : String :=
  "Invalid shard boundaries; valid characters (case-insensitive): " ++
    "\"0123456789ABCDEFGHIJKLMNOPQRSTUVWXYZ\"."

def granularityMessage : String :=
  "Invalid shard boundaries; must be same granularity. " ++ usage

def sendFailedMessage : String := "Failed to send Move request to shardcontroller."

/-- How the loop over the bounds ends: the function returns behind a
message, or all shards are there. -/
inductive Parsed where
  | refused (message : String)
  | shards (shards : List Shard)

/-- The loop over the bounds, with the values of `i` to come. -/
def moveLoop (tokens : List CppString) : List Nat → List Shard → Except Fault Parsed
  | [], shards => .ok (.shards shards)
  | i :: rest, shards => do
    let lower ← token tokens i
    -- the second bound is read only if the first one is valid
    let valid ← if isValid lower then isValid <$> token tokens (i + 1) else pure false
    if !valid then return .refused invalidBoundsMessage
    let upper ← token tokens (i + 1)
    if lower.length ≠ upper.length then return .refused granularityMessage
    let shards ← setShard shards (i / 2) ⟨toUpper lower, toUpper upper⟩
    moveLoop tokens rest shards

/-- What a call of `handle` prints and sends. -/
structure Handled where
  printed : List String
  sent : Option MoveRequest

/-- `MoveCommand::handle`; `move` is what the client's `Move` returns. -/
def handle (move : MoveRequest → Bool) (s : CppString) : Except Fault Handled := do
  let tokens := split s
  if tokens.length < 3 then return ⟨[missingMessage], none⟩
  -- no `return` behind this message
  let printed := if tokens.length % 2 = 0 then [illFormedShardsMessage] else []
  let address ← token tokens 0
  let idx := address.idxOf 58
  if idx = address.length ∨ !isNumber (address.drop (idx + 1)) then
    return ⟨printed ++ [illFormedAddressMessage], none⟩
  let slots := List.replicate ((tokens.length - 1) / 2) ⟨[], []⟩
  match ← moveLoop tokens (List.range' 1 (tokens.length / 2) 2) slots with
  | .refused message => return ⟨printed ++ [message], none⟩
  | .shards shards =>
    let req : MoveRequest := ⟨address, shards⟩
    return ⟨if move req then printed else printed ++ [sendFailedMessage], some req⟩

/-! ## What a line says -/

/-- `<hostname>:<port>`. -/
def IsAddress (address : CppString) : Prop :=
  ∃ host port, address = host ++ 58 :: port ∧ 58 ∉ host ∧ port ≠ [] ∧ ∀ c ∈ port, 48 ≤ c ∧ c ≤ 57

/-- A bound of a shard; its letters may have any case. -/
def IsBound (bound : CppString) : Prop := ∀ c ∈ bound, toupper c ∈ VALID_CHARS

structure IsPair (pair : CppString × CppString) : Prop where
  lower : IsBound pair.1
  upper : IsBound pair.2
  length : pair.1.length = pair.2.length

/-- The tokens of pairs of bounds. -/
def flatten (pairs : List (CppString × CppString)) : List CppString :=
  pairs.flatMap fun pair => [pair.1, pair.2]

def shardOfPair (pair : CppString × CppString) : Shard := ⟨toUpper pair.1, toUpper pair.2⟩

/-- The line is an address and complete pairs of bounds, one or more. -/
structure IsMove (s address : CppString) (pairs : List (CppString × CppString)) : Prop where
  tokens : split s = address :: flatten pairs
  nonempty : pairs ≠ []
  address : IsAddress address
  pairs : ∀ pair ∈ pairs, IsPair pair

/-- The line is an address, complete pairs of bounds, one or more, and a
last bound without a partner. -/
def Unpaired (s : CppString) : Prop :=
  ∃ address pairs last, split s = address :: (flatten pairs ++ [last]) ∧ pairs ≠ [] ∧
    IsAddress address ∧ (∀ pair ∈ pairs, IsPair pair) ∧ IsBound last

/-- The loop over the bounds on the tokens themselves. -/
def parsePairs : List CppString → Except Fault Parsed
  | [] => .ok (.shards [])
  | [last] => if isValid last then .error .outOfRange else .ok (.refused invalidBoundsMessage)
  | lower :: upper :: rest =>
    if !(isValid lower && isValid upper) then .ok (.refused invalidBoundsMessage)
    else if lower.length ≠ upper.length then .ok (.refused granularityMessage)
    else
      match parsePairs rest with
      | .ok (.shards shards) => .ok (.shards (⟨toUpper lower, toUpper upper⟩ :: shards))
      | .ok (.refused message) => .ok (.refused message)
      | .error fault => .error fault

/-! ## The tokens -/

section

variable {s t address port lower upper last : CppString} {pairs : List (CppString × CppString)}
  {tokens : List CppString}

theorem isNumber_iff : isNumber port = true ↔ port ≠ [] ∧ ∀ c ∈ port, 48 ≤ c ∧ c ≤ 57 := by
  simp [isNumber, isdigit]

theorem isValid_iff : isValid s = true ↔ IsBound s := by
  simp [isValid, IsBound]

theorem isAddress_iff : IsAddress address ↔
    address.idxOf 58 ≠ address.length ∧
      isNumber (address.drop (address.idxOf 58 + 1)) = true := by
  rw [isNumber_iff]
  constructor
  · rintro ⟨host, port, rfl, hhost, hport⟩
    have hidx : (host ++ 58 :: port).idxOf 58 = host.length := by
      rw [List.idxOf_append_of_notMem hhost, List.idxOf_cons_self, Nat.add_zero]
    have hdrop : (host ++ 58 :: port).drop (host.length + 1) = port := by simp
    rw [hidx, hdrop]
    exact ⟨by simp, hport⟩
  · rintro ⟨hidx, hport⟩
    have hlt : address.idxOf 58 < address.length := Nat.lt_of_le_of_ne List.idxOf_le_length hidx
    refine ⟨address.take (address.idxOf 58), address.drop (address.idxOf 58 + 1), ?_, ?_, hport⟩
    · conv_lhs => rw [← List.take_append_drop (address.idxOf 58) address,
        List.drop_eq_getElem_cons hlt, List.getElem_idxOf]
    · intro hmem
      have hin : (58 : UInt8) ∈ address := List.mem_of_mem_take hmem
      exact absurd ((List.mem_take_iff_idxOf_lt hin).mp hmem) (Nat.lt_irrefl _)

/-! ## The loop over the bounds -/

theorem token_append (pre : List CppString) (t : CppString) (post : List CppString) :
    token (pre ++ t :: post) pre.length = .ok t := by
  simp [token]

theorem token_end (tokens : List CppString) : token tokens tokens.length = .error .outOfRange := by
  simp [token]

theorem setShard_append (done : List Shard) (slot shard : Shard) (post : List Shard) :
    setShard (done ++ slot :: post) done.length shard = .ok (done ++ shard :: post) := by
  simp [setShard]

/-- What the loop returns if its remaining rounds return `parsed`. -/
def Parsed.after (done : List Shard) : Parsed → Parsed
  | .refused message => .refused message
  | .shards more => .shards (done ++ more)

/-- A round of the loop with both tokens there. -/
theorem moveLoop_round (pre rest : List CppString) (is : List Nat) (done slots : List Shard)
    (slot : Shard) (hpre : pre.length = 2 * done.length + 1) :
    moveLoop (pre ++ lower :: upper :: rest) (pre.length :: is) (done ++ slot :: slots) =
      if !(isValid lower && isValid upper) then .ok (.refused invalidBoundsMessage)
      else if lower.length ≠ upper.length then .ok (.refused granularityMessage)
      else moveLoop (pre ++ lower :: upper :: rest) is
        (done ++ ⟨toUpper lower, toUpper upper⟩ :: slots) := by
  have hlower := token_append pre lower (upper :: rest)
  have hupper := token_append (pre ++ [lower]) upper rest
  rw [List.append_assoc, List.singleton_append, List.length_append, List.length_singleton]
    at hupper
  have hslot : pre.length / 2 = done.length := by omega
  by_cases hl : isValid lower = true
  · by_cases hu : isValid upper = true
    · by_cases hlen : lower.length = upper.length
      · simp [moveLoop, hlower, hupper, hl, hu, hlen, hslot, setShard_append]
      · simp [moveLoop, hlower, hupper, hl, hu, hlen]
    · simp [moveLoop, hlower, hupper, hl, hu]
  · simp [moveLoop, hlower, hl]

/-- The loop from a token with an odd number on: `done` are the shards so
far, and every pair that may come still has its slot. -/
theorem moveLoop_eq (slot : Shard) : ∀ (rest pre : List CppString) (done : List Shard),
    pre.length = 2 * done.length + 1 →
    moveLoop (pre ++ rest) (List.range' pre.length ((rest.length + 1) / 2) 2)
        (done ++ List.replicate (rest.length / 2) slot) =
      (parsePairs rest).map (Parsed.after done)
  | [], pre, done, _ => by simp [moveLoop, parsePairs, Parsed.after, Except.map]
  | [last], pre, done, _ => by
    -- no partner: the second read is past the end
    have hlast := token_end (pre ++ [last])
    rw [List.length_append, List.length_singleton] at hlast
    by_cases hvalid : isValid last = true
    · simp [moveLoop, parsePairs, token_append, hvalid, hlast, Except.map]
    · simp [moveLoop, parsePairs, token_append, hvalid, Parsed.after, Except.map]
  | lower :: upper :: rest, pre, done, hpre => by
    have hrounds : ((lower :: upper :: rest).length + 1) / 2 = (rest.length + 1) / 2 + 1 := by
      simp only [List.length_cons]
      omega
    have hslots : (lower :: upper :: rest).length / 2 = rest.length / 2 + 1 := by
      simp only [List.length_cons]
      omega
    have hpre' : (pre ++ [lower, upper]).length = pre.length + 2 := by simp
    have hrest := moveLoop_eq slot rest (pre ++ [lower, upper])
      (done ++ [⟨toUpper lower, toUpper upper⟩]) (by simp [hpre]; omega)
    rw [hpre', List.append_assoc, List.append_assoc] at hrest
    simp only [List.cons_append, List.nil_append] at hrest
    rw [hrounds, hslots, List.range'_succ, List.replicate_succ,
      moveLoop_round pre rest _ done _ slot hpre, hrest, parsePairs]
    split
    · rfl
    · split
      · rfl
      · cases parsePairs rest with
        | error fault => rfl
        | ok parsed => cases parsed <;> simp [Parsed.after, Except.map]

/-! ## What the loop accepts -/

theorem parsePairs_flatten (h : ∀ pair ∈ pairs, IsPair pair) (rest : List CppString) :
    parsePairs (flatten pairs ++ rest) =
      (parsePairs rest).map (Parsed.after (pairs.map shardOfPair)) := by
  induction pairs with
  | nil =>
    rw [show flatten [] ++ rest = rest from rfl]
    cases parsePairs rest with
    | error fault => rfl
    | ok parsed => cases parsed <;> rfl
  | cons pair pairs ih =>
    obtain ⟨hpair, hpairs⟩ := List.forall_mem_cons.mp h
    have hl := isValid_iff.mpr hpair.lower
    have hu := isValid_iff.mpr hpair.upper
    have hstep :
        flatten (pair :: pairs) ++ rest = pair.1 :: pair.2 :: (flatten pairs ++ rest) := rfl
    rw [hstep, parsePairs, hl, hu, if_neg (by simp), if_neg (by simp [hpair.length]), ih hpairs]
    cases parsePairs rest with
    | error fault => rfl
    | ok parsed => cases parsed <;> rfl

theorem parsePairs_bad (rest : List CppString) (h : ¬ IsPair (lower, upper)) :
    ∃ message, parsePairs (lower :: upper :: rest) = .ok (.refused message) := by
  rw [parsePairs]
  split
  · exact ⟨_, rfl⟩
  · rename_i hvalid
    simp only [Bool.not_eq_true', Bool.not_eq_false, Bool.and_eq_true, isValid_iff] at hvalid
    have hlength : lower.length ≠ upper.length := fun heq => h ⟨hvalid.1, hvalid.2, heq⟩
    rw [if_pos hlength]
    exact ⟨_, rfl⟩

/-- The tokens are complete pairs up to the end, up to a last token, or up
to a pair that is none. -/
theorem exists_flatten : ∀ tokens : List CppString, ∃ pairs rest,
    tokens = flatten pairs ++ rest ∧ (∀ pair ∈ pairs, IsPair pair) ∧
      (rest = [] ∨ (∃ last, rest = [last]) ∨
        ∃ lower upper more, rest = lower :: upper :: more ∧ ¬ IsPair (lower, upper))
  | [] => ⟨[], [], rfl, by simp, .inl rfl⟩
  | [last] => ⟨[], [last], rfl, by simp, .inr (.inl ⟨last, rfl⟩)⟩
  | lower :: upper :: more => by
    by_cases hpair : IsPair (lower, upper)
    · obtain ⟨pairs, rest, rfl, hpairs, hrest⟩ := exists_flatten more
      exact ⟨(lower, upper) :: pairs, rest, rfl, List.forall_mem_cons.mpr ⟨hpair, hpairs⟩, hrest⟩
    · exact ⟨[], _, rfl, by simp, .inr (.inr ⟨lower, upper, more, rfl, hpair⟩)⟩

/-- The loop returns shards for complete pairs, and for nothing else. -/
theorem parsePairs_shards_iff {shards : List Shard} : parsePairs tokens = .ok (.shards shards) ↔
    ∃ pairs, tokens = flatten pairs ∧ (∀ pair ∈ pairs, IsPair pair) ∧
      shards = pairs.map shardOfPair := by
  constructor
  · intro h
    obtain ⟨pairs, rest, rfl, hpairs, rfl | ⟨last, rfl⟩ | ⟨lower, upper, more, rfl, hbad⟩⟩ :=
      exists_flatten tokens
    · rw [parsePairs_flatten hpairs] at h
      simp only [parsePairs, Except.map, Parsed.after, List.append_nil, Except.ok.injEq,
        Parsed.shards.injEq] at h
      exact ⟨pairs, List.append_nil _, hpairs, h.symm⟩
    · rw [parsePairs_flatten hpairs, parsePairs] at h
      split at h <;> cases h
    · obtain ⟨message, hmessage⟩ := parsePairs_bad more hbad
      rw [parsePairs_flatten hpairs, hmessage] at h
      cases h
  · rintro ⟨pairs, rfl, hpairs, rfl⟩
    have hparsed := parsePairs_flatten hpairs []
    rw [List.append_nil] at hparsed
    rw [hparsed]
    simp [parsePairs, Except.map, Parsed.after]

/-- It faults at a valid bound without a partner, and nowhere else. -/
theorem parsePairs_fault_iff {fault : Fault} : parsePairs tokens = .error fault ↔
    fault = .outOfRange ∧ ∃ pairs last, tokens = flatten pairs ++ [last] ∧
      (∀ pair ∈ pairs, IsPair pair) ∧ IsBound last := by
  constructor
  · intro h
    obtain ⟨pairs, rest, rfl, hpairs, rfl | ⟨last, rfl⟩ | ⟨lower, upper, more, rfl, hbad⟩⟩ :=
      exists_flatten tokens
    · rw [parsePairs_flatten hpairs] at h
      cases h
    · rw [parsePairs_flatten hpairs, parsePairs] at h
      split at h
      · rename_i hlast
        cases h
        exact ⟨rfl, pairs, last, rfl, hpairs, isValid_iff.mp hlast⟩
      · cases h
    · obtain ⟨message, hmessage⟩ := parsePairs_bad more hbad
      rw [parsePairs_flatten hpairs, hmessage] at h
      cases h
  · rintro ⟨rfl, pairs, last, rfl, hpairs, hlast⟩
    rw [parsePairs_flatten hpairs, parsePairs, if_pos (isValid_iff.mpr hlast)]
    rfl

/-! ## The command -/

/-- What `handle` does with the result of the loop. -/
def Parsed.handled (move : MoveRequest → Bool) (printed : List String) (address : CppString) :
    Parsed → Handled
  | .refused message => ⟨printed ++ [message], none⟩
  | .shards found =>
    ⟨if move ⟨address, found⟩ then printed else printed ++ [sendFailedMessage],
      some ⟨address, found⟩⟩

/-- The message about a partial shard, which does not stop the command. -/
def partialMessages (s : CppString) : List String :=
  if (split s).length % 2 = 0 then [illFormedShardsMessage] else []

variable {move : MoveRequest → Bool} {rest : List CppString}

theorem handle_few (h : (split s).length < 3) :
    handle move s = .ok ⟨[missingMessage], none⟩ := by
  simp [handle, h]

theorem handle_bad_address (hs : split s = address :: rest) (hlen : ¬ (split s).length < 3)
    (h : ¬ IsAddress address) :
    handle move s = .ok ⟨partialMessages s ++ [illFormedAddressMessage], none⟩ := by
  have haddress : address.idxOf 58 = address.length ∨
      (!isNumber (address.drop (address.idxOf 58 + 1))) = true := by
    by_cases hidx : address.idxOf 58 = address.length
    · exact .inl hidx
    · refine .inr ?_
      rw [Bool.not_eq_true', ← Bool.not_eq_true]
      exact fun hport => h (isAddress_iff.mpr ⟨hidx, hport⟩)
  have htoken : token (split s) 0 = .ok address := by simp [token, hs]
  rw [handle, if_neg hlen, htoken, ok_bind, if_pos haddress]
  rfl

theorem handle_parses (hs : split s = address :: rest) (hlen : ¬ (split s).length < 3)
    (h : IsAddress address) :
    handle move s = (parsePairs rest).map (Parsed.handled move (partialMessages s) address) := by
  obtain ⟨hidx, hport⟩ := isAddress_iff.mp h
  have haddress : ¬ (address.idxOf 58 = address.length ∨
      (!isNumber (address.drop (address.idxOf 58 + 1))) = true) := by
    rintro (heq | hnot)
    · exact hidx heq
    · rw [hport] at hnot
      cases hnot
  have htoken : token (split s) 0 = .ok address := by simp [token, hs]
  have hloop := moveLoop_eq ⟨[], []⟩ rest [address] [] rfl
  have hrounds : (split s).length / 2 = (rest.length + 1) / 2 := by rw [hs, List.length_cons]
  have hslots : ((split s).length - 1) / 2 = rest.length / 2 := by
    rw [hs, List.length_cons, Nat.add_sub_cancel]
  rw [handle, if_neg hlen, htoken, ok_bind, if_neg haddress, hrounds, hslots, partialMessages, hs]
  dsimp only
  rw [List.singleton_append, List.length_singleton, List.nil_append] at hloop
  rw [hloop]
  cases parsePairs rest with
  | error fault => rfl
  | ok parsed => cases parsed <;> rfl

theorem IsMove.enough (h : IsMove s address pairs) : ¬ (split s).length < 3 := by
  obtain ⟨pair, more, rfl⟩ := List.exists_cons_of_ne_nil h.nonempty
  rw [h.tokens]
  simp [flatten]

/-- Three tokens are needed, then an address, and then the bounds decide. -/
theorem handle_cases (move : MoveRequest → Bool) (s : CppString) :
    (∃ printed, handle move s = .ok ⟨printed, none⟩ ∧ ¬ Unpaired s ∧
      ∀ address pairs, ¬ IsMove s address pairs) ∨
    ∃ address rest, split s = address :: rest ∧ 2 ≤ rest.length ∧ IsAddress address ∧
      handle move s = (parsePairs rest).map (Parsed.handled move (partialMessages s) address) := by
  by_cases hlen : (split s).length < 3
  · refine .inl ⟨_, handle_few hlen, ?_, fun address pairs h => h.enough hlen⟩
    rintro ⟨address, pairs, last, htokens, hpairs, -⟩
    obtain ⟨pair, more, rfl⟩ := List.exists_cons_of_ne_nil hpairs
    rw [htokens] at hlen
    simp only [flatten, List.flatMap_cons, List.cons_append, List.length_cons] at hlen
    omega
  · obtain ⟨address, rest, htokens⟩ : ∃ address rest, split s = address :: rest :=
      List.exists_cons_of_ne_nil fun hnil => hlen (by rw [hnil]; decide)
    by_cases haddress : IsAddress address
    · rw [htokens, List.length_cons] at hlen
      refine .inr ⟨address, rest, htokens, by omega, haddress, handle_parses htokens ?_ haddress⟩
      rwa [htokens, List.length_cons]
    · refine .inl ⟨_, handle_bad_address htokens hlen haddress, ?_, ?_⟩
      · rintro ⟨address', pairs, last, htokens', -, haddress', -⟩
        obtain ⟨rfl, -⟩ := List.cons.inj (htokens.symm.trans htokens')
        exact haddress haddress'
      · intro address' pairs hmove
        obtain ⟨rfl, -⟩ := List.cons.inj (htokens.symm.trans hmove.tokens)
        exact haddress hmove.address

/-- An unpaired bound faults. -/
theorem Unpaired.handle_fault (h : Unpaired s) : handle move s = .error .outOfRange := by
  rcases handle_cases move s with ⟨-, -, hpaired, -⟩ | ⟨address, rest, htokens, -, -, hparse⟩
  · exact absurd h hpaired
  · obtain ⟨address', pairs, last, htokens', -, -, hpairs, hlast⟩ := h
    obtain ⟨rfl, rfl⟩ := List.cons.inj (htokens.symm.trans htokens')
    rw [hparse, parsePairs_fault_iff.mpr ⟨rfl, pairs, last, rfl, hpairs, hlast⟩]
    rfl

/-- Every index is in range, and a request is sent exactly for a line that
is one, with its pairs in upper case and in their order. -/
def ParsesSafely (move : MoveRequest → Bool) (s : CppString) : Prop :=
  ∃ handled, handle move s = .ok handled ∧ ∀ req, handled.sent = some req ↔
    ∃ address pairs, IsMove s address pairs ∧ req = ⟨address, pairs.map shardOfPair⟩

/-- **The `move` command is parsed safely** unless its last bound has no
partner. -/
theorem parsesSafely_iff : ParsesSafely move s ↔ ¬ Unpaired s := by
  constructor
  · rintro ⟨handled, hhandled, -⟩ hunpaired
    rw [hunpaired.handle_fault] at hhandled
    cases hhandled
  · intro hpaired
    rcases handle_cases move s with
      ⟨printed, hhandle, -, hnone⟩ | ⟨address, rest, htokens, hlen, haddress, hhandle⟩
    · refine ⟨_, hhandle, fun req => iff_of_false (by simp) ?_⟩
      rintro ⟨address, pairs, hmove, -⟩
      exact hnone address pairs hmove
    · cases hparse : parsePairs rest with
      | error fault =>
        obtain ⟨-, pairs, last, rfl, hpairs, hlast⟩ := parsePairs_fault_iff.mp hparse
        have hne : pairs ≠ [] := by
          rintro rfl
          simp [flatten] at hlen
        exact absurd ⟨address, pairs, last, htokens, hne, haddress, hpairs, hlast⟩ hpaired
      | ok parsed =>
        rw [hparse] at hhandle
        refine ⟨_, hhandle, fun req => ?_⟩
        cases parsed with
        | refused message =>
          refine iff_of_false (by simp [Parsed.handled]) ?_
          rintro ⟨address', pairs, hmove, -⟩
          obtain ⟨rfl, rfl⟩ := List.cons.inj (htokens.symm.trans hmove.tokens)
          rw [parsePairs_shards_iff.mpr ⟨pairs, rfl, hmove.pairs, rfl⟩] at hparse
          cases hparse
        | shards found =>
          obtain ⟨pairs, rfl, hpairs, rfl⟩ := parsePairs_shards_iff.mp hparse
          have hne : pairs ≠ [] := by
            rintro rfl
            simp [flatten] at hlen
          simp only [Parsed.handled, Option.some.injEq]
          constructor
          · rintro rfl
            exact ⟨address, pairs, ⟨htokens, hne, haddress, hpairs⟩, rfl⟩
          · rintro ⟨address', pairs', hmove, rfl⟩
            obtain ⟨rfl, hflat⟩ := List.cons.inj (htokens.symm.trans hmove.tokens)
            rw [hflat, parsePairs_shards_iff.mpr ⟨pairs', rfl, hmove.pairs, rfl⟩] at hparse
            rw [Parsed.shards.inj (Except.ok.inj hparse)]

/-- `a:1 A B C`. -/
theorem move_unpaired :
    ¬ ParsesSafely (fun _ => true) [97, 58, 49, 32, 65, 32, 66, 32, 67] := by
  have hunpaired : Unpaired [97, 58, 49, 32, 65, 32, 66, 32, 67] := by
    refine ⟨[97, 58, 49], [([65], [66])], [67], by decide, by simp, ?_, ?_, ?_⟩
    · exact ⟨[97], [49], rfl, by decide, by simp, by simp⟩
    · rintro pair hpair
      obtain rfl := List.mem_singleton.mp hpair
      exact ⟨isValid_iff.mp (by decide), isValid_iff.mp (by decide), rfl⟩
    · exact isValid_iff.mp (by decide)
  rintro ⟨handled, hhandled, -⟩
  rw [hunpaired.handle_fault] at hhandled
  cases hhandled

end

end SystemsProjects.KvStore.Sharding
