import Mathlib.Algebra.Ring.Nat
import LogicRaft.Common.Codec
import LogicRaft.Raft.Log

/-!
# The state of a peer (`raft.go`, `persister.go`, `raft_persistence.go`, `raft_roleTrans.go`)

`Raft n α` is the state of one peer of a cluster of `n` peers with commands of type `α`. Each
function named `…Locked` in the source, and each handler, runs with `rf.mu` held from start to end,
so it is one function from state to state. The exceptions (`applicationTicker` and the send at the
end of `InstallSnapshot`) are cut where the source gives the lock up or blocks.

Clocks are left out: an election timeout may fire at any time. What `LOG` prints is left out.
Integers that the source never makes negative are natural numbers; `votedFor` keeps its `-1`.
-/

namespace LogicRaft

/-- In a cluster of two the peers are written as numerals. -/
instance neZeroTwo : NeZero 2 := ⟨by decide⟩

/-- In a cluster of three as well. -/
instance neZeroThree : NeZero 3 := ⟨by decide⟩

inductive Role
  | follower
  | candidate
  | leader
deriving DecidableEq, Repr

/-- What a peer keeps across crashes. -/
structure Persister where
  raftstate : Bytes := []
  snapshot : Bytes := []
deriving DecidableEq

/-- A message on `applyCh`. -/
structure ApplyMsg (α : Type) where
  commandValid : Bool := false
  command : Option α := none
  commandIndex : ℕ := 0
  snapshotValid : Bool := false
  snapshot : Bytes := []
  snapshotTerm : ℕ := 0
  snapshotIndex : ℕ := 0
deriving DecidableEq

/-- Where the loop of `applicationTicker` stands. -/
inductive Ticker (α : Type)
  /-- at the top of the loop, before `applyCond.Wait` -/
  | idle
  /-- asleep in `applyCond.Wait` -/
  | waiting
  /-- signalled, not yet holding the lock again -/
  | woken
  /-- in the send loop, without the lock; the first `sent` of the collected entries are sent -/
  | sending (entries : List (LogRecord α)) (sent : ℕ)
  /-- blocked in the send of the next message, which has been built -/
  | offering (entries : List (LogRecord α)) (sent : ℕ) (msg : ApplyMsg α)
deriving DecidableEq

/-- A batch in progress: the collected entries, how many of them are sent, and the message being
sent, if it is built. -/
structure Progress (α : Type) where
  entries : List (LogRecord α)
  sent : ℕ
  offer : Option (ApplyMsg α)

/-- How many messages of the batch have been built. -/
def Progress.built {α : Type} (x : Progress α) : ℕ :=
  if x.offer.isSome then x.sent + 1 else x.sent

def Ticker.progress {α : Type} : Ticker α → Option (Progress α)
  | .sending entries sent => some ⟨entries, sent, none⟩
  | .offering entries sent msg => some ⟨entries, sent, some msg⟩
  | _ => none

/-- `labgob` encodings of the three saved values. -/
class RaftGob (α : Type) where
  currentTerm : Codec ℕ
  votedFor : Codec ℤ
  log : Codec (Log α)

/-- Encodings of the saved values from an encoding of the commands. -/
@[reducible] def RaftGob.ofCodec {α : Type} (c : Codec α) : RaftGob α where
  currentTerm := Codec.nat
  votedFor := Codec.int
  log :=
    let record : Codec (LogRecord α) := (Codec.nat.prod (Codec.bool.prod c.option)).map
      (fun r => (r.term, r.commandValid, r.command)) (fun p => some ⟨p.1, p.2.1, p.2.2⟩)
      (fun _ => rfl)
    (Codec.nat.prod record.list).map (fun l => (l.base, l.records))
      (fun p => if h : p.2 ≠ [] then some ⟨p.2, p.1, h⟩ else none)
      (fun l => by simp [l.records_ne_nil])

/-- Natural numbers as commands, as the tests of the repository use them. -/
instance : RaftGob ℕ := RaftGob.ofCodec Codec.nat

/-- The state of a peer. -/
structure Raft (n : ℕ) (α : Type) where
  me : Fin n
  persister : Persister
  role : Role
  currentTerm : ℕ
  votedFor : ℤ
  log : Log α
  nextIndex : Fin n → ℕ
  matchIndex : Fin n → ℕ
  commitIndex : ℕ
  lastApplied : ℕ
  ticker : Ticker α

/-- What a function under the lock ends in: a result, or a Go panic with the state it leaves. -/
inductive Outcome (σ ρ : Type)
  | ok (state : σ) (result : ρ)
  | panic (state : σ)

namespace Raft

variable {n : ℕ} {α : Type}

def contextLostLocked (rf : Raft n α) (role : Role) (term : ℕ) : Prop :=
  ¬ (rf.currentTerm = term ∧ rf.role = role)

instance (rf : Raft n α) (role : Role) (term : ℕ) : Decidable (rf.contextLostLocked role term) :=
  inferInstanceAs (Decidable (¬ _))

/-- `rf.applyCond.Signal()`: wakes `applicationTicker` if it is asleep, is lost otherwise. -/
def signal (rf : Raft n α) : Raft n α :=
  match rf.ticker with
  | .waiting => { rf with ticker := .woken }
  | _ => rf

/-! ## Persistence -/

variable [RaftGob α]

/-- The bytes `persistLocked` writes. -/
def encodeState (currentTerm : ℕ) (votedFor : ℤ) (log : Log α) : Bytes :=
  (RaftGob.currentTerm α).encode currentTerm ++ ((RaftGob.votedFor α).encode votedFor ++
    RaftGob.log.encode log)

/-- `none` is a nil `snapshot`: the saved one is kept. -/
def persistLocked (rf : Raft n α) (snapshot : Option Bytes) : Raft n α :=
  let snapshot := snapshot.getD rf.persister.snapshot
  { rf with persister :=
      { raftstate := encodeState rf.currentTerm rf.votedFor rf.log, snapshot } }

/-- A decoding error ends the function and leaves what was read before it. -/
def readPersist (rf : Raft n α) (data : Bytes) : Raft n α :=
  if data.length < 1 then rf
  else match (RaftGob.currentTerm α).decode data with
    | none => rf
    | some (currentTerm, buf) =>
      let rf := { rf with currentTerm }
      match (RaftGob.votedFor α).decode buf with
      | none => rf
      | some (votedFor, buf) =>
        let rf := { rf with votedFor }
        match RaftGob.log.decode buf with
        | none => rf
        | some (log, _) => { rf with log }

/-- The state `Make` sets up before it reads the persister. -/
def initial (me : Fin n) (persister : Persister) : Raft n α where
  me
  persister
  role := .follower
  currentTerm := 1
  votedFor := -1
  log := Log.fresh 0 invalidTerm []
  nextIndex _ := 0
  matchIndex _ := 0
  commitIndex := 0
  lastApplied := 0
  ticker := .idle

def make (me : Fin n) (persister : Persister) : Raft n α :=
  let rf := (initial me persister).readPersist persister.raftstate
  if rf.log.base > 0 then
    { rf with commitIndex := rf.log.base, lastApplied := rf.log.base }
  else rf

/-! ## Role changes -/

def becomeFollowerLocked (rf : Raft n α) (term : ℕ) : Raft n α :=
  if term < rf.currentTerm then rf
  else
    let shouldPersist := term ≠ rf.currentTerm
    -- only a higher term clears the vote
    let votedFor := if term > rf.currentTerm then -1 else rf.votedFor
    let rf := { rf with votedFor, role := .follower, currentTerm := term }
    if shouldPersist then rf.persistLocked none else rf

def becomeCandidateLocked (rf : Raft n α) : Raft n α :=
  if rf.role = .leader then rf
  else
    { rf with
      role := .candidate
      currentTerm := rf.currentTerm + 1
      votedFor := (rf.me : ℕ) }.persistLocked none

omit [RaftGob α] in
def becomeLeaderLocked (rf : Raft n α) : Raft n α :=
  if rf.role ≠ .candidate then rf
  else
    { rf with
      role := .leader
      nextIndex := fun _ => rf.log.size
      matchIndex := fun _ => rf.log.base }

/-! ## The service interface -/

omit [RaftGob α] in
def getState (rf : Raft n α) : ℕ × Bool := (rf.currentTerm, rf.role = .leader)

/-- Returns the new state and `(index, term, isLeader)`. -/
def start (rf : Raft n α) (command : α) : Raft n α × ℕ × ℕ × Bool :=
  if rf.role ≠ .leader then (rf, 0, 0, false)
  else
    let rf := { rf with
      log := rf.log.append
        { term := rf.currentTerm, commandValid := true, command := some command } }
    let rf := rf.persistLocked none
    (rf, rf.log.size - 1, rf.currentTerm, true)

/-! ## What the role changes leave alone -/

section Frame

variable (rf : Raft n α)

omit [RaftGob α] in
theorem signal_eq : ∃ ticker, rf.signal = { rf with ticker } := by
  unfold signal
  split
  · exact ⟨_, rfl⟩
  · exact ⟨rf.ticker, rfl⟩

omit [RaftGob α] in
/-- A signal does not touch a batch in progress. -/
@[simp] theorem signal_progress : rf.signal.ticker.progress = rf.ticker.progress := by
  unfold signal
  split
  case h_1 h => rw [h]; rfl
  case h_2 => rfl

omit [RaftGob α] in
@[simp] theorem signal_me : rf.signal.me = rf.me := by
  obtain ⟨ticker, h⟩ := rf.signal_eq
  rw [h]

omit [RaftGob α] in
@[simp] theorem signal_role : rf.signal.role = rf.role := by
  obtain ⟨ticker, h⟩ := rf.signal_eq
  rw [h]

omit [RaftGob α] in
@[simp] theorem signal_currentTerm : rf.signal.currentTerm = rf.currentTerm := by
  obtain ⟨ticker, h⟩ := rf.signal_eq
  rw [h]

omit [RaftGob α] in
@[simp] theorem signal_log : rf.signal.log = rf.log := by
  obtain ⟨ticker, h⟩ := rf.signal_eq
  rw [h]

omit [RaftGob α] in
@[simp] theorem signal_nextIndex : rf.signal.nextIndex = rf.nextIndex := by
  obtain ⟨ticker, h⟩ := rf.signal_eq
  rw [h]

omit [RaftGob α] in
@[simp] theorem signal_matchIndex : rf.signal.matchIndex = rf.matchIndex := by
  obtain ⟨ticker, h⟩ := rf.signal_eq
  rw [h]

omit [RaftGob α] in
@[simp] theorem signal_commitIndex : rf.signal.commitIndex = rf.commitIndex := by
  obtain ⟨ticker, h⟩ := rf.signal_eq
  rw [h]

omit [RaftGob α] in
@[simp] theorem signal_lastApplied : rf.signal.lastApplied = rf.lastApplied := by
  obtain ⟨ticker, h⟩ := rf.signal_eq
  rw [h]

@[simp] theorem becomeFollowerLocked_me (t : ℕ) : (rf.becomeFollowerLocked t).me = rf.me := by
  unfold becomeFollowerLocked; dsimp only; split_ifs <;> rfl

@[simp] theorem becomeFollowerLocked_log (t : ℕ) : (rf.becomeFollowerLocked t).log = rf.log := by
  unfold becomeFollowerLocked; dsimp only; split_ifs <;> rfl

@[simp] theorem becomeFollowerLocked_nextIndex (t : ℕ) :
    (rf.becomeFollowerLocked t).nextIndex = rf.nextIndex := by
  unfold becomeFollowerLocked; dsimp only; split_ifs <;> rfl

@[simp] theorem becomeFollowerLocked_matchIndex (t : ℕ) :
    (rf.becomeFollowerLocked t).matchIndex = rf.matchIndex := by
  unfold becomeFollowerLocked; dsimp only; split_ifs <;> rfl

@[simp] theorem becomeFollowerLocked_commitIndex (t : ℕ) :
    (rf.becomeFollowerLocked t).commitIndex = rf.commitIndex := by
  unfold becomeFollowerLocked; dsimp only; split_ifs <;> rfl

@[simp] theorem becomeFollowerLocked_lastApplied (t : ℕ) :
    (rf.becomeFollowerLocked t).lastApplied = rf.lastApplied := by
  unfold becomeFollowerLocked; dsimp only; split_ifs <;> rfl

@[simp] theorem becomeFollowerLocked_ticker (t : ℕ) :
    (rf.becomeFollowerLocked t).ticker = rf.ticker := by
  unfold becomeFollowerLocked; dsimp only; split_ifs <;> rfl

@[simp] theorem becomeFollowerLocked_snapshot (t : ℕ) :
    (rf.becomeFollowerLocked t).persister.snapshot = rf.persister.snapshot := by
  unfold becomeFollowerLocked; dsimp only; split_ifs <;> rfl

theorem becomeCandidateLocked_of_ne (h : rf.role ≠ .leader) :
    rf.becomeCandidateLocked =
      { rf with
        role := .candidate
        currentTerm := rf.currentTerm + 1
        votedFor := (rf.me : ℕ) }.persistLocked none := by
  unfold becomeCandidateLocked; rw [if_neg h]

omit [RaftGob α] in
theorem becomeLeaderLocked_of_eq (h : rf.role = .candidate) :
    rf.becomeLeaderLocked =
      { rf with
        role := .leader
        nextIndex := fun _ => rf.log.size
        matchIndex := fun _ => rf.log.base } := by
  unfold becomeLeaderLocked; rw [if_neg (not_not.mpr h)]

/-- A lower term is ignored. -/
theorem becomeFollowerLocked_of_lt {t : ℕ} (h : t < rf.currentTerm) :
    rf.becomeFollowerLocked t = rf := by
  unfold becomeFollowerLocked; rw [if_pos h]

@[simp] theorem becomeFollowerLocked_currentTerm (t : ℕ) :
    (rf.becomeFollowerLocked t).currentTerm = max rf.currentTerm t := by
  by_cases h : t < rf.currentTerm
  · rw [becomeFollowerLocked_of_lt rf h, Nat.max_eq_left (by omega)]
  · rw [Nat.max_eq_right (by omega)]
    unfold becomeFollowerLocked
    dsimp only
    rw [if_neg h]
    split_ifs <;> rfl

@[simp] theorem becomeFollowerLocked_votedFor (t : ℕ) :
    (rf.becomeFollowerLocked t).votedFor = if rf.currentTerm < t then -1 else rf.votedFor := by
  unfold becomeFollowerLocked
  dsimp only
  split_ifs <;> first | rfl | omega

@[simp] theorem becomeFollowerLocked_role (t : ℕ) :
    (rf.becomeFollowerLocked t).role = if t < rf.currentTerm then rf.role else .follower := by
  unfold becomeFollowerLocked; dsimp only; split_ifs <;> rfl

/-- A peer that is still leader after it has seen a term has not changed. -/
theorem becomeFollowerLocked_of_leader {t : ℕ} (h : (rf.becomeFollowerLocked t).role = .leader) :
    rf.becomeFollowerLocked t = rf := by
  rw [becomeFollowerLocked_role] at h
  split at h
  case isTrue hlt => exact becomeFollowerLocked_of_lt rf hlt
  case isFalse => cases h

end Frame

end Raft

end LogicRaft
