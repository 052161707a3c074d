import LogicRaft.Raft.State

/-!
# Leader election (`raft_election.go`)

`startElection` runs once per candidacy. It keeps a vote counter that the goroutines handling the
replies share; each runs `askVoteFromPeer` under the lock, possibly long after the election.
-/

namespace LogicRaft

structure RequestVoteArgs (n : ℕ) where
  term : ℕ
  candidateId : Fin n
  lastLogIndex : ℕ
  lastLogTerm : ℕ
deriving DecidableEq

structure RequestVoteReply where
  term : ℕ
  voteGranted : Bool
deriving DecidableEq

/-- One call of `startElection`: its parameter, whether the goroutine has run, and the counter its
reply handlers share. -/
structure Election where
  term : ℕ
  started : Bool := false
  votes : ℕ := 0
deriving DecidableEq

namespace Raft

variable {n : ℕ} {α : Type}

/-- Is this peer's log more up-to-date than the candidate's? -/
def isMoreUpToDateLocked (rf : Raft n α) (candidateTerm candidateIndex : ℕ) : Bool :=
  let lastTerm := rf.log.lastLogTerm
  let lastIndex := rf.log.size - 1
  if lastTerm ≠ candidateTerm then decide (lastTerm > candidateTerm)
  else decide (lastIndex > candidateIndex)

/-- The request `startElection` sends to every other peer. -/
def voteRequest (rf : Raft n α) : RequestVoteArgs n where
  term := rf.currentTerm
  candidateId := rf.me
  lastLogIndex := rf.log.size - 1
  lastLogTerm := rf.log.lastLogTerm

/-- The body of `startElection` under the lock: the counter after the loop (the candidate's own
vote) and the requests it starts, `none` if the context is lost. -/
def startElection (rf : Raft n α) (term : ℕ) : Option (ℕ × List (Fin n × RequestVoteArgs n)) :=
  if rf.contextLostLocked .candidate term then none
  else some (1, ((List.finRange n).filter (· ≠ rf.me)).map fun peer => (peer, rf.voteRequest))

variable [RaftGob α]

/-- The term alignment in `RequestVote`: only a higher term changes anything. -/
def alignTerm (rf : Raft n α) (term : ℕ) : Raft n α :=
  if term > rf.currentTerm then rf.becomeFollowerLocked term else rf

def requestVote (rf : Raft n α) (args : RequestVoteArgs n) : Raft n α × RequestVoteReply :=
  let reply : RequestVoteReply := { term := rf.currentTerm, voteGranted := false }
  if args.term < rf.currentTerm then (rf, reply)
  else
    let rf := rf.alignTerm args.term
    if rf.votedFor ≠ -1 then (rf, reply)
    else if rf.isMoreUpToDateLocked args.lastLogTerm args.lastLogIndex then (rf, reply)
    else
      ({ rf with votedFor := (args.candidateId : ℕ) }.persistLocked none,
        { reply with voteGranted := true })

/-- How `askVoteFromPeer` handles a reply: the new state, the new counter, and whether it starts a
`replicationTicker`. The context check compares `rf.currentTerm` with itself. -/
def askVoteFromPeer (rf : Raft n α) (votes : ℕ) (reply : RequestVoteReply) :
    Raft n α × ℕ × Bool :=
  if reply.term > rf.currentTerm then (rf.becomeFollowerLocked reply.term, votes, false)
  else if rf.contextLostLocked .candidate rf.currentTerm then (rf, votes, false)
  else
    let votes := if reply.voteGranted then votes + 1 else votes
    if votes > n / 2 then (rf.becomeLeaderLocked, votes, true) else (rf, votes, false)

/-! ## What the term alignment leaves alone -/

section Frame

variable (rf : Raft n α) (t : ℕ)

@[simp] theorem alignTerm_me : (rf.alignTerm t).me = rf.me := by
  unfold alignTerm; split_ifs <;> simp

@[simp] theorem alignTerm_log : (rf.alignTerm t).log = rf.log := by
  unfold alignTerm; split_ifs <;> simp

@[simp] theorem alignTerm_matchIndex : (rf.alignTerm t).matchIndex = rf.matchIndex := by
  unfold alignTerm; split_ifs <;> simp

@[simp] theorem alignTerm_commitIndex : (rf.alignTerm t).commitIndex = rf.commitIndex := by
  unfold alignTerm; split_ifs <;> simp

@[simp] theorem alignTerm_lastApplied : (rf.alignTerm t).lastApplied = rf.lastApplied := by
  unfold alignTerm; split_ifs <;> simp

@[simp] theorem alignTerm_ticker : (rf.alignTerm t).ticker = rf.ticker := by
  unfold alignTerm; split_ifs <;> simp

@[simp] theorem alignTerm_snapshot :
    (rf.alignTerm t).persister.snapshot = rf.persister.snapshot := by
  unfold alignTerm; split_ifs <;> simp

@[simp] theorem alignTerm_currentTerm :
    (rf.alignTerm t).currentTerm = max rf.currentTerm t := by
  unfold alignTerm
  split_ifs with h
  · simp
  · exact (Nat.max_eq_left (by omega)).symm

@[simp] theorem alignTerm_votedFor :
    (rf.alignTerm t).votedFor = if rf.currentTerm < t then -1 else rf.votedFor := by
  unfold alignTerm
  split_ifs with h
  · rw [becomeFollowerLocked_votedFor, if_pos h]
  · rfl

@[simp] theorem alignTerm_role :
    (rf.alignTerm t).role = if rf.currentTerm < t then .follower else rf.role := by
  unfold alignTerm
  split_ifs with h
  · rw [becomeFollowerLocked_role, if_neg (by omega)]
  · rfl

theorem alignTerm_of_leader (h : (rf.alignTerm t).role = .leader) : rf.alignTerm t = rf := by
  unfold alignTerm at h ⊢
  split at h
  case isTrue hgt =>
    rw [if_pos hgt]
    exact becomeFollowerLocked_of_leader rf h
  case isFalse hle => rw [if_neg hle]

end Frame

end Raft

end LogicRaft
