import Mathlib.Data.List.Sort
import LogicRaft.Raft.State

/-!
# Log replication (`raft_replication.go`, `raft_snapshot.go`)

A round of `startReplication` builds one request per follower: the records from `nextIndex` on, or
the snapshot when they are compacted away. `replicateToPeer` and `snapshotToPeer` handle the replies
with the arguments and the term of the round that sent the request.

Here the records of a request are values. In the source they are a slice of the array of the log,
which is encoded after the round; `Cluster.SharedLog` has that array, and what the encoder finds in
it.
-/

namespace LogicRaft

structure AppendEntriesArgs (n : ℕ) (α : Type) where
  term : ℕ
  leaderId : Fin n
  prevLogIndex : ℕ
  prevLogTerm : ℕ
  entries : List (LogRecord α)
  leaderCommit : ℕ
deriving DecidableEq

structure AppendEntriesReply where
  term : ℕ
  success : Bool := false
  conflictIndex : ℕ := 0
  conflictTerm : ℕ := 0
deriving DecidableEq

/-- `Offset` and `Done` are constants in the source and never read. -/
structure InstallSnapshotArgs (n : ℕ) where
  term : ℕ
  leaderId : Fin n
  lastIncludedIndex : ℕ
  lastIncludedTerm : ℕ
  data : Bytes
deriving DecidableEq

structure InstallSnapshotReply where
  term : ℕ
deriving DecidableEq

/-- The two requests of a replication round. -/
inductive ReplicationRequest (n : ℕ) (α : Type)
  | append (args : AppendEntriesArgs n α)
  | snapshot (args : InstallSnapshotArgs n)
deriving DecidableEq

namespace Raft

variable {n : ℕ} {α : Type}

/-! ## The leader's side -/

/-- The request for `peer` in a replication round; `none` where `log.get` panics. `prevIdx` is `-1`
when `nextIndex` is `0`. `entries` is what the slice of the log holds when the round builds the
request; the slice itself is `Packet.reading`. -/
def replicationRequest (rf : Raft n α) (peer : Fin n) : Option (ReplicationRequest n α) :=
  let prevIdx : ℤ := (rf.nextIndex peer : ℤ) - 1
  if prevIdx < rf.log.base then
    some (.snapshot
      { term := rf.currentTerm
        leaderId := rf.me
        lastIncludedIndex := rf.log.base
        lastIncludedTerm := rf.log.baseTerm
        data := rf.persister.snapshot })
  else
    (rf.log.get prevIdx.toNat).map fun prev => .append
      { term := rf.currentTerm
        leaderId := rf.me
        prevLogIndex := prevIdx.toNat
        prevLogTerm := prev.term
        entries := rf.log.suffixFrom (prevIdx.toNat + 1)
        leaderCommit := rf.commitIndex }

/-- An append request carries everything after a record of the log. -/
theorem replicationRequest_append {rf : Raft n α} {q : Fin n} {args : AppendEntriesArgs n α}
    (h : rf.replicationRequest q = some (.append args)) :
    ∃ prev, rf.log.get args.prevLogIndex = some prev ∧ args.prevLogTerm = prev.term ∧
      args.entries = rf.log.suffixFrom (args.prevLogIndex + 1) ∧ args.term = rf.currentTerm ∧
      args.leaderCommit = rf.commitIndex ∧ args.leaderId = rf.me := by
  unfold replicationRequest at h
  dsimp only at h
  split at h
  case isTrue => cases h
  case isFalse =>
    obtain ⟨prev, hprev, heq⟩ := Option.map_eq_some_iff.mp h
    obtain rfl := ReplicationRequest.append.inj heq
    exact ⟨prev, hprev, rfl, rfl, rfl, rfl, rfl⟩

/-- Read at absolute indices, the entries of an append request are the rest of the log. -/
theorem replicationRequest_entries {rf : Raft n α} {q : Fin n} {args : AppendEntriesArgs n α}
    (h : rf.replicationRequest q = some (.append args)) :
    rf.log.base ≤ args.prevLogIndex ∧ args.prevLogIndex + 1 + args.entries.length = rf.log.size ∧
      ∀ k, args.prevLogIndex < k → args.entries[k - (args.prevLogIndex + 1)]? = rf.log.get k := by
  obtain ⟨prev, hprev, -, hentries, -⟩ := replicationRequest_append h
  obtain ⟨hbase, hsize⟩ := Log.bounds_of_get hprev
  refine ⟨hbase, ?_, fun k hk => ?_⟩
  · rw [hentries, Log.length_suffixFrom _ (by omega)]
    omega
  · rw [hentries, Log.getElem?_suffixFrom _ (by omega)]
    congr 1
    omega

/-- A snapshot request names the placeholder of the log and carries the saved snapshot. -/
theorem replicationRequest_snapshot {rf : Raft n α} {q : Fin n} {args : InstallSnapshotArgs n}
    (h : rf.replicationRequest q = some (.snapshot args)) :
    args.term = rf.currentTerm ∧ args.lastIncludedIndex = rf.log.base ∧
      args.lastIncludedTerm = rf.log.baseTerm ∧ args.data = rf.persister.snapshot := by
  unfold replicationRequest at h
  dsimp only at h
  split at h
  case isTrue =>
    obtain rfl := ReplicationRequest.snapshot.inj (Option.some.inj h)
    exact ⟨rfl, rfl, rfl, rfl⟩
  case isFalse =>
    obtain ⟨prev, -, heq⟩ := Option.map_eq_some_iff.mp h
    cases heq

/-- A snapshot is sent when the next record for the peer is compacted away. -/
theorem nextIndex_le_of_snapshot {rf : Raft n α} {q : Fin n} {args : InstallSnapshotArgs n}
    (h : rf.replicationRequest q = some (.snapshot args)) : rf.nextIndex q ≤ rf.log.base := by
  unfold replicationRequest at h
  dsimp only at h
  split at h
  case isTrue hlt => omega
  case isFalse =>
    obtain ⟨prev, -, heq⟩ := Option.map_eq_some_iff.mp h
    cases heq

/-- The loop of `startReplication` over the remaining peers. -/
def replicationLoop :
    List (Fin n) → Raft n α → Option (Raft n α × List (Fin n × ReplicationRequest n α))
  | [], rf => some (rf, [])
  | peer :: rest, rf =>
    if peer = rf.me then
      replicationLoop rest
        { rf with
          matchIndex := Function.update rf.matchIndex peer (rf.log.size - 1)
          nextIndex := Function.update rf.nextIndex peer rf.log.size }
    else
      (rf.replicationRequest peer).bind fun request =>
        (replicationLoop rest rf).map fun p => (p.1, (peer, request) :: p.2)

/-- `none` is the return value `false`: the context is lost and the ticker stops. -/
def startReplication (rf : Raft n α) (term : ℕ) :
    Outcome (Raft n α) (Option (List (Fin n × ReplicationRequest n α))) :=
  if rf.contextLostLocked .leader term then .ok rf none
  else match replicationLoop (List.finRange n) rf with
    | none => .panic rf
    | some (rf, requests) => .ok rf (some requests)

/-- `sort.Ints` on a copy of `matchIndex`, then the entry at `(n-1)/2`. -/
def getMajorityIndexLocked (rf : Raft n α) : ℕ :=
  ((List.ofFn rf.matchIndex).insertionSort (· ≤ ·)).getD ((n - 1) / 2) 0

/-- Record that `peer` holds everything up to absolute index `matched`. -/
def recordMatch (rf : Raft n α) (peer : Fin n) (matched : ℕ) : Raft n α :=
  { rf with
    matchIndex := Function.update rf.matchIndex peer matched
    nextIndex := Function.update rf.nextIndex peer (matched + 1) }

@[simp] theorem recordMatch_matchIndex_self (rf : Raft n α) (peer : Fin n) (matched : ℕ) :
    (rf.recordMatch peer matched).matchIndex peer = matched := Function.update_self _ _ _

theorem recordMatch_matchIndex_of_ne (rf : Raft n α) {peer q : Fin n} (matched : ℕ)
    (h : q ≠ peer) : (rf.recordMatch peer matched).matchIndex q = rf.matchIndex q :=
  Function.update_of_ne h _ _

variable [RaftGob α]

omit [RaftGob α] in
/-- The new `nextIndex` of a follower that rejected a request. -/
def conflictNext (rf : Raft n α) (peer : Fin n) (reply : AppendEntriesReply) : ℕ :=
  let prevNext := rf.nextIndex peer
  let next :=
    if reply.conflictTerm = invalidTerm then reply.conflictIndex
    else
      let firstTermIndex := rf.log.firstLogFor reply.conflictTerm
      if firstTermIndex ≠ invalidIndex then firstTermIndex else reply.conflictIndex
  if next > prevNext then prevNext else next

omit [RaftGob α] in
theorem conflictNext_le (rf : Raft n α) (peer : Fin n) (reply : AppendEntriesReply) :
    rf.conflictNext peer reply ≤ rf.nextIndex peer := by
  have hcap : ∀ next cap : ℕ, (if next > cap then cap else next) ≤ cap := by
    intro next cap
    split <;> omega
  exact hcap _ _

omit [RaftGob α] in
theorem conflictNext_pos (rf : Raft n α) {peer : Fin n} {reply : AppendEntriesReply}
    (hnext : 1 ≤ rf.nextIndex peer) (hconflict : 1 ≤ reply.conflictIndex) :
    1 ≤ rf.conflictNext peer reply := by
  have hcap : ∀ next cap : ℕ, 1 ≤ next → 1 ≤ cap → 1 ≤ if next > cap then cap else next := by
    intro next cap hn hc
    split <;> assumption
  refine hcap _ _ ?_ hnext
  split
  · exact hconflict
  · dsimp only
    split
    case isTrue hne => exact Nat.pos_of_ne_zero hne
    case isFalse => exact hconflict

/-- How `replicateToPeer` handles a reply. -/
def replicateToPeer (rf : Raft n α) (peer : Fin n) (args : AppendEntriesArgs n α) (term : ℕ)
    (reply : AppendEntriesReply) : Outcome (Raft n α) Unit :=
  if reply.term > rf.currentTerm then .ok (rf.becomeFollowerLocked reply.term) ()
  else if rf.contextLostLocked .leader term then .ok rf ()
  else if !reply.success then
    .ok { rf with nextIndex := Function.update rf.nextIndex peer (rf.conflictNext peer reply) } ()
  else
    let rf := rf.recordMatch peer (args.prevLogIndex + args.entries.length)
    let majorityMatched := rf.getMajorityIndexLocked
    if majorityMatched > rf.commitIndex then
      match rf.log.get majorityMatched with
      | none => .panic rf
      | some record =>
        if record.term = rf.currentTerm then
          .ok { rf with commitIndex := majorityMatched }.signal ()
        else .ok rf ()
    else .ok rf ()

/-- How `snapshotToPeer` handles a reply. -/
def snapshotToPeer (rf : Raft n α) (peer : Fin n) (args : InstallSnapshotArgs n)
    (reply : InstallSnapshotReply) : Raft n α :=
  if reply.term > rf.currentTerm then rf.becomeFollowerLocked reply.term
  else rf.recordMatch peer args.lastIncludedIndex

/-! ## The follower's side -/

/-- What `AppendEntries` does once the consistency check has passed. -/
def acceptEntries (rf : Raft n α) (args : AppendEntriesArgs n α) : Raft n α :=
  let rf := { rf with log := rf.log.spliceAfter args.prevLogIndex args.entries }
  let rf := rf.persistLocked none
  if args.leaderCommit > rf.commitIndex then { rf with commitIndex := args.leaderCommit }.signal
  else rf

def appendEntries (rf : Raft n α) (args : AppendEntriesArgs n α) :
    Outcome (Raft n α) AppendEntriesReply :=
  let reply : AppendEntriesReply := { term := rf.currentTerm }
  if args.term < rf.currentTerm then .ok rf reply
  else
    let rf := rf.becomeFollowerLocked args.term
    if args.prevLogIndex ≥ rf.log.size then
      .ok rf { reply with conflictTerm := invalidTerm, conflictIndex := rf.log.size }
    else match rf.log.get args.prevLogIndex with
      | none => .panic rf
      | some prev =>
        if prev.term ≠ args.prevLogTerm then
          .ok rf { reply with
            conflictTerm := prev.term, conflictIndex := rf.log.firstLogFor prev.term }
        else .ok (rf.acceptEntries args) { reply with success := true }

/-! ## Snapshots -/

/-- `Snapshot`, `none` where `log.get` panics. The loop over `i > index` copies the records after
`index`. A nil `data` keeps the saved snapshot. -/
def snapshot (rf : Raft n α) (index : ℕ) (data : Option Bytes) : Option (Raft n α) :=
  if index > rf.commitIndex ∨ index < rf.log.base then some rf
  else (rf.log.get index).map fun last =>
    { rf with log := Log.fresh index last.term (rf.log.suffixFrom (index + 1)) }.persistLocked data

/-- What `InstallSnapshot` does to the state with a snapshot ahead of `log.Base`. An empty `Data`
arrives as a nil slice. -/
def adoptSnapshot (rf : Raft n α) (args : InstallSnapshotArgs n) : Raft n α :=
  { rf with
    log := Log.fresh args.lastIncludedIndex args.lastIncludedTerm
      (rf.log.suffixFrom (args.lastIncludedIndex + 1))
    commitIndex :=
      if args.lastIncludedIndex > rf.commitIndex then args.lastIncludedIndex else rf.commitIndex
    lastApplied :=
      if args.lastIncludedIndex > rf.lastApplied then args.lastIncludedIndex
      else rf.lastApplied }.persistLocked (if args.data = [] then none else some args.data)

/-- The entries are in the log, saved, and the commit index is raised to the leader's. -/
theorem acceptEntries_eq (rf : Raft n α) (args : AppendEntriesArgs n α) :
    ∃ ticker, rf.acceptEntries args =
      { rf with
        log := rf.log.spliceAfter args.prevLogIndex args.entries
        commitIndex := max rf.commitIndex args.leaderCommit
        ticker }.persistLocked none := by
  unfold acceptEntries
  dsimp only
  split
  case isTrue h =>
    obtain ⟨ticker, heq⟩ := signal_eq
      { ({ rf with log := rf.log.spliceAfter args.prevLogIndex args.entries }.persistLocked none)
        with commitIndex := args.leaderCommit }
    refine ⟨ticker, ?_⟩
    have hmax : max rf.commitIndex args.leaderCommit = args.leaderCommit :=
      Nat.max_eq_right (Nat.le_of_lt h)
    rw [heq, hmax]
    rfl
  case isFalse h =>
    have hmax : max rf.commitIndex args.leaderCommit = rf.commitIndex :=
      Nat.max_eq_left (Nat.not_lt.mp h)
    rw [hmax]
    exact ⟨rf.ticker, rfl⟩

section Frame

variable (rf : Raft n α) (args : AppendEntriesArgs n α)

@[simp] theorem acceptEntries_me : (rf.acceptEntries args).me = rf.me := by
  obtain ⟨ticker, h⟩ := rf.acceptEntries_eq args
  rw [h]
  rfl

@[simp] theorem acceptEntries_role : (rf.acceptEntries args).role = rf.role := by
  obtain ⟨ticker, h⟩ := rf.acceptEntries_eq args
  rw [h]
  rfl

@[simp] theorem acceptEntries_currentTerm :
    (rf.acceptEntries args).currentTerm = rf.currentTerm := by
  obtain ⟨ticker, h⟩ := rf.acceptEntries_eq args
  rw [h]
  rfl

@[simp] theorem acceptEntries_log :
    (rf.acceptEntries args).log = rf.log.spliceAfter args.prevLogIndex args.entries := by
  obtain ⟨ticker, h⟩ := rf.acceptEntries_eq args
  rw [h]
  rfl

@[simp] theorem acceptEntries_matchIndex : (rf.acceptEntries args).matchIndex = rf.matchIndex := by
  obtain ⟨ticker, h⟩ := rf.acceptEntries_eq args
  rw [h]
  rfl

@[simp] theorem acceptEntries_commitIndex :
    (rf.acceptEntries args).commitIndex = max rf.commitIndex args.leaderCommit := by
  obtain ⟨ticker, h⟩ := rf.acceptEntries_eq args
  rw [h]
  rfl

@[simp] theorem acceptEntries_lastApplied :
    (rf.acceptEntries args).lastApplied = rf.lastApplied := by
  obtain ⟨ticker, h⟩ := rf.acceptEntries_eq args
  rw [h]
  rfl

@[simp] theorem acceptEntries_snapshot :
    (rf.acceptEntries args).persister.snapshot = rf.persister.snapshot := by
  obtain ⟨ticker, h⟩ := rf.acceptEntries_eq args
  rw [h]
  rfl

@[simp] theorem acceptEntries_progress :
    (rf.acceptEntries args).ticker.progress = rf.ticker.progress := by
  unfold acceptEntries
  dsimp only
  split
  · exact signal_progress _
  · rfl

end Frame

omit [RaftGob α] in
/-- The message `InstallSnapshot` sends. -/
def snapshotMsg (args : InstallSnapshotArgs n) : ApplyMsg α where
  snapshotValid := true
  snapshot := args.data
  snapshotTerm := args.lastIncludedTerm
  snapshotIndex := args.lastIncludedIndex

/-- `InstallSnapshot` up to its send on `applyCh`: the new state, the reply, and the message it then
sends with the lock held. -/
def installSnapshot (rf : Raft n α) (args : InstallSnapshotArgs n) :
    Raft n α × InstallSnapshotReply × Option (ApplyMsg α) :=
  let reply : InstallSnapshotReply := { term := rf.currentTerm }
  if args.term < rf.currentTerm then (rf, reply, none)
  else
    let rf := rf.becomeFollowerLocked args.term
    if args.lastIncludedIndex ≤ rf.log.base then (rf, reply, none)
    else (rf.adoptSnapshot args, reply, some (snapshotMsg args))

/-! ## The apply loop (`raft_application.go`) -/

omit [RaftGob α]

/-- The records at `lo`, …, `lo + count - 1`; `none` where `log.get` panics. -/
def collect (log : Log α) (lo : ℕ) : ℕ → Option (List (LogRecord α))
  | 0 => some []
  | count + 1 => (log.get lo).bind fun r => (collect log (lo + 1) count).map (r :: ·)

/-- What `collect` returns. -/
theorem collect_spec (log : Log α) {lo count : ℕ} {entries : List (LogRecord α)}
    (h : collect log lo count = some entries) :
    entries.length = count ∧ ∀ j r, entries[j]? = some r → log.get (lo + j) = some r := by
  induction count generalizing lo entries with
  | zero =>
    obtain rfl : [] = entries := Option.some.inj h
    exact ⟨rfl, fun j r hj => by cases hj⟩
  | succ count ih =>
    obtain ⟨x, hx, h⟩ := Option.bind_eq_some_iff.mp h
    obtain ⟨rest, hrest, rfl⟩ := Option.map_eq_some_iff.mp h
    obtain ⟨hlen, hget⟩ := ih hrest
    refine ⟨by rw [List.length_cons, hlen], fun j r hj => ?_⟩
    cases j with
    | zero =>
      obtain rfl := Option.some.inj hj
      exact hx
    | succ j =>
      rw [show lo + (j + 1) = lo + 1 + j by omega]
      exact hget j r hj

/-- The first critical section of `applicationTicker`, once woken: collect what is committed and
not applied. -/
def collectLocked (rf : Raft n α) : Option (List (LogRecord α)) :=
  collect rf.log (rf.lastApplied + 1) (rf.commitIndex - rf.lastApplied)

/-- The message for the entry at position `i` of the batch. `rf.lastApplied` is read without the
lock, when the message is built. -/
def applyMsg (rf : Raft n α) (entry : LogRecord α) (i : ℕ) : ApplyMsg α where
  commandValid := entry.commandValid
  command := entry.command
  commandIndex := rf.lastApplied + 1 + i

end Raft

end LogicRaft
