import LogicRaft.Common.Majority
import LogicRaft.Common.Reach
import LogicRaft.Raft.Election
import LogicRaft.Raft.Replication

/-!
# Compaction

A peer and its copy after `Snapshot(index, data)` go on side by side: every operation that does not
reach below `index` gives the same answers in both and keeps them related (`Raft.Sim`). The logs
agree above `index` and in the term at `index` (`Log.Cut`). What differs is the part below, the
saved bytes, and `matchIndex`: `becomeLeaderLocked` sets it to `log.Base`. Values up to `index` do
not matter there, because `index` is committed and the median is looked at above `commitIndex` only.

`ConflictIndex` is not compared: `firstLogFor` gives positions in the stored part of the log, which
is another one after the compaction.
-/

namespace LogicRaft

variable {n : ℕ} {α : Type}

namespace Log

/-- `log'` is `log` with everything below `index` gone, and the record at `index` only known by its
term. -/
structure Cut (index : ℕ) (log log' : Log α) : Prop where
  base_le : log.base ≤ index
  base_eq : log'.base = index
  lt_size : index < log.size
  size_eq : log'.size = log.size
  get_eq : ∀ k, index < k → log'.get k = log.get k
  term_eq : (log'.get index).map LogRecord.term = (log.get index).map LogRecord.term

namespace Cut

variable {index : ℕ} {log log' : Log α}

theorem of_get {last : LogRecord α} (hbase : log.base ≤ index) (hlast : log.get index = some last) :
    log.Cut index (fresh index last.term (log.suffixFrom (index + 1))) := by
  obtain ⟨-, hlt⟩ := bounds_of_get hlast
  refine ⟨hbase, base_fresh _ _ _, hlt, ?_, fun k hk => get_fresh_suffixFrom _ _ hbase hk, ?_⟩
  · rw [size_fresh_suffixFrom _ _ hbase]
    omega
  · rw [get_fresh_base, hlast]
    rfl

/-- From `index` on the terms agree. -/
theorem map_term (h : log.Cut index log') {k : ℕ} (hk : index ≤ k) :
    (log'.get k).map LogRecord.term = (log.get k).map LogRecord.term := by
  rcases Nat.lt_or_eq_of_le hk with hlt | rfl
  · rw [h.get_eq k hlt]
  · exact h.term_eq

/-- From `index` on the same reads succeed, with the same terms. -/
theorem rel_get (h : log.Cut index log') {k : ℕ} (hk : index ≤ k) :
    Option.Rel (fun r r' => r'.term = r.term) (log.get k) (log'.get k) := by
  have hterm := h.map_term hk
  cases hr : log.get k with
  | none =>
    rw [hr, Option.map_none, Option.map_eq_none_iff] at hterm
    rw [hterm]
    exact .none
  | some r =>
    rw [hr] at hterm
    obtain ⟨r', hr', hsame⟩ := Option.map_eq_some_iff.mp hterm
    rw [hr']
    exact .some hsame

theorem lastLogTerm_eq (h : log.Cut index log') : log'.lastLogTerm = log.lastLogTerm := by
  obtain ⟨r, hr, hterm⟩ := log.lastLogTerm_eq
  obtain ⟨r', hr', hterm'⟩ := log'.lastLogTerm_eq
  have hlt := h.lt_size
  have hsame := h.map_term (show index ≤ log.size - 1 by omega)
  rw [h.size_eq] at hr'
  rw [hr, hr'] at hsame
  rw [← hterm, ← hterm']
  exact Option.some.inj hsame

theorem suffixFrom_eq (h : log.Cut index log') {k : ℕ} (hk : index < k) :
    log'.suffixFrom k = log.suffixFrom k := by
  have hbase := h.base_le
  have hbase' := h.base_eq
  refine List.ext_getElem? fun j => ?_
  rw [getElem?_suffixFrom _ (by omega), getElem?_suffixFrom _ (by omega), h.get_eq _ (by omega)]

theorem append (h : log.Cut index log') (r : LogRecord α) :
    (log.append r).Cut index (log'.append r) := by
  have hlt := h.lt_size
  refine ⟨h.base_le, h.base_eq, ?_, ?_, fun k hk => ?_, ?_⟩
  · rw [size_append]
    omega
  · rw [size_append, size_append, h.size_eq]
  · rw [get_append, get_append, h.size_eq, h.get_eq k hk]
  · rw [get_append, get_append, h.size_eq, if_neg (by omega), if_neg (by omega)]
    exact h.term_eq

theorem spliceAfter (h : log.Cut index log') {i : ℕ} (hi : index ≤ i) (hlt : i < log.size)
    (entries : List (LogRecord α)) :
    (log.spliceAfter i entries).Cut index (log'.spliceAfter i entries) := by
  have hbase := h.base_le
  have hbase' := h.base_eq
  have hsize := h.size_eq
  refine ⟨hbase, hbase', ?_, ?_, fun k hk => ?_, ?_⟩
  · rw [size_spliceAfter _ (by omega) hlt]
    omega
  · rw [size_spliceAfter _ (by omega) hlt, size_spliceAfter _ (by omega) (by omega)]
  · rw [get_spliceAfter _ (by omega) hlt, get_spliceAfter _ (by omega) (by omega), h.get_eq k hk]
  · rw [get_spliceAfter _ (by omega) hlt, get_spliceAfter _ (by omega) (by omega), if_pos hi,
      if_pos hi]
    exact h.term_eq

end Cut

end Log

/-! ## The operations -/

/-- What happens to a peer, as far as it can be compared with its compacted copy. -/
inductive Operation (n : ℕ) (α : Type)
  | start (command : α)
  | requestVote (args : RequestVoteArgs n)
  | appendEntries (args : AppendEntriesArgs n α)
  /-- `electionTicker` makes the peer a candidate -/
  | becomeCandidate
  | startElection (term : ℕ)
  /-- a reply to a vote request; `votes` is the counter of its election -/
  | askVoteFromPeer (votes : ℕ) (reply : RequestVoteReply)
  | startReplication (term : ℕ)
  /-- a reply to an append request -/
  | replicateToPeer (peer : Fin n) (args : AppendEntriesArgs n α) (term : ℕ)
      (reply : AppendEntriesReply)

/-- The operation does not reach below `index`. -/
def Operation.Above (index : ℕ) : Operation n α → Prop
  | .appendEntries args => index ≤ args.prevLogIndex
  | .replicateToPeer _ _ _ reply => reply.success = true
  | _ => True

/-- What others see of an operation. -/
inductive Response (n : ℕ) (α : Type)
  | done
  | started (index term : ℕ) (isLeader : Bool)
  | voted (reply : RequestVoteReply)
  | appended (term : ℕ) (success : Bool) (conflictTerm : ℕ)
  /-- the vote counter and the vote requests of an election, if its context is not lost -/
  | asked (election : Option (ℕ × List (Fin n × RequestVoteArgs n)))
  /-- the vote counter, and whether a `replicationTicker` starts -/
  | counted (votes : ℕ) (won : Bool)
  /-- the requests of a round, if its context is not lost -/
  | replicated (requests : Option (List (Fin n × ReplicationRequest n α)))
deriving DecidableEq

/-- The state and the result, `none` after a panic. -/
def Outcome.result {σ ρ : Type} : Outcome σ ρ → Option (σ × ρ)
  | .ok state result => some (state, result)
  | .panic _ => none

namespace Raft

variable [RaftGob α]

/-- One operation; `none` is a panic. Of a round of requests, those are reported that go to peers
whose `nextIndex` is above `index`. -/
def perform (index : ℕ) (rf : Raft n α) : Operation n α → Option (Raft n α × Response n α)
  | .start command =>
    let x := rf.start command
    some (x.1, .started x.2.1 x.2.2.1 x.2.2.2)
  | .requestVote args =>
    let x := rf.requestVote args
    some (x.1, .voted x.2)
  | .appendEntries args =>
    (rf.appendEntries args).result.map fun x =>
      (x.1, .appended x.2.term x.2.success x.2.conflictTerm)
  | .becomeCandidate => some (rf.becomeCandidateLocked, .done)
  | .startElection term => some (rf, .asked (rf.startElection term))
  | .askVoteFromPeer votes reply =>
    let x := rf.askVoteFromPeer votes reply
    some (x.1, .counted x.2.1 x.2.2)
  | .startReplication term =>
    (rf.startReplication term).result.map fun x =>
      (x.1, .replicated (x.2.map (List.filter fun y => index < rf.nextIndex y.1)))
  | .replicateToPeer peer args term reply =>
    (rf.replicateToPeer peer args term reply).result.map fun x => (x.1, .done)

/-- A sequence of operations and what others see of it. -/
def run (index : ℕ) (rf : Raft n α) : List (Operation n α) → Option (Raft n α × List (Response n α))
  | [] => some (rf, [])
  | op :: ops => (rf.perform index op).bind fun x =>
      (run index x.1 ops).map fun y => (y.1, x.2 :: y.2)

/-! ## The simulation -/

omit [RaftGob α] in
/-- A peer and its copy that was compacted at `index`. -/
inductive Sim (index : ℕ) : Raft n α → Raft n α → Prop
  | mk (rf : Raft n α) (log : Log α) (persister : Persister) (matchIndex : Fin n → ℕ)
      (hlog : rf.log.Cut index log) (hcommit : index ≤ rf.commitIndex)
      (hmatch : ∀ q, rf.matchIndex q = matchIndex q ∨
        (rf.matchIndex q ≤ index ∧ matchIndex q ≤ index)) :
      Sim index rf { rf with log, persister, matchIndex }

/-- What a peer and its compacted copy have in common. -/
structure Agree (index : ℕ) (rf rf' : Raft n α) : Prop where
  currentTerm : rf'.currentTerm = rf.currentTerm
  votedFor : rf'.votedFor = rf.votedFor
  role : rf'.role = rf.role
  commitIndex : rf'.commitIndex = rf.commitIndex
  size : rf'.log.size = rf.log.size
  lastLogTerm : rf'.log.lastLogTerm = rf.log.lastLogTerm
  get : ∀ k, index < k → rf'.log.get k = rf.log.get k

namespace Sim

variable {index : ℕ} {rf rf' : Raft n α}

omit [RaftGob α] in
theorem agree (h : Sim index rf rf') : Agree index rf rf' := by
  cases h with
  | mk log persister matchIndex hlog =>
    exact ⟨rfl, rfl, rfl, rfl, hlog.size_eq, hlog.lastLogTerm_eq, hlog.get_eq⟩

omit [RaftGob α] in
theorem me (h : Sim index rf rf') : rf'.me = rf.me := by
  cases h with
  | mk => rfl

omit [RaftGob α] in
theorem nextIndex (h : Sim index rf rf') : rf'.nextIndex = rf.nextIndex := by
  cases h with
  | mk => rfl

omit [RaftGob α] in
theorem log (h : Sim index rf rf') : rf.log.Cut index rf'.log := by
  cases h with
  | mk log persister matchIndex hlog => exact hlog

omit [RaftGob α] in
theorem index_le (h : Sim index rf rf') : index ≤ rf.commitIndex := by
  cases h with
  | mk log persister matchIndex hlog hcommit => exact hcommit

omit [RaftGob α] in
theorem contextLostLocked (h : Sim index rf rf') (role : Role) (term : ℕ) :
    rf'.contextLostLocked role term ↔ rf.contextLostLocked role term := by
  unfold Raft.contextLostLocked
  rw [h.agree.currentTerm, h.agree.role]

omit [RaftGob α] in
theorem vote (h : Sim index rf rf') (votedFor : ℤ) :
    Sim index { rf with votedFor } { rf' with votedFor } := by
  cases h with
  | mk log persister matchIndex hlog hcommit hmatch => exact .mk _ _ _ _ hlog hcommit hmatch

omit [RaftGob α] in
theorem commit (h : Sim index rf rf') {commitIndex : ℕ} (hle : index ≤ commitIndex) :
    Sim index { rf with commitIndex } { rf' with commitIndex } := by
  cases h with
  | mk log persister matchIndex hlog hcommit hmatch => exact .mk _ _ _ _ hlog hle hmatch

omit [RaftGob α] in
theorem recordMatch (h : Sim index rf rf') (peer : Fin n) (matched : ℕ) :
    Sim index (rf.recordMatch peer matched) (rf'.recordMatch peer matched) := by
  cases h with
  | mk log persister matchIndex hlog hcommit hmatch =>
    refine .mk _ _ _ _ hlog hcommit fun q => ?_
    by_cases hq : q = peer
    · subst hq
      exact Or.inl (by rw [recordMatch_matchIndex_self, Function.update_self])
    · rw [recordMatch_matchIndex_of_ne _ _ hq, Function.update_of_ne hq]
      exact hmatch q

theorem persistLocked (h : Sim index rf rf') (data data' : Option Bytes) :
    Sim index (rf.persistLocked data) (rf'.persistLocked data') := by
  cases h with
  | mk log persister matchIndex hlog hcommit hmatch => exact .mk _ _ _ _ hlog hcommit hmatch

omit [RaftGob α] in
theorem signal (h : Sim index rf rf') : Sim index rf.signal rf'.signal := by
  cases h with
  | mk log persister matchIndex hlog hcommit hmatch =>
    unfold Raft.signal
    dsimp only
    split
    · exact .mk _ _ _ _ hlog hcommit hmatch
    · exact .mk _ _ _ _ hlog hcommit hmatch

theorem becomeFollowerLocked (h : Sim index rf rf') (term : ℕ) :
    Sim index (rf.becomeFollowerLocked term) (rf'.becomeFollowerLocked term) := by
  cases h with
  | mk log persister matchIndex hlog hcommit hmatch =>
    unfold Raft.becomeFollowerLocked
    dsimp only
    split
    · exact .mk _ _ _ _ hlog hcommit hmatch
    · split
      · exact .mk _ _ _ _ hlog hcommit hmatch
      · exact .mk _ _ _ _ hlog hcommit hmatch

theorem becomeCandidateLocked (h : Sim index rf rf') :
    Sim index rf.becomeCandidateLocked rf'.becomeCandidateLocked := by
  cases h with
  | mk log persister matchIndex hlog hcommit hmatch =>
    unfold Raft.becomeCandidateLocked
    dsimp only
    split_ifs
    · exact .mk _ _ _ _ hlog hcommit hmatch
    · exact .mk _ _ _ _ hlog hcommit hmatch

omit [RaftGob α] in
/-- A new leader starts `matchIndex` from its base, which is not the same in both. -/
theorem becomeLeaderLocked (h : Sim index rf rf') :
    Sim index rf.becomeLeaderLocked rf'.becomeLeaderLocked := by
  cases h with
  | mk log persister matchIndex hlog hcommit hmatch =>
    unfold Raft.becomeLeaderLocked
    dsimp only
    split_ifs
    · exact .mk _ _ _ _ hlog hcommit hmatch
    · rw [hlog.size_eq]
      exact .mk _ _ _ _ hlog hcommit fun q => Or.inr ⟨hlog.base_le, Nat.le_of_eq hlog.base_eq⟩

theorem start (h : Sim index rf rf') (command : α) :
    Sim index (rf.start command).1 (rf'.start command).1 ∧
      (rf.start command).2 = (rf'.start command).2 := by
  cases h with
  | mk log persister matchIndex hlog hcommit hmatch =>
    unfold Raft.start
    dsimp only
    split_ifs
    · exact ⟨.mk _ _ _ _ hlog hcommit hmatch, rfl⟩
    · refine ⟨.mk _ _ _ _ (hlog.append _) hcommit hmatch, ?_⟩
      simp only [Raft.persistLocked, Log.size_append, hlog.size_eq]

omit [RaftGob α] in
theorem isMoreUpToDateLocked (h : Sim index rf rf') (term lastIndex : ℕ) :
    rf.isMoreUpToDateLocked term lastIndex = rf'.isMoreUpToDateLocked term lastIndex := by
  unfold Raft.isMoreUpToDateLocked
  rw [h.agree.size, h.agree.lastLogTerm]

theorem alignTerm (h : Sim index rf rf') (term : ℕ) :
    Sim index (rf.alignTerm term) (rf'.alignTerm term) := by
  unfold Raft.alignTerm
  rw [h.agree.currentTerm]
  split_ifs
  · exact h.becomeFollowerLocked term
  · exact h

theorem requestVote (h : Sim index rf rf') (args : RequestVoteArgs n) :
    Sim index (rf.requestVote args).1 (rf'.requestVote args).1 ∧
      (rf.requestVote args).2 = (rf'.requestVote args).2 := by
  have halign := h.alignTerm args.term
  have hsame := halign.isMoreUpToDateLocked args.lastLogTerm args.lastLogIndex
  have hvoted := halign.agree.votedFor
  unfold Raft.requestVote
  dsimp only
  rw [h.agree.currentTerm, hvoted, hsame]
  split_ifs
  · exact ⟨h, rfl⟩
  · exact ⟨halign, rfl⟩
  · exact ⟨halign, rfl⟩
  · exact ⟨(halign.vote _).persistLocked none none, rfl⟩

theorem askVoteFromPeer (h : Sim index rf rf') (votes : ℕ) (reply : RequestVoteReply) :
    Sim index (rf.askVoteFromPeer votes reply).1 (rf'.askVoteFromPeer votes reply).1 ∧
      (rf.askVoteFromPeer votes reply).2 = (rf'.askVoteFromPeer votes reply).2 := by
  have hctx := h.contextLostLocked .candidate rf.currentTerm
  unfold Raft.askVoteFromPeer
  dsimp only
  rw [h.agree.currentTerm]
  simp only [hctx]
  split_ifs
  · exact ⟨h.becomeFollowerLocked _, rfl⟩
  · exact ⟨h, rfl⟩
  · exact ⟨h.becomeLeaderLocked, rfl⟩
  · exact ⟨h, rfl⟩
  · exact ⟨h.becomeLeaderLocked, rfl⟩
  · exact ⟨h, rfl⟩

omit [RaftGob α] in
theorem startElection (h : Sim index rf rf') (term : ℕ) :
    rf.startElection term = rf'.startElection term := by
  have hctx := h.contextLostLocked .candidate term
  unfold Raft.startElection Raft.voteRequest
  simp only [hctx, h.me, h.agree.currentTerm, h.agree.size, h.agree.lastLogTerm]

/-! ### Replication -/

theorem acceptEntries (h : Sim index rf rf') {args : AppendEntriesArgs n α}
    (hprev : index ≤ args.prevLogIndex) (hlt : args.prevLogIndex < rf.log.size) :
    Sim index (rf.acceptEntries args) (rf'.acceptEntries args) := by
  have hsplice : Sim index
      ({ rf with log := rf.log.spliceAfter args.prevLogIndex args.entries }.persistLocked none)
      ({ rf' with log := rf'.log.spliceAfter args.prevLogIndex args.entries }.persistLocked
        none) := by
    cases h with
    | mk log persister matchIndex hlog hcommit hmatch =>
      exact .mk _ _ _ _ (hlog.spliceAfter hprev hlt args.entries) hcommit hmatch
  have hcommit := h.index_le
  unfold Raft.acceptEntries
  dsimp only
  rw [hsplice.agree.commitIndex]
  split
  case isTrue hmore =>
    have hmore' : args.leaderCommit > rf.commitIndex := hmore
    exact (hsplice.commit (by omega)).signal
  case isFalse => exact hsplice

theorem appendEntries (h : Sim index rf rf') {args : AppendEntriesArgs n α}
    (hprev : index ≤ args.prevLogIndex) :
    Option.Rel (fun x y => Sim index x.1 y.1 ∧ x.2 = y.2)
      (rf.perform index (.appendEntries args)) (rf'.perform index (.appendEntries args)) := by
  have hfollow := h.becomeFollowerLocked args.term
  have hlog : (rf.becomeFollowerLocked args.term).log.Cut index
      (rf'.becomeFollowerLocked args.term).log := hfollow.log
  have hread := hlog.rel_get hprev
  unfold perform Raft.appendEntries
  dsimp only
  rw [h.agree.currentTerm, hlog.size_eq]
  split
  · exact .some ⟨h, rfl⟩
  · split
    · exact .some ⟨hfollow, rfl⟩
    case isFalse hshort =>
      -- the record before the entries has the same term in both logs
      generalize (rf.becomeFollowerLocked args.term).log.get args.prevLogIndex = x at hread
      generalize (rf'.becomeFollowerLocked args.term).log.get args.prevLogIndex = y at hread
      cases hread with
      | none => exact .none
      | some hsame =>
        dsimp only
        rw [hsame]
        split
        · exact .some ⟨hfollow, rfl⟩
        · exact .some ⟨hfollow.acceptEntries hprev (by omega), rfl⟩

omit [RaftGob α] in
/-- The medians agree above what is committed. -/
theorem getMajorityIndexLocked (h : Sim index rf rf') :
    rf.getMajorityIndexLocked = rf'.getMajorityIndexLocked ∨
      (rf.getMajorityIndexLocked ≤ index ∧ rf'.getMajorityIndexLocked ≤ index) := by
  cases h with
  | mk log persister matchIndex hlog hcommit hmatch => exact median_eq_or_le 0 rf.me.pos hmatch

theorem replicateToPeer (h : Sim index rf rf') (peer : Fin n) (args : AppendEntriesArgs n α)
    (term : ℕ) {reply : AppendEntriesReply} (hsuccess : reply.success = true) :
    Option.Rel (fun x y => Sim index x.1 y.1 ∧ x.2 = y.2)
      (rf.perform index (.replicateToPeer peer args term reply))
      (rf'.perform index (.replicateToPeer peer args term reply)) := by
  have hctx := h.contextLostLocked .leader term
  have hmatch := h.recordMatch peer (args.prevLogIndex + args.entries.length)
  have hindex := hmatch.index_le
  unfold perform Raft.replicateToPeer
  simp only [h.agree.currentTerm, hctx, hsuccess, Bool.not_true, Bool.false_eq_true, if_false,
    hmatch.agree.commitIndex]
  split
  · exact .some ⟨h.becomeFollowerLocked _, rfl⟩
  split
  · exact .some ⟨h, rfl⟩
  -- from here on only the states after the reply is recorded matter
  generalize rf.recordMatch peer (args.prevLogIndex + args.entries.length) = x at hmatch hindex ⊢
  generalize rf'.recordMatch peer (args.prevLogIndex + args.entries.length) = y at hmatch ⊢
  rcases hmatch.getMajorityIndexLocked with hsame | ⟨hlow, hlow'⟩
  · rw [← hsame]
    split
    case isTrue hmore =>
      have hle := hindex.trans (Nat.le_of_lt hmore)
      rw [hmatch.log.get_eq _ (by omega)]
      cases x.log.get x.getMajorityIndexLocked with
      | none => exact .none
      | some record =>
        dsimp only
        have hterm := hmatch.agree.currentTerm
        by_cases hcur : record.term = x.currentTerm
        · rw [if_pos hcur, if_pos (hcur.trans hterm.symm)]
          exact .some ⟨(hmatch.commit hle).signal, rfl⟩
        · rw [if_neg hcur, if_neg (by rwa [hterm])]
          exact .some ⟨hmatch, rfl⟩
    case isFalse => exact .some ⟨hmatch, rfl⟩
  · -- medians up to `index` commit nothing new
    rw [if_neg (by omega), if_neg (by omega)]
    exact .some ⟨hmatch, rfl⟩

omit [RaftGob α] in
/-- Above `index` a follower is sent the same request; below, each side sends one of its own. -/
theorem replicationRequest (h : Sim index rf rf') (q : Fin n) :
    Option.Rel (fun x y => index < rf.nextIndex q → x = y)
      (rf.replicationRequest q) (rf'.replicationRequest q) := by
  have hlog := h.log
  have hbase := hlog.base_le
  have hlt := hlog.lt_size
  unfold Raft.replicationRequest
  dsimp only
  rw [h.nextIndex, h.agree.currentTerm, h.me, h.agree.commitIndex, hlog.base_eq]
  by_cases hnext : index < rf.nextIndex q
  · have hprev : index ≤ ((rf.nextIndex q : ℤ) - 1).toNat := by omega
    rw [if_neg (by omega), if_neg (by omega), hlog.suffixFrom_eq (by omega)]
    refine (hlog.rel_get hprev).map fun prev prev' hsame _ => ?_
    rw [hsame]
  · rw [if_pos (show (rf.nextIndex q : ℤ) - 1 < index by omega)]
    split
    · exact .some fun hmore => absurd hmore hnext
    case isFalse hge =>
      obtain ⟨prev, hget⟩ : ∃ prev, rf.log.get ((rf.nextIndex q : ℤ) - 1).toNat = some prev :=
        Log.exists_get (by omega) (by omega)
      rw [hget]
      exact .some fun hmore => absurd hmore hnext

omit [RaftGob α] in
theorem replicationLoop (next : Fin n → ℕ) (ps : List (Fin n)) {rf rf' : Raft n α}
    (h : Sim index rf rf') (hnext : ∀ q, q ≠ rf.me → rf.nextIndex q = next q) :
    Option.Rel (fun x y => Sim index x.1 y.1 ∧
        x.2.filter (fun z => index < next z.1) = y.2.filter (fun z => index < next z.1))
      (Raft.replicationLoop ps rf) (Raft.replicationLoop ps rf') := by
  induction ps generalizing rf rf' with
  | nil => exact .some ⟨h, rfl⟩
  | cons q ps ih =>
    unfold Raft.replicationLoop
    by_cases hq : q = rf.me
    case pos =>
      -- the leader's own entry is its last index, the same in both
      have hself : ∀ rf : Raft n α, ({ rf with
          matchIndex := Function.update rf.matchIndex q (rf.log.size - 1)
          nextIndex := Function.update rf.nextIndex q rf.log.size } : Raft n α) =
            rf.recordMatch q (rf.log.size - 1) := by
        intro rf
        have hpos := rf.log.base_lt_size
        rw [Raft.recordMatch, Nat.sub_add_cancel (by omega)]
      have hmatch := h.recordMatch q (rf.log.size - 1)
      rw [if_pos hq, if_pos (hq.trans h.me.symm), hself, hself, h.agree.size]
      refine ih hmatch fun r hr => ?_
      rw [← hnext r hr]
      exact Function.update_of_ne (by rw [hq]; exact hr) _ _
    case neg =>
      rw [if_neg hq, if_neg (by rwa [h.me])]
      have hreq := h.replicationRequest q
      rw [hnext q hq] at hreq
      refine hreq.bind fun request request' hxy => (ih h hnext).map fun x y hrest => ?_
      refine ⟨hrest.1, ?_⟩
      rw [List.filter_cons, List.filter_cons, hrest.2]
      by_cases hmore : index < next q
      · rw [hxy hmore]
      · simp only [hmore, decide_false, Bool.false_eq_true, if_false]

theorem startReplication (h : Sim index rf rf') (term : ℕ) :
    Option.Rel (fun x y => Sim index x.1 y.1 ∧ x.2 = y.2)
      (rf.perform index (.startReplication term)) (rf'.perform index (.startReplication term)) := by
  have hctx := h.contextLostLocked .leader term
  have hloop := replicationLoop rf.nextIndex (List.finRange n) h fun _ _ => rfl
  unfold perform Raft.startReplication
  simp only [hctx, h.nextIndex]
  split
  · exact .some ⟨h, rfl⟩
  · -- the round panics when one of its requests does
    generalize Raft.replicationLoop (List.finRange n) rf = x at hloop
    generalize Raft.replicationLoop (List.finRange n) rf' = y at hloop
    cases hloop with
    | none => exact .none
    | some hxy => exact .some ⟨hxy.1, congrArg (fun l => Response.replicated (some l)) hxy.2⟩

/-- Every operation above `index` gives the same answer in both, and keeps them related. -/
theorem perform (h : Sim index rf rf') {op : Operation n α} (hop : op.Above index) :
    Option.Rel (fun x y => Sim index x.1 y.1 ∧ x.2 = y.2)
      (rf.perform index op) (rf'.perform index op) := by
  cases op with
  | start command =>
    obtain ⟨hsim, heq⟩ := h.start command
    exact .some ⟨hsim, by dsimp only; rw [heq]⟩
  | requestVote args =>
    obtain ⟨hsim, heq⟩ := h.requestVote args
    exact .some ⟨hsim, by dsimp only; rw [heq]⟩
  | appendEntries args => exact h.appendEntries hop
  | becomeCandidate => exact .some ⟨h.becomeCandidateLocked, rfl⟩
  | startElection term => exact .some ⟨h, by dsimp only; rw [h.startElection term]⟩
  | askVoteFromPeer votes reply =>
    obtain ⟨hsim, heq⟩ := h.askVoteFromPeer votes reply
    exact .some ⟨hsim, by dsimp only; rw [heq]⟩
  | startReplication term => exact h.startReplication term
  | replicateToPeer peer args term reply => exact h.replicateToPeer peer args term hop

/-- And so does every sequence of them. -/
theorem run (ops : List (Operation n α)) {rf rf' : Raft n α} (h : Sim index rf rf')
    (hops : ∀ op ∈ ops, op.Above index) :
    Option.Rel (fun x y => Sim index x.1 y.1 ∧ x.2 = y.2)
      (rf.run index ops) (rf'.run index ops) := by
  induction ops generalizing rf rf' with
  | nil => exact .some ⟨h, rfl⟩
  | cons op ops ih =>
    have hstep := h.perform (hops op (List.mem_cons_self ..))
    refine hstep.bind fun x y hxy => ?_
    have hrest := ih hxy.1 fun op hop => hops op (List.mem_cons_of_mem _ hop)
    refine hrest.map fun u v huv => ⟨huv.1, ?_⟩
    rw [hxy.2, huv.2]

end Sim

/-- `Snapshot` succeeds at a committed index of the log and gives the peer its compacted copy. -/
theorem sim_of_snapshot {rf : Raft n α} {index : ℕ} (data : Option Bytes)
    (hbase : rf.log.base ≤ index) (hcommit : index ≤ rf.commitIndex)
    (hsize : rf.commitIndex < rf.log.size) :
    ∃ rf', rf.snapshot index data = some rf' ∧ Sim index rf rf' := by
  obtain ⟨last, hlast⟩ := Log.exists_get hbase (Nat.lt_of_le_of_lt hcommit hsize)
  refine ⟨({ rf with log := Log.fresh index last.term (rf.log.suffixFrom (index + 1)) } :
    Raft n α).persistLocked data, ?_, ?_⟩
  · rw [snapshot, if_neg (by omega), hlast]
    rfl
  · exact .mk _ _ _ _ (.of_get hbase hlast) hcommit fun q => Or.inl rfl

/-- A leader of term 2 with two records, the first of them committed. -/
def leaderOfTwo : Raft 3 ℕ :=
  { initial 0 {} with
    role := .leader
    currentTerm := 2
    log := ((Log.fresh 0 0 []).append ⟨2, true, some 7⟩).append ⟨2, true, some 8⟩
    nextIndex := fun _ => 2
    commitIndex := 1 }

end Raft

end LogicRaft
