import Mathlib.Data.List.GetD
import LogicRaft.Cluster.Matching
import LogicRaft.Raft.ConflictHints

/-!
# Fast back-up of a follower's log

A leader brings a follower's log into agreement with its own by rounds: `startReplication` builds
the request at `nextIndex`, the follower handles it and `replicateToPeer` handles the reply. After a
refusal `nextIndex` moves to the first index of the follower's term at `PrevLogIndex`, in the
leader's log if the term is there and in the follower's otherwise.

Both logs are whole (not compacted) and sorted, and a term that both have is preceded by the same
records in both (`BackupSetting.agree`). Then `nextIndex` falls in every refused round: a leader
whose first record of the term were after `PrevLogIndex` would have the follower's record at
`PrevLogIndex`, and there would have been no refusal. So at most `nextIndex` rounds are needed, and
the last one makes the two logs equal.
-/

namespace LogicRaft

variable {n : ℕ} {α : Type}

/-- A log that is not compacted: a placeholder of term `0` at index `0`, positive terms after it, in
order. -/
structure Log.Whole (l : Log α) : Prop where
  base : l.base = 0
  first : l.baseTerm = 0
  pos : ∀ k r, 0 < k → l.get k = some r → 0 < r.term
  sorted : l.TermsSorted

namespace Log.Whole

variable {l : Log α} (h : l.Whole)

include h

theorem get_zero : ∃ r, l.get 0 = some r ∧ r.term = 0 := by
  obtain ⟨r, hr, hterm⟩ := l.get_base
  rw [h.base] at hr
  exact ⟨r, hr, hterm.trans h.first⟩

/-- A positive term is found after the placeholder. -/
theorem firstOf_pos {term m : ℕ} (hterm : 0 < term) (hm : l.FirstOf term m) : 0 < m := by
  obtain ⟨r, hr, hrterm⟩ := hm.here
  obtain ⟨r₀, hr₀, hzero⟩ := h.get_zero
  rcases Nat.eq_zero_or_pos m with rfl | hpos
  · rw [hr] at hr₀
    obtain rfl := Option.some.inj hr₀
    omega
  · exact hpos

theorem firstLogFor_eq {term m : ℕ} (hm : l.FirstOf term m) : l.firstLogFor term = m := by
  rw [Log.firstLogFor_of_below hm (h.sorted.below hm), h.base, Nat.sub_zero]

end Log.Whole

namespace Raft

/-! ## A round of requests is built -/

/-- The loop builds a request for every peer for which it can. -/
theorem exists_replicationLoop (ps : List (Fin n)) (rf : Raft n α)
    (h : ∀ r ∈ ps, r ≠ rf.me → (rf.replicationRequest r).isSome) :
    ∃ rf' requests, replicationLoop ps rf = some (rf', requests) ∧
      ∀ r ∈ ps, r ≠ rf.me → ∃ request, (r, request) ∈ requests := by
  induction ps generalizing rf with
  | nil => exact ⟨rf, [], rfl, fun r hr => by cases hr⟩
  | cons q ps ih =>
    rw [replicationLoop]
    split
    case isTrue hq =>
      subst hq
      have hself : ∀ r ∈ ps, r ≠ rf.me → (rf.matchSelf.replicationRequest r).isSome := by
        intro r hr hne
        rw [rf.matchSelf_replicationRequest hne]
        exact h r (List.mem_cons_of_mem _ hr) hne
      obtain ⟨rf', requests, hloop, hall⟩ := ih rf.matchSelf hself
      refine ⟨rf', requests, hloop, fun r hr hne => ?_⟩
      rcases List.mem_cons.mp hr with rfl | hr
      · exact absurd rfl hne
      · exact hall r hr hne
    case isFalse hq =>
      obtain ⟨request, hrequest⟩ := Option.isSome_iff_exists.mp (h q (List.mem_cons_self ..) hq)
      obtain ⟨rf', requests, hloop, hall⟩ :=
        ih rf fun r hr => h r (List.mem_cons_of_mem q hr)
      refine ⟨rf', (q, request) :: requests, ?_, fun r hr hne => ?_⟩
      · rw [hrequest, Option.bind_some, hloop, Option.map_some]
      · rcases List.mem_cons.mp hr with rfl | hr
        · exact ⟨request, List.mem_cons_self ..⟩
        · obtain ⟨x, hx⟩ := hall r hr hne
          exact ⟨x, List.mem_cons_of_mem _ hx⟩

/-- At an uncompacted log the request is built from the record before `nextIndex`. -/
theorem exists_replicationRequest {rf : Raft n α} {q : Fin n} (hbase : rf.log.base = 0)
    (hpos : 1 ≤ rf.nextIndex q) (hle : rf.nextIndex q ≤ rf.log.size) :
    ∃ args, rf.replicationRequest q = some (.append args) ∧
      args.prevLogIndex + 1 = rf.nextIndex q := by
  obtain ⟨prev, hprev⟩ : ∃ prev, rf.log.get (rf.nextIndex q - 1) = some prev :=
    Log.exists_get (by omega) (by omega)
  have hidx : ((rf.nextIndex q : ℤ) - 1).toNat = rf.nextIndex q - 1 := by omega
  simp only [replicationRequest]
  rw [if_neg (by omega), hidx, hprev, Option.map_some]
  exact ⟨_, rfl, Nat.sub_add_cancel hpos⟩

theorem replicationRequest_isSome {rf : Raft n α} {q : Fin n} (hbase : rf.log.base = 0)
    (hle : rf.nextIndex q ≤ rf.log.size) : (rf.replicationRequest q).isSome := by
  rcases Nat.eq_zero_or_pos (rf.nextIndex q) with hzero | hpos
  · simp only [replicationRequest]
    rw [if_pos (by omega)]
    rfl
  · obtain ⟨args, hargs, -⟩ := exists_replicationRequest hbase hpos hle
    rw [hargs]
    rfl

/-- The majority index is one of the match indices. -/
theorem getMajorityIndexLocked_lt {rf : Raft n α} {bound : ℕ} (hn : 0 < n)
    (h : ∀ r, rf.matchIndex r < bound) : rf.getMajorityIndexLocked < bound := by
  have hk : (n - 1) / 2 < ((List.ofFn rf.matchIndex).insertionSort (· ≤ ·)).length := by
    rw [List.length_insertionSort, List.length_ofFn]
    omega
  have hmem := List.getElem_mem hk
  rw [List.mem_insertionSort, List.mem_ofFn'] at hmem
  obtain ⟨r, hr⟩ := hmem
  rw [getMajorityIndexLocked, List.getD_eq_getElem _ _ hk, ← hr]
  exact h r

variable [RaftGob α]

/-! ## The two handlers -/

/-- A follower whose log ends before `PrevLogIndex`. -/
theorem appendEntries_short {rf : Raft n α} {args : AppendEntriesArgs n α}
    (hterm : rf.currentTerm ≤ args.term) (hshort : rf.log.size ≤ args.prevLogIndex) :
    rf.appendEntries args = .ok (rf.becomeFollowerLocked args.term)
      { term := rf.currentTerm, conflictTerm := invalidTerm, conflictIndex := rf.log.size } := by
  simp only [appendEntries, becomeFollowerLocked_log]
  rw [if_neg (by omega), if_pos hshort]

/-- A follower with the term asked for at `PrevLogIndex`. -/
theorem appendEntries_accepted {rf : Raft n α} {args : AppendEntriesArgs n α} {prev : LogRecord α}
    (hterm : rf.currentTerm ≤ args.term) (hprev : rf.log.get args.prevLogIndex = some prev)
    (heq : prev.term = args.prevLogTerm) :
    rf.appendEntries args = .ok ((rf.becomeFollowerLocked args.term).acceptEntries args)
      { term := rf.currentTerm, success := true } := by
  have hsize := (Log.bounds_of_get hprev).2
  simp only [appendEntries, becomeFollowerLocked_log]
  rw [if_neg (by omega), if_neg (by omega), hprev]
  exact if_neg (not_not.mpr heq)

/-- A leader that is told of a success records it. It may commit, which changes neither its log nor
what it knows of its peers. -/
theorem replicateToPeer_accepted {rf : Raft n α} {peer : Fin n} {args : AppendEntriesArgs n α}
    {term : ℕ} {reply : AppendEntriesReply} (hlead : ¬ rf.contextLostLocked .leader term)
    (hterm : reply.term ≤ rf.currentTerm) (hsuccess : reply.success = true)
    (hbase : rf.log.base = 0) (hmatched : args.prevLogIndex + args.entries.length < rf.log.size)
    (hlt : ∀ r ≠ peer, rf.matchIndex r < rf.log.size) :
    ∃ rf', rf.replicateToPeer peer args term reply = .ok rf' () ∧ rf'.log = rf.log ∧
      rf'.matchIndex peer = args.prevLogIndex + args.entries.length ∧
      rf'.nextIndex peer = args.prevLogIndex + args.entries.length + 1 := by
  set rf₁ := rf.recordMatch peer (args.prevLogIndex + args.entries.length) with hrf₁
  have hall : ∀ r, rf₁.matchIndex r < rf.log.size := by
    intro r
    by_cases hr : r = peer
    · rw [hr, hrf₁, recordMatch_matchIndex_self]
      exact hmatched
    · rw [hrf₁, recordMatch_matchIndex_of_ne _ _ hr]
      exact hlt r hr
  have hmajority := getMajorityIndexLocked_lt (Nat.zero_lt_of_lt peer.isLt) hall
  obtain ⟨record, hrecord⟩ : ∃ r, rf₁.log.get rf₁.getMajorityIndexLocked = some r :=
    Log.exists_get (by rw [show rf₁.log = rf.log from rfl]; omega) hmajority
  have hmatch : rf₁.matchIndex peer = args.prevLogIndex + args.entries.length :=
    recordMatch_matchIndex_self ..
  have hnext : rf₁.nextIndex peer = args.prevLogIndex + args.entries.length + 1 :=
    Function.update_self ..
  rw [replicateToPeer, if_neg (by omega), if_neg hlead, hsuccess, Bool.not_true,
    if_neg Bool.false_ne_true]
  dsimp only
  rw [← hrf₁, hrecord]
  dsimp only
  split
  · split
    · obtain ⟨ticker, hsignal⟩ := signal_eq { rf₁ with commitIndex := rf₁.getMajorityIndexLocked }
      refine ⟨_, rfl, ?_⟩
      rw [hsignal]
      exact ⟨rfl, hmatch, hnext⟩
    · exact ⟨_, rfl, rfl, hmatch, hnext⟩
  · exact ⟨_, rfl, rfl, hmatch, hnext⟩

/-! ## Rounds -/

/-- One round with follower `q`: the leader's new state, the follower's and its reply. `none` where
one of them panics or another kind of request is sent. -/
def backupRound (q : Fin n) (ld fo : Raft n α) :
    Option (Raft n α × Raft n α × AppendEntriesReply) :=
  match ld.startReplication ld.currentTerm with
  | .ok ld (some requests) =>
    match requests.lookup q with
    | some (.append args) =>
      match fo.appendEntries args with
      | .ok fo reply =>
        match ld.replicateToPeer q args ld.currentTerm reply with
        | .ok ld () => some (ld, fo, reply)
        | .panic _ => none
      | .panic _ => none
    | _ => none
  | _ => none

/-- Rounds until the follower answers `Success`: `nextIndex` after each refused round, and the two
states at the end. `none` also where the fuel runs out. -/
def backup (q : Fin n) : ℕ → Raft n α → Raft n α → Option (List ℕ × Raft n α × Raft n α)
  | 0, _, _ => none
  | fuel + 1, ld, fo =>
    (backupRound q ld fo).bind fun (ld, fo, reply) =>
      if reply.success then some ([], ld, fo)
      else (backup q fuel ld fo).map fun (nexts, ld', fo') => (ld.nextIndex q :: nexts, ld', fo')

end Raft

/-- The leader `ld` and its follower `q` in state `fo`. What is asked of the leader's other peers
is that a round can be built for them. -/
structure BackupSetting (q : Fin n) (ld fo : Raft n α) : Prop where
  leader : ld.role = .leader
  other : q ≠ ld.me
  term_le : fo.currentTerm ≤ ld.currentTerm
  leaderLog : ld.log.Whole
  followerLog : fo.log.Whole
  /-- a term at `i` in one log and at some `j ≥ i` in the other -/
  agree : ∀ i j r r', i ≤ j → r.term = r'.term →
    (ld.log.get i = some r ∧ fo.log.get j = some r' ∨
      fo.log.get i = some r ∧ ld.log.get j = some r') →
    ∀ k ≤ i, fo.log.get k = ld.log.get k
  next_pos : 1 ≤ ld.nextIndex q
  next_le : ∀ r ≠ ld.me, ld.nextIndex r ≤ ld.log.size
  match_lt : ∀ r ≠ q, ld.matchIndex r < ld.log.size

namespace BackupSetting

variable {q : Fin n} {ld fo : Raft n α} (h : BackupSetting q ld fo)

include h

/-- The request of a round. -/
theorem exists_request : ∃ requests args,
    ld.startReplication ld.currentTerm = .ok ld.matchSelf (some requests) ∧
      requests.lookup q = some (.append args) ∧ ld.replicationRequest q = some (.append args) ∧
      args.prevLogIndex + 1 = ld.nextIndex q := by
  have hctx : ¬ ld.contextLostLocked .leader ld.currentTerm := not_not.mpr ⟨rfl, h.leader⟩
  have hsome : ∀ r ∈ List.finRange n, r ≠ ld.me → (ld.replicationRequest r).isSome :=
    fun r _ hr => Raft.replicationRequest_isSome h.leaderLog.base (h.next_le r hr)
  obtain ⟨ld', requests, hloop, hall⟩ := Raft.exists_replicationLoop _ ld hsome
  have hround : ld.startReplication ld.currentTerm = .ok ld' (some requests) := by
    rw [Raft.startReplication, if_neg hctx, hloop]
  obtain ⟨rfl, hrequests⟩ := Raft.startReplication_spec hround
  obtain ⟨args, hargs, hprev⟩ := Raft.exists_replicationRequest h.leaderLog.base h.next_pos
    (h.next_le q h.other)
  refine ⟨requests, args, hround, ?_, hargs, hprev⟩
  obtain ⟨request, hmem⟩ := hall q (List.mem_finRange q) h.other
  obtain ⟨request', hlookup⟩ : ∃ x, requests.lookup q = some x := by
    rw [← Option.isSome_iff_exists, List.lookup_isSome_iff]
    exact ⟨_, hmem, by simp⟩
  obtain ⟨before, after, hsplit, -⟩ := List.lookup_eq_some_iff.mp hlookup
  have hsent := (hrequests (q, request') (by simp [hsplit])).2
  rw [hlookup, ← hsent, hargs]

/-- The log of a follower that has the leader's term at `PrevLogIndex`. -/
theorem splice_eq {args : AppendEntriesArgs n α} {prev : LogRecord α}
    (hsent : ld.replicationRequest q = some (.append args))
    (hprev : fo.log.get args.prevLogIndex = some prev) (hterm : prev.term = args.prevLogTerm) :
    fo.log.spliceAfter args.prevLogIndex args.entries = ld.log := by
  obtain ⟨hbase, hsize⟩ := Log.bounds_of_get hprev
  obtain ⟨r, hr, hrterm, -⟩ := Raft.replicationRequest_append hsent
  refine Log.eq_of_get (h.followerLog.base.trans h.leaderLog.base.symm) fun k => ?_
  rw [Log.get_spliceAfter_sent hsent hbase hsize]
  split
  case isTrue hk =>
    exact h.agree _ _ prev r (Nat.le_refl _) (hterm.trans hrterm) (Or.inr ⟨hprev, hr⟩) k hk
  case isFalse => rfl

/-- A conflict at `PrevLogIndex`: the leader's first record of the follower's term there, or the
follower's if the leader has none, is before `PrevLogIndex` or at it, and after the placeholder. -/
theorem conflictHint_bounds (reply : AppendEntriesReply) {args : AppendEntriesArgs n α}
    {prev : LogRecord α} (hsent : ld.replicationRequest q = some (.append args))
    (hprev : fo.log.get args.prevLogIndex = some prev) (hne : prev.term ≠ args.prevLogTerm)
    (hterm : reply.conflictTerm = prev.term)
    (hindex : reply.conflictIndex = fo.log.firstLogFor prev.term) :
    1 ≤ ld.conflictHint reply ∧ ld.conflictHint reply ≤ args.prevLogIndex := by
  obtain ⟨r, hr, hrterm, -⟩ := Raft.replicationRequest_append hsent
  have hprevpos : 0 < args.prevLogIndex := by
    -- the placeholders are of one term
    refine Nat.pos_of_ne_zero fun hzero => hne ?_
    rw [hzero] at hprev hr
    obtain ⟨x, hx, hxterm⟩ := h.followerLog.get_zero
    obtain ⟨y, hy, hyterm⟩ := h.leaderLog.get_zero
    rw [hprev] at hx
    rw [hr] at hy
    rw [hrterm, Option.some.inj hx, Option.some.inj hy, hxterm, hyterm]
  have hpos : 0 < prev.term := h.followerLog.pos _ prev hprevpos hprev
  by_cases hup : ∃ m, ld.LooksUp reply m
  · obtain ⟨m, hm⟩ := hup
    have hfirst : ld.log.FirstOf prev.term m := hterm ▸ hm.2
    have hmpos := h.leaderLog.firstOf_pos hpos hfirst
    have hfinds : ld.Finds reply m :=
      ⟨by rw [h.leaderLog.base]; exact hmpos, h.leaderLog.sorted.below hm.2⟩
    rw [Raft.conflictHint_of_finds hm hfinds, h.leaderLog.base, Nat.sub_zero]
    refine ⟨hmpos, Nat.not_lt.mp fun hlt => hne ?_⟩
    -- a later first record would mean that the logs agree at `PrevLogIndex`
    obtain ⟨x, hx, hxterm⟩ := hfirst.here
    have hagree := h.agree _ _ prev x (Nat.le_of_lt hlt) hxterm.symm (Or.inr ⟨hprev, hx⟩)
      args.prevLogIndex (Nat.le_refl _)
    rw [hprev, hr] at hagree
    rw [hrterm, Option.some.inj hagree]
  · have hnone : ∀ m, ld.LooksUp reply m → ¬ ld.Finds reply m :=
      fun m hm => absurd ⟨m, hm⟩ hup
    obtain ⟨m, hle, hfirst⟩ := Log.exists_firstOf hprev
    rw [Raft.conflictHint_of_not_finds hnone, hindex, h.followerLog.firstLogFor_eq hfirst]
    exact ⟨h.followerLog.firstOf_pos hpos hfirst, hle⟩

/-- The leader counts replies to this round. -/
theorem not_contextLost : ¬ ld.matchSelf.contextLostLocked .leader ld.currentTerm :=
  not_not.mpr ⟨rfl, h.leader⟩

theorem matchSelf_match_lt (r : Fin n) (hr : r ≠ q) : ld.matchSelf.matchIndex r < ld.log.size := by
  have hsize := ld.log.base_lt_size
  simp only [Raft.matchSelf]
  by_cases hme : r = ld.me
  · rw [hme, Function.update_self]
    omega
  · rw [Function.update_of_ne hme]
    exact h.match_lt r hr

variable [RaftGob α]

omit h in
/-- A round, once its request is known. -/
theorem backupRound_eq {requests : List (Fin n × ReplicationRequest n α)}
    {args : AppendEntriesArgs n α} {ld' fo' : Raft n α} {reply : AppendEntriesReply}
    (hround : ld.startReplication ld.currentTerm = .ok ld.matchSelf (some requests))
    (hlookup : requests.lookup q = some (.append args))
    (hfollower : fo.appendEntries args = .ok fo' reply)
    (hleader : ld.matchSelf.replicateToPeer q args ld.currentTerm reply = .ok ld' ()) :
    Raft.backupRound q ld fo = some (ld', fo', reply) := by
  have hleader' : ld.matchSelf.replicateToPeer q args ld.matchSelf.currentTerm reply = .ok ld' () :=
    hleader
  simp only [Raft.backupRound, hround, hlookup, hfollower, hleader']

/-- What a refused round leaves. -/
theorem refused {next : ℕ} (hpos : 1 ≤ next) (hlt : next < ld.nextIndex q) :
    BackupSetting q
      { ld.matchSelf with nextIndex := Function.update ld.matchSelf.nextIndex q next }
      (fo.becomeFollowerLocked ld.currentTerm) where
  leader := h.leader
  other := h.other
  term_le := by
    rw [Raft.becomeFollowerLocked_currentTerm]
    exact Nat.max_le.mpr ⟨h.term_le, Nat.le_refl _⟩
  leaderLog := h.leaderLog
  followerLog := by
    rw [Raft.becomeFollowerLocked_log]
    exact h.followerLog
  agree := by
    rw [Raft.becomeFollowerLocked_log]
    exact h.agree
  next_pos := by
    simp only [Function.update_self]
    exact hpos
  next_le r hr := by
    have hle := h.next_le r hr
    by_cases hq : r = q
    · subst hq
      simp only [Function.update_self]
      exact (Nat.le_of_lt hlt).trans hle
    · simp only [Function.update_of_ne hq, ld.matchSelf_nextIndex_of_ne hr]
      exact hle
  match_lt := h.matchSelf_match_lt

/-- A round in which the follower refuses, with a candidate below `nextIndex`. -/
theorem round_refused {requests : List (Fin n × ReplicationRequest n α)}
    {args : AppendEntriesArgs n α} {reply : AppendEntriesReply}
    (hround : ld.startReplication ld.currentTerm = .ok ld.matchSelf (some requests))
    (hlookup : requests.lookup q = some (.append args))
    (hfollower : fo.appendEntries args = .ok (fo.becomeFollowerLocked ld.currentTerm) reply)
    (hterm : reply.term = fo.currentTerm) (hsuccess : reply.success = false)
    (hpos : 1 ≤ ld.conflictHint reply) (hlt : ld.conflictHint reply < ld.nextIndex q) :
    ∃ ld' fo', Raft.backupRound q ld fo = some (ld', fo', reply) ∧ ld'.log = ld.log ∧
      ld'.nextIndex q < ld.nextIndex q ∧ BackupSetting q ld' fo' := by
  have hnext : ld.matchSelf.conflictNext q reply = ld.conflictHint reply := by
    rw [Raft.conflictNext_eq_min, ld.matchSelf_nextIndex_of_ne h.other]
    exact Nat.min_eq_left (Nat.le_of_lt hlt)
  have hleader : ld.matchSelf.replicateToPeer q args ld.currentTerm reply = _ :=
    Raft.replicateToPeer_refused h.not_contextLost (hterm ▸ h.term_le) hsuccess
  rw [hnext] at hleader
  refine ⟨_, _, backupRound_eq hround hlookup hfollower hleader, rfl, ?_, h.refused hpos hlt⟩
  simp only [Function.update_self]
  exact hlt

/-- A round in which the follower accepts. -/
theorem round_accepted {requests : List (Fin n × ReplicationRequest n α)}
    {args : AppendEntriesArgs n α} {prev : LogRecord α}
    (hround : ld.startReplication ld.currentTerm = .ok ld.matchSelf (some requests))
    (hlookup : requests.lookup q = some (.append args))
    (hsent : ld.replicationRequest q = some (.append args))
    (hprev : fo.log.get args.prevLogIndex = some prev) (hterm : prev.term = args.prevLogTerm) :
    ∃ ld' fo' reply, Raft.backupRound q ld fo = some (ld', fo', reply) ∧ ld'.log = ld.log ∧
      reply.success = true ∧ fo'.log = ld.log ∧ ld'.matchIndex q = ld.log.size - 1 ∧
      ld'.nextIndex q = ld.log.size := by
  obtain ⟨-, -, -, -, hargs, -⟩ := Raft.replicationRequest_append hsent
  obtain ⟨-, hsize, -⟩ := Raft.replicationRequest_entries hsent
  have hfollower := Raft.appendEntries_accepted (hargs ▸ h.term_le) hprev hterm
  have hmatched : args.prevLogIndex + args.entries.length < ld.matchSelf.log.size := by
    have hsame : ld.matchSelf.log.size = ld.log.size := rfl
    omega
  have hle : ({ term := fo.currentTerm, success := true } : AppendEntriesReply).term ≤
      ld.matchSelf.currentTerm := h.term_le
  obtain ⟨ld', hleader, hlog, hmatch, hnext⟩ := Raft.replicateToPeer_accepted h.not_contextLost hle
    rfl h.leaderLog.base hmatched h.matchSelf_match_lt
  refine ⟨ld', _, _, backupRound_eq hround hlookup hfollower hleader, hlog, rfl, ?_, ?_, ?_⟩
  · rw [Raft.acceptEntries_log, Raft.becomeFollowerLocked_log]
    exact h.splice_eq hsent hprev hterm
  · omega
  · omega

/-- A round ends in agreement, or lowers `nextIndex` and can be repeated. -/
theorem round : ∃ ld' fo' reply, Raft.backupRound q ld fo = some (ld', fo', reply) ∧
    ld'.log = ld.log ∧
    (reply.success = true ∧ fo'.log = ld.log ∧ ld'.matchIndex q = ld.log.size - 1 ∧
        ld'.nextIndex q = ld.log.size ∨
      reply.success = false ∧ ld'.nextIndex q < ld.nextIndex q ∧ BackupSetting q ld' fo') := by
  obtain ⟨requests, args, hround, hlookup, hsent, hprevIndex⟩ := h.exists_request
  obtain ⟨-, -, -, -, hargs, -⟩ := Raft.replicationRequest_append hsent
  have hle : fo.currentTerm ≤ args.term := hargs ▸ h.term_le
  by_cases hshort : fo.log.size ≤ args.prevLogIndex
  · have hfollower := Raft.appendEntries_short hle hshort
    have hsize := fo.log.base_lt_size
    rw [hargs] at hfollower
    obtain ⟨ld', fo', hok, hlog, hlt, hsetting⟩ :=
      h.round_refused hround hlookup hfollower rfl rfl (show 1 ≤ fo.log.size by omega)
        (show fo.log.size < _ by omega)
    exact ⟨ld', fo', _, hok, hlog, Or.inr ⟨rfl, hlt, hsetting⟩⟩
  · obtain ⟨prev, hprev⟩ : ∃ prev, fo.log.get args.prevLogIndex = some prev :=
      Log.exists_get (by rw [h.followerLog.base]; exact Nat.zero_le _) (Nat.not_le.mp hshort)
    by_cases hterm : prev.term = args.prevLogTerm
    · obtain ⟨ld', fo', reply, hok, hlog, hdone⟩ :=
        h.round_accepted hround hlookup hsent hprev hterm
      exact ⟨ld', fo', reply, hok, hlog, Or.inl hdone⟩
    · have hfollower := Raft.appendEntries_conflict hle hprev hterm
      rw [hargs] at hfollower
      obtain ⟨hpos, hhint⟩ := h.conflictHint_bounds
        { term := fo.currentTerm
          conflictTerm := prev.term
          conflictIndex := fo.log.firstLogFor prev.term } hsent hprev hterm rfl rfl
      obtain ⟨ld', fo', hok, hlog, hlt, hsetting⟩ :=
        h.round_refused hround hlookup hfollower rfl rfl hpos (by omega)
      exact ⟨ld', fo', _, hok, hlog, Or.inr ⟨rfl, hlt, hsetting⟩⟩

/-- Backing up ends within `nextIndex` rounds. Every refused round lowers `nextIndex`, never below
`1`; the last one leaves the follower with the leader's log and the leader knowing it. -/
theorem backup_ends {fuel : ℕ} (hfuel : ld.nextIndex q ≤ fuel) :
    ∃ nexts ld' fo', Raft.backup q fuel ld fo = some (nexts, ld', fo') ∧
      (ld.nextIndex q :: nexts).Pairwise (· > ·) ∧ (∀ next ∈ nexts, 1 ≤ next) ∧
      fo'.log = ld.log ∧ ld'.log = ld.log ∧ ld'.matchIndex q = ld.log.size - 1 ∧
      ld'.nextIndex q = ld.log.size := by
  -- the induction is on the fuel, which bounds `nextIndex`
  induction fuel generalizing ld fo with
  | zero => exact absurd (h.next_pos.trans hfuel) (by decide)
  | succ fuel ih =>
    obtain ⟨ld₁, fo₁, reply, hround, hlog, ⟨hyes, hdone⟩ | ⟨hno, hlt, hsetting⟩⟩ := h.round
    · obtain ⟨hfollower, hmatch, hnext⟩ := hdone
      refine ⟨[], ld₁, fo₁, ?_, List.pairwise_singleton _ _, fun _ hx => (by cases hx), hfollower,
        hlog, hmatch, hnext⟩
      simp only [Raft.backup, hround, Option.bind_some, hyes, if_true]
    · obtain ⟨nexts, ld', fo', hrest, hdesc, hpos, hfollower, hlog', hmatch, hnext⟩ :=
        ih hsetting (by omega)
      rw [hlog] at hfollower hlog' hmatch hnext
      refine ⟨ld₁.nextIndex q :: nexts, ld', fo', ?_, ?_, ?_, hfollower, hlog', hmatch, hnext⟩
      · simp only [Raft.backup, hround, Option.bind_some, hno, hrest, Option.map_some]
        rfl
      · refine List.pairwise_cons.mpr ⟨fun next hmem => ?_, hdesc⟩
        rcases List.mem_cons.mp hmem with rfl | hmem
        · exact hlt
        · exact lt_trans ((List.pairwise_cons.mp hdesc).1 next hmem) hlt
      · exact List.forall_mem_cons.mpr ⟨hsetting.next_pos, hpos⟩

end BackupSetting

/-- A leader of term 3 with records of the terms 1 and 3. -/
def leaderOfThree : Raft 2 ℕ :=
  { (Raft.make 0 {} : Raft 2 ℕ) with
    role := .leader, currentTerm := 3, nextIndex := fun _ => 3
    log := Log.fresh 0 0 [⟨1, true, some 4⟩, ⟨3, true, some 7⟩] }

/-- A follower that has two records of a leader of term 2 after the first. -/
def followerOfTwo : Raft 2 ℕ :=
  { (Raft.make 1 {} : Raft 2 ℕ) with
    currentTerm := 2
    log := Log.fresh 0 0 [⟨1, true, some 4⟩, ⟨2, true, some 5⟩, ⟨2, true, some 6⟩] }

theorem Log.whole_of_decide {l : Log α} (hbase : l.base = 0) (hfirst : l.baseTerm = 0)
    (hpos : ∀ r ∈ l.records.tail, 0 < r.term) (hsorted : l.TermsSorted) : l.Whole where
  base := hbase
  first := hfirst
  pos k r hk hr := by
    rw [Log.get_of_base_le _ (by omega), hbase, Nat.sub_zero] at hr
    refine hpos r (List.mem_of_getElem? (i := k - 1) ?_)
    rw [List.getElem?_tail, Nat.sub_add_cancel hk]
    exact hr
  sorted := hsorted

theorem backupSetting_of_terms : BackupSetting 1 leaderOfThree followerOfTwo where
  leader := rfl
  other := by decide
  term_le := by decide
  leaderLog := Log.whole_of_decide rfl rfl (by decide) (by decide)
  followerLog := Log.whole_of_decide rfl rfl (by decide) (by decide)
  agree i j r r' _ hterm hheld k hk := by
    -- the two logs share the terms 0 and 1 only, and the records of these
    have hterms : ∀ i < 3, ∀ j < 4, (leaderOfThree.log.get i).map LogRecord.term =
        (followerOfTwo.log.get j).map LogRecord.term → i < 2 ∧ j < 2 := by
      decide
    have hcommon : ∀ k < 2, followerOfTwo.log.get k = leaderOfThree.log.get k := by decide
    have hshared : ∀ i j r r', leaderOfThree.log.get i = some r →
        followerOfTwo.log.get j = some r' → r.term = r'.term → i < 2 ∧ j < 2 := by
      intro i j r r' hr hr' hterm
      refine hterms i (Log.bounds_of_get hr).2 j (Log.bounds_of_get hr').2 ?_
      rw [hr, hr', Option.map_some, Option.map_some, hterm]
    rcases hheld with ⟨hr, hr'⟩ | ⟨hr, hr'⟩
    · exact hcommon k (Nat.lt_of_le_of_lt hk (hshared i j r r' hr hr' hterm).1)
    · exact hcommon k (Nat.lt_of_le_of_lt hk (hshared j i r' r hr' hr hterm.symm).2)
  next_pos := by decide
  next_le := by decide
  match_lt := by decide

/-- The follower gives its two records of term 2 up. -/
theorem backup_ends_of_terms : ∃ nexts ld' fo',
    Raft.backup 1 3 leaderOfThree followerOfTwo = some (nexts, ld', fo') ∧
      fo'.log = leaderOfThree.log ∧ ld'.matchIndex 1 = 2 ∧ ld'.nextIndex 1 = 3 := by
  obtain ⟨nexts, ld', fo', hok, -, -, hlog, -, hmatch, hnext⟩ :=
    backupSetting_of_terms.backup_ends (Nat.le_refl 3)
  exact ⟨nexts, ld', fo', hok, hlog, hmatch, hnext⟩

end LogicRaft
