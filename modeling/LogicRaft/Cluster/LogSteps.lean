import LogicRaft.Cluster.Persistence

/-!
# What a step does to the log and the snapshot

A step leaves the log of its peer alone, or it is one of four: `Start` appends a record,
`AppendEntries` splices entries in, `Snapshot` and `InstallSnapshot` move the base. Only the last
two change the saved snapshot. `Does.logStep` reads this off the cases of a step once, and
`Does.progressStep` does the same for what a leader has recorded of its peers.
-/

namespace LogicRaft

variable {n : ℕ} {α : Type} [RaftGob α]

/-- What a step does to the log of its peer and to the saved snapshot. -/
inductive LogStep (p : Peer n α) (c : Cause n α) (e : Effect n α) : Prop
  | kept (hlog : e.peer.rf.log = p.rf.log)
      (hsnapshot : e.peer.rf.persister.snapshot = p.rf.persister.snapshot)
      (hev : ∀ q index term command, .accepted q index term command ∉ e.events)
  | accepted {command : α} (hrole : p.rf.role = .leader)
      (hlog : e.peer.rf.log = p.rf.log.append
        { term := p.rf.currentTerm, commandValid := true, command := some command })
      (hsnapshot : e.peer.rf.persister.snapshot = p.rf.persister.snapshot)
      (hterm : e.peer.rf.currentTerm = p.rf.currentTerm)
      (hev : e.events = [.accepted p.rf.me p.rf.log.size p.rf.currentTerm command])
  | appended {call : Packet n α} {term : ℕ} {args : AppendEntriesArgs n α} {prev : LogRecord α}
      (hcause : c = .packet call) (hcall : call.payload = .appendRequest term args)
      (hterm : p.rf.currentTerm ≤ args.term) (hprev : p.rf.log.get args.prevLogIndex = some prev)
      (hmatch : prev.term = args.prevLogTerm)
      (hlog : e.peer.rf.log = p.rf.log.spliceAfter args.prevLogIndex args.entries)
      (hsnapshot : e.peer.rf.persister.snapshot = p.rf.persister.snapshot)
      (hcur : e.peer.rf.currentTerm = args.term) (hrole : e.peer.rf.role = .follower)
  | compacted {index : ℕ} {data : Option Bytes} {last : LogRecord α}
      (hcause : c = .own (.snapshot index data)) (hbase : p.rf.log.base ≤ index)
      (hlast : p.rf.log.get index = some last)
      (hlog : e.peer.rf.log = Log.fresh index last.term (p.rf.log.suffixFrom (index + 1)))
      (hsnapshot : e.peer.rf.persister.snapshot = data.getD p.rf.persister.snapshot)
      (hev : e.events = [.compacted p.rf.me index last.term data])
  | installed {call : Packet n α} {term : ℕ} {args : InstallSnapshotArgs n}
      (hcause : c = .packet call) (hcall : call.payload = .snapshotRequest term args)
      (hindex : p.rf.log.base < args.lastIncludedIndex)
      (hlog : e.peer.rf.log = Log.fresh args.lastIncludedIndex args.lastIncludedTerm
        (p.rf.log.suffixFrom (args.lastIncludedIndex + 1)))
      (hsnapshot : e.peer.rf.persister.snapshot =
        if args.data = [] then p.rf.persister.snapshot else args.data)
      (hrole : e.peer.rf.role = .follower)

variable {p : Peer n α} {c : Cause n α} {e : Effect n α}

theorem Does.logStep (h : Does p c e) (hs : p.rf.Saved) : LogStep p c e := by
  cases h with
  | crashed =>
    have hrf := Peer.crash_rf (p := p) rfl hs
    refine .kept (by rw [hrf]; rfl) (by rw [hrf]; rfl) ?_
    simp [Peer.crash]
  | @appendPanicked _ _ args =>
    have hrf := Peer.crash_rf (p := p) (Raft.becomeFollowerLocked_me _ args.term)
      (hs.becomeFollowerLocked _)
    refine .kept ?_ ?_ (by simp [Peer.crash])
    · rw [hrf]
      exact Raft.becomeFollowerLocked_log _ _
    · rw [hrf]
      exact Raft.becomeFollowerLocked_snapshot _ _
  | timedOut _ hrole =>
    have hrf := Raft.becomeCandidateLocked_of_ne _ hrole
    exact .kept (by rw [hrf]; rfl) (by rw [hrf]; rfl) (by simp)
  | won _ _ _ _ hrole =>
    have hrf := Raft.becomeLeaderLocked_of_eq _ hrole
    exact .kept (by rw [hrf]) (by rw [hrf]) (by simp)
  | accepted _ hrole => exact .accepted hrole rfl rfl rfl rfl
  | compacted _ _ hbase hlast => exact .compacted rfl hbase hlast rfl rfl rfl
  | voteRefused | appendRefused | snapshotRefused | steppedDown =>
    exact .kept (by simp) (by simp) (by simp)
  | voted =>
    refine .kept ?_ ?_ (by simp)
    · exact Raft.alignTerm_log _ _
    · exact Raft.alignTerm_snapshot _ _
  | appended _ hcall hterm hprev hmatch =>
    refine .appended rfl hcall hterm hprev hmatch (by simp) (by simp) ?_ ?_
    · simpa using hterm
    · rw [Raft.acceptEntries_role, Raft.becomeFollowerLocked_role, if_neg (by omega)]
  | @installed _ _ args _ hcall hterm hindex =>
    refine .installed rfl hcall hindex ?_ ?_ ?_
    · simp only [Raft.adoptSnapshot, Raft.persistLocked, Raft.becomeFollowerLocked_log]
    · simp only [Raft.adoptSnapshot, Raft.persistLocked, Raft.becomeFollowerLocked_snapshot]
      split <;> rfl
    · have hrole := Raft.becomeFollowerLocked_role p.rf args.term
      rw [if_neg (by omega)] at hrole
      exact hrole
  | committed _ _ _ _ _ _ hrf =>
    subst hrf
    refine .kept (by simp [Raft.recordMatch]) ?_ (by simp)
    obtain ⟨ticker, heq⟩ := Raft.signal_eq { p.rf.recordMatch _ _ with
      commitIndex := (p.rf.recordMatch _ _).getMajorityIndexLocked }
    rw [heq]
    rfl
  | _ => exact .kept rfl rfl (by simp)

omit [RaftGob α] in
/-- Who is leader after a step has a log that is at least as long. -/
theorem LogStep.size_le (h : LogStep p c e) (hlead : e.peer.rf.role = .leader) :
    p.rf.log.size ≤ e.peer.rf.log.size := by
  cases h with
  | kept hlog => rw [hlog]
  | accepted _ hlog =>
    rw [hlog, Log.size_append]
    exact Nat.le_succ _
  | compacted _ hbase _ hlog =>
    rw [hlog, Log.size_fresh_suffixFrom _ _ hbase]
    exact Nat.le_max_left _ _
  | appended _ _ _ _ _ _ _ _ hfollower =>
    rw [hfollower] at hlead
    cases hlead
  | installed _ _ _ _ _ hfollower =>
    rw [hfollower] at hlead
    cases hlead

/-- What a step does to the `matchIndex` and `nextIndex` of a peer that is leader after it. -/
inductive ProgressStep (p : Peer n α) (c : Cause n α) (e : Effect n α) : Prop
  | kept (hrole : p.rf.role = .leader) (hmatch : e.peer.rf.matchIndex = p.rf.matchIndex)
      (hnext : e.peer.rf.nextIndex = p.rf.nextIndex)
  | won (hrole : p.rf.role = .candidate) (hlog : e.peer.rf.log = p.rf.log)
      (hmatch : e.peer.rf.matchIndex = fun _ => p.rf.log.base)
      (hnext : e.peer.rf.nextIndex = fun _ => p.rf.log.size)
  | replicated (hrole : p.rf.role = .leader) (hrf : e.peer.rf = p.rf.matchSelf)
  | conflicted {m : Packet n α} {term : ℕ} {args : AppendEntriesArgs n α}
      {reply : AppendEntriesReply} (hcause : c = .packet m)
      (hm : m.payload = .appendReply term args reply) (hreply : reply.term ≤ p.rf.currentTerm)
      (hterm : p.rf.currentTerm = term) (hrole : p.rf.role = .leader)
      (hsuccess : reply.success = false) (hmatch : e.peer.rf.matchIndex = p.rf.matchIndex)
      (hnext : e.peer.rf.nextIndex =
        Function.update p.rf.nextIndex m.src (p.rf.conflictNext m.src reply))
  | matched {m : Packet n α} {term : ℕ} {args : AppendEntriesArgs n α}
      {reply : AppendEntriesReply} (hcause : c = .packet m)
      (hm : m.payload = .appendReply term args reply) (hterm : p.rf.currentTerm = term)
      (hrole : p.rf.role = .leader) (hsuccess : reply.success = true)
      (hmatch : e.peer.rf.matchIndex =
        Function.update p.rf.matchIndex m.src (args.prevLogIndex + args.entries.length))
      (hnext : e.peer.rf.nextIndex =
        Function.update p.rf.nextIndex m.src (args.prevLogIndex + args.entries.length + 1))
  | snapshotAcked {m : Packet n α} {term : ℕ} {args : InstallSnapshotArgs n}
      {reply : InstallSnapshotReply} (hcause : c = .packet m)
      (hm : m.payload = .snapshotReply term args reply) (hinc : m.incarnation = p.incarnation)
      (hrole : p.rf.role = .leader)
      (hmatch : e.peer.rf.matchIndex =
        Function.update p.rf.matchIndex m.src args.lastIncludedIndex)
      (hnext : e.peer.rf.nextIndex =
        Function.update p.rf.nextIndex m.src (args.lastIncludedIndex + 1))

theorem Does.progressStep (h : Does p c e) (hs : p.rf.Saved) (hlead : e.peer.rf.role = .leader) :
    ProgressStep p c e := by
  cases h with
  | crashed =>
    rw [Peer.crash_rf rfl hs] at hlead
    cases hlead
  | appendPanicked =>
    rw [Peer.crash_rf (Raft.becomeFollowerLocked_me _ _) (hs.becomeFollowerLocked _)] at hlead
    cases hlead
  | timedOut _ hrole =>
    rw [Raft.becomeCandidateLocked_of_ne _ hrole] at hlead
    cases hlead
  | replicated _ _ _ hrole => exact .replicated hrole rfl
  | voteRefused =>
    have hsame := Raft.alignTerm_of_leader _ _ hlead
    rw [hsame] at hlead
    exact .kept hlead (by rw [hsame]) (by rw [hsame])
  | @voted _ _ args =>
    have hsame := Raft.alignTerm_of_leader p.rf args.term hlead
    rw [hsame] at hlead
    exact .kept hlead (by rw [hsame]; rfl) (by rw [hsame]; rfl)
  | appendRefused | snapshotRefused | steppedDown =>
    have hsame := Raft.becomeFollowerLocked_of_leader _ hlead
    rw [hsame] at hlead
    exact .kept hlead (by rw [hsame]) (by rw [hsame])
  | appended _ _ hterm =>
    rw [Raft.acceptEntries_role, Raft.becomeFollowerLocked_role, if_neg (by omega)] at hlead
    cases hlead
  | @installed _ _ args _ _ hterm =>
    have hrole : (p.rf.becomeFollowerLocked args.term).role = .leader := hlead
    rw [Raft.becomeFollowerLocked_role, if_neg (by omega)] at hrole
    cases hrole
  | won _ _ _ _ hrole =>
    have hrf := Raft.becomeLeaderLocked_of_eq _ hrole
    exact .won hrole (by rw [hrf]) (by rw [hrf]) (by rw [hrf])
  | conflicted _ _ hm hreply hterm hrole hsuccess =>
    exact .conflicted rfl hm hreply hterm hrole hsuccess rfl rfl
  | matched _ _ hm hterm hrole hsuccess => exact .matched rfl hm hterm hrole hsuccess rfl rfl
  | committed _ _ hm hterm hrole hsuccess hrf =>
    subst hrf
    exact .matched rfl hm hterm hrole hsuccess (Raft.signal_matchIndex _) (Raft.signal_nextIndex _)
  | snapshotAcked _ hinc hm => exact .snapshotAcked rfl hm hinc hlead rfl rfl
  | _ => exact .kept hlead rfl rfl

omit [RaftGob α] in
/-- The requests of a replication round. -/
def Payload.isRound : Payload n α → Bool
  | .appendRequest .. | .snapshotRequest .. => true
  | _ => false

/-- The requests of a round are built from the log of a leader. -/
theorem Does.round_of_mem (h : Does p c e) (hinst : p.InstallOk) {m : Packet n α}
    (hm : m ∈ e.sends) (hround : m.payload.isRound = true) :
    (∃ k, c = .own (.replicationTick k) ∧ p.replicationTickers[k]? = some p.rf.currentTerm) ∧
      p.rf.role = .leader ∧ e.peer.rf = p.rf.matchSelf ∧ e.events = [] ∧
      ∃ x, x.1 ≠ p.rf.me ∧ p.rf.replicationRequest x.1 = some x.2 ∧
        m = p.replicationCall p.rf.currentTerm x := by
  cases h with
  | replicated _ hk hterm hrole hreq =>
    obtain ⟨x, hx, rfl⟩ := List.mem_map.mp hm
    subst hterm
    exact ⟨⟨_, rfl, hk⟩, hrole, rfl, rfl, x, (hreq x hx).1, (hreq x hx).2, rfl⟩
  | votesAsked =>
    obtain ⟨q, -, rfl⟩ := List.mem_map.mp hm
    cases hround
  | @installDone msg reply hblocked =>
    obtain ⟨term, args, r, -, hreply⟩ := hinst msg reply hblocked
    obtain rfl := List.mem_singleton.mp hm
    rw [hreply] at hround
    cases hround
  | voteRefused | voted | appendRefused | appended | snapshotRefused =>
    obtain rfl := List.mem_singleton.mp hm
    cases hround
  | _ => cases hm

end LogicRaft
