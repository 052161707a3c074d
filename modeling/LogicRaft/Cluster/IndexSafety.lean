import LogicRaft.Cluster.LogSteps
import LogicRaft.Cluster.Safety

/-!
# Indices into the log

`applicationTicker` and `Snapshot` read the log at indices up to `commitIndex`, and `AppendEntries`
reads it at the index a request names. None of them looks at both ends of the log first.

* Reading up to `commitIndex` is safe as long as no request takes back what was acknowledged in its
  term and none is altered before it is encoded (`commit_in_log`). The source lets a delayed request
  take a committed record away (`committed_record_dropped`).
* `AppendEntries` compares the index of a request with `log.size()` and not with `log.Base`. It
  panics exactly when a request that is not stale names an index below the base
  (`append_index_safe`), and such a request can be on its way (`request_below_base`).
-/

namespace LogicRaft

variable {n : ℕ} {α : Type}

/-- The entries of a leader replace no committed record of a follower. -/
theorem NodeOk.get_splice_of_le {H : Logs α} {acked : Fin n → ℕ → ℕ → Prop} {p : Fin n}
    {rf : Raft n α} {src : ℕ} {args : AppendEntriesArgs n α} {prev : LogRecord α}
    (h : NodeOk H acked p rf src) (hargs : EntriesOk H acked args)
    (hT : H.Complete acked args.term) (hcur : rf.currentTerm ≤ args.term)
    (hprev : rf.log.get args.prevLogIndex = some prev) (hmatch : prev.term = args.prevLogTerm)
    (hkeep : KeepsAcks acked p args) {k : ℕ} (hk : k ≤ rf.commitIndex) :
    (rf.log.spliceAfter args.prevLogIndex args.entries).get k = rf.log.get k := by
  obtain ⟨hbase, hsize⟩ := Log.bounds_of_get hprev
  have hlt := h.commit_lt_splice hargs hT hcur hbase hkeep
  by_cases hb : rf.log.base < k
  · -- both are the record that the leader of the request has there
    obtain ⟨r, hget, hr⟩ := h.chosen k hb hk
    rw [h.get_splice hargs hprev hmatch hb (by omega), hget]
    exact ((hr.mono hcur).get hT).1
  · rw [Log.get_spliceAfter _ hbase hsize, if_pos (by omega)]

namespace System

variable [RaftGob α] {s t : System n α} {a : Action n α} {p : Fin n}

/-- Accepting a request that loses no tail changes no committed record. -/
theorem Rooted.get_of_append {H : Logs α} (h : s.Rooted H) (hs : s.Reachable) (hled : s.Led)
    (hsafe : s.LogSafe a) {m : Packet n α} {term : ℕ} {args : AppendEntriesArgs n α}
    (htarget : s.target a = some (p, .packet m)) (hm : m.payload = .appendRequest term args)
    (hstep : s.step a = some t) {k : ℕ} (hk : k ≤ (s.peers p).rf.commitIndex) :
    (t.peers p).rf.log.get k = (s.peers p).rf.log.get k := by
  obtain ⟨q, c, e, htarget', hdoes, rfl⟩ := step_cases hstep
  rw [htarget] at htarget'
  obtain ⟨rfl, rfl⟩ := Prod.mk.inj (Option.some.inj htarget')
  rw [install_peers_self]
  obtain ⟨src, hnode, -⟩ := h.nodes p
  have hlt := hnode.commit_lt
  cases hdoes.logStep (hs.saved p) with
  | kept hlog => rw [hlog]
  | @appended call term' args' prev hcause hcall hterm hprev hmatch hlog =>
    obtain rfl := Cause.packet.inj hcause
    have hargs := (h.entriesOk (mem_of_target htarget).1 hcall).1
    obtain ⟨r₀, hr₀, -⟩ := hargs.prev
    rw [hlog]
    exact hnode.get_splice_of_le hargs (h.complete (LeaderLogs.ne_nil hr₀)) hterm hprev hmatch
      (h.keepsAcks hs hled htarget hsafe.2 hcall hterm hprev hmatch) hk
  | accepted _ hlog => rw [hlog, Log.get_append, if_neg (by omega)]
  | compacted hcause => cases hcause
  | installed hcause hcall =>
    obtain rfl := Cause.packet.inj hcause
    rw [hm] at hcall
    cases hcall

/-- In a run in which no election that is over is won, no request is accepted that ends before one
accepted in the same term, and no request is altered before it is encoded, the commit index of every
peer is inside its log, the next such request changes no record up to it, and reading there finds a
record. -/
theorem commit_in_log {x : Sharing n α (System n α)}
    (h : (host n α).SharesUnaltered LogSafe init x) (p : Fin n) :
    (x.state.peers p).rf.log.base ≤ (x.state.peers p).rf.commitIndex ∧
      (x.state.peers p).rf.commitIndex < (x.state.peers p).rf.log.size ∧
      (∀ (a : Action n α) (cap : ℕ) (y : Sharing n α (System n α)) (m : Packet n α) (term : ℕ)
        (args : AppendEntriesArgs n α), x.state.LogSafe a →
          x.state.target a = some (p, .packet m) → m.payload = .appendRequest term args →
          (host n α).sharingStep x (.move a cap) = some y →
          ∀ k ≤ (x.state.peers p).rf.commitIndex,
            (y.state.peers p).rf.log.get k = (x.state.peers p).rf.log.get k) ∧
      ∀ k, (x.state.peers p).rf.log.base ≤ k → k ≤ (x.state.peers p).rf.commitIndex →
        ((x.state.peers p).rf.log.get k).isSome := by
  have hreach : Reach System.step LogSafe init x.state := Host.reach_of_unaltered h
  have hs : x.state.Reachable := Reachable.of_reach hreach
  have hled : x.state.Led := led_of_noStaleWin (hreach.mono fun _ _ hok => hok.1)
  obtain ⟨H, hroot⟩ := exists_rooted hreach
  obtain ⟨src, hnode, -⟩ := hroot.nodes p
  have hlt := hnode.commit_lt
  refine ⟨hs.base_le_commitIndex p, hlt, ?_, ?_⟩
  · intro a cap y m term args hsafe htarget hm hstep k hk
    exact hroot.get_of_append hs hled hsafe htarget hm (Host.state_of_move hstep) hk
  · intro k hb hk
    exact ((x.state.peers p).rf.log.get_isSome_iff k).mpr ⟨hb, by omega⟩

/-- Peer `1` has the first command of a leader and knows that it is committed. -/
theorem commit_in_log_first : ∃ x : Sharing 3 ℕ (System 3 ℕ),
    (host 3 ℕ).SharesUnaltered LogSafe init x ∧ (x.state.peers 1).rf.commitIndex = 1 ∧
      (x.state.peers 1).rf.commitIndex < (x.state.peers 1).rf.log.size := by
  have hrun : ∃ s : System 3 ℕ, Reach System.step LogSafe init s ∧
      (s.peers 1).rf.commitIndex = 1 :=
    Reach.exists_of_exec [.act 0 .electionTimeout, .act 0 (.startElection 0), .deliver 0,
      .deliver 1, .act 0 (.start 7), .act 0 (.replicationTick 0), .deliver 1, .deliver 2,
      .act 0 (.replicationTick 0), .deliver 2] (by decide +kernel)
  obtain ⟨s, hs, hcommit⟩ := hrun
  obtain ⟨x, hx, rfl⟩ := (host 3 ℕ).exists_unaltered (Reach.refl init) hs
  exact ⟨x, hx, hcommit, (commit_in_log hx 1).2.1⟩

/-- A heartbeat to peer `1` is delayed. Peer `1` gets the command `7` and learns that it is
committed. Then the heartbeat arrives, and peer `1` drops the committed record. -/
theorem committed_record_dropped : ∃ x : Sharing 3 ℕ (System 3 ℕ),
    (host 3 ℕ).Shares (fun _ _ => True) init x ∧ (x.state.peers 1).rf.commitIndex = 1 ∧
      (x.state.peers 1).rf.log.size = 1 := by
  have hrun : ∃ s : System 3 ℕ, s.Reachable ∧
      ((s.peers 1).rf.commitIndex = 1 ∧ (s.peers 1).rf.log.size = 1) :=
    Reach.exists_of_exec [.act 0 .electionTimeout, .act 0 (.startElection 0), .deliver 0,
      .deliver 1, .act 0 (.replicationTick 0), .act 0 (.start 7), .act 0 (.replicationTick 0),
      .deliver 3, .deliver 4, .act 0 (.replicationTick 0), .deliver 4, .deliver 1]
      (by decide +kernel)
  obtain ⟨s, hs, hdropped⟩ := hrun
  obtain ⟨x, hx, rfl⟩ := (host 3 ℕ).exists_unaltered (Reach.refl init) hs
  exact ⟨x, hx.shares, hdropped⟩

end System

/-! ## Requests below the base -/

/-- `log.get` is called with an index below the base. -/
theorem Raft.appendEntries_of_lt_base [RaftGob α] {rf : Raft n α} {args : AppendEntriesArgs n α}
    (hterm : rf.currentTerm ≤ args.term) (hbelow : args.prevLogIndex < rf.log.base) :
    rf.appendEntries args = .panic (rf.becomeFollowerLocked args.term) := by
  have hsize := rf.log.base_lt_size
  simp only [appendEntries, becomeFollowerLocked_log]
  rw [if_neg (by omega), if_neg (by omega), rf.log.get_of_lt_base hbelow]

/-- `AppendEntries` returns a reply exactly when the request is stale or its `PrevLogIndex` is not
below the base of the log. -/
theorem Raft.append_index_safe [RaftGob α] (rf : Raft n α) (args : AppendEntriesArgs n α) :
    (∃ rf' reply, rf.appendEntries args = .ok rf' reply) ↔
      ¬ (rf.currentTerm ≤ args.term ∧ args.prevLogIndex < rf.log.base) := by
  constructor
  · rintro ⟨rf', reply, hok⟩ ⟨hterm, hbelow⟩
    rw [appendEntries_of_lt_base hterm hbelow] at hok
    cases hok
  · intro hsafe
    rcases rf.appendEntries_cases args with
      ⟨reply, -, -, hok⟩ | ⟨hterm, hbelow, -⟩ | ⟨prev, -, -, -, hok⟩
    · exact ⟨_, reply, hok⟩
    · exact absurd ⟨hterm, hbelow⟩ hsafe
    · exact ⟨_, _, hok⟩

namespace System

/-- A heartbeat to peer `1` is delayed. Peer `1` gets the command `7`, learns that it is committed,
and its service compacts the log. The heartbeat still names index `0`: it makes the server panic. -/
theorem request_below_base : ∃ (s : System 3 ℕ) (m : Packet 3 ℕ) (term : ℕ)
    (args : AppendEntriesArgs 3 ℕ), s.Reachable ∧ m ∈ s.net ∧ m.dst = 1 ∧
      m.payload = .appendRequest term args ∧ (s.peers 1).muFree ∧
      ¬ ∃ rf reply, (s.peers 1).rf.appendEntries args = .ok rf reply := by
  have hrun : ∃ s : System 3 ℕ, s.Reachable ∧
      ((⟨0, 1, 0, .appendRequest 2 ⟨2, 0, 0, 0, [], 0⟩⟩ : Packet 3 ℕ) ∈ s.net ∧
        (s.peers 1).muFree ∧ (s.peers 1).rf.currentTerm ≤ 2 ∧ 0 < (s.peers 1).rf.log.base) :=
    Reach.exists_of_exec [.act 0 .electionTimeout, .act 0 (.startElection 0), .deliver 0,
      .deliver 1, .act 0 (.replicationTick 0), .act 0 (.start 7), .act 0 (.replicationTick 0),
      .deliver 3, .deliver 4, .act 0 (.replicationTick 0), .deliver 4,
      .act 1 (.snapshot 1 (some [1]))] (by decide +kernel)
  obtain ⟨s, hs, hmem, hfree, hterm, hbase⟩ := hrun
  refine ⟨s, _, 2, _, hs, hmem, rfl, rfl, hfree, ?_⟩
  rintro ⟨rf, reply, hok⟩
  rw [Raft.appendEntries_of_lt_base hterm hbase] at hok
  cases hok

end System

end LogicRaft
