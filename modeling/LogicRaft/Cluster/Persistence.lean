import LogicRaft.Cluster.Inversion

/-!
# What a crash loses

Every function that changes the current term, the vote or the log saves all three before it gives
the lock up, so the saved bytes always decode to the values in memory (`Raft.Saved`). A restart
therefore recovers exactly these, and everything else is as `Make` sets it up.
-/

namespace LogicRaft

variable {n : ℕ} {α : Type} [RaftGob α]

namespace Raft

/-- Nothing is saved yet and the persistent values are those `Make` starts from. -/
def Unsaved (rf : Raft n α) : Prop :=
  rf.persister.raftstate = [] ∧ rf.currentTerm = 1 ∧ rf.votedFor = -1 ∧
    rf.log = Log.fresh 0 invalidTerm []

/-- What is saved is what is in memory. -/
def Saved (rf : Raft n α) : Prop :=
  rf.persister.raftstate = encodeState rf.currentTerm rf.votedFor rf.log ∨ rf.Unsaved

/-- The state a restart of `rf` begins with. -/
def recovered (rf : Raft n α) : Raft n α where
  me := rf.me
  persister := rf.persister
  role := .follower
  currentTerm := rf.currentTerm
  votedFor := rf.votedFor
  log := rf.log
  nextIndex _ := 0
  matchIndex _ := 0
  commitIndex := rf.log.base
  lastApplied := rf.log.base
  ticker := .idle

theorem encodeState_ne_nil (t : ℕ) (v : ℤ) (l : Log α) : encodeState t v l ≠ [] := by
  intro h
  have hnil := (List.append_eq_nil_iff.mp h).1
  exact (RaftGob.currentTerm α).encode_ne_nil t hnil

/-- Reading back what `persistLocked` wrote restores the three values. -/
theorem readPersist_encodeState (rf : Raft n α) (t : ℕ) (v : ℤ) (l : Log α) :
    rf.readPersist (encodeState t v l) = { rf with currentTerm := t, votedFor := v, log := l } := by
  have hlen : ¬ (encodeState t v l).length < 1 := by
    have := List.length_pos_iff.mpr (encodeState_ne_nil t v l)
    omega
  rw [readPersist, if_neg hlen, encodeState, Codec.decode_encode]
  dsimp only
  rw [Codec.decode_encode]
  dsimp only
  rw [Codec.decode_encode_nil]

theorem readPersist_me (rf : Raft n α) (data : Bytes) : (rf.readPersist data).me = rf.me := by
  unfold readPersist
  split
  · rfl
  · split
    · rfl
    · dsimp only
      split
      · rfl
      · split <;> rfl

theorem make_me (me : Fin n) (ps : Persister) : (make me ps : Raft n α).me = me := by
  have hread : ((initial me ps).readPersist ps.raftstate : Raft n α).me = me :=
    readPersist_me _ _
  unfold make
  dsimp only
  split
  · exact hread
  · exact hread

/-- `Make` sets the commit index and the applied index to the base of the log it read. -/
theorem make_commitIndex_eq (me : Fin n) (ps : Persister) {rf : Raft n α}
    (h : (initial me ps).readPersist ps.raftstate = rf) (hc : rf.commitIndex = 0)
    (ha : rf.lastApplied = 0) :
    make me ps = { rf with commitIndex := rf.log.base, lastApplied := rf.log.base } := by
  simp only [make, h]
  split_ifs with hbase
  · rfl
  · have hzero : rf.log.base = 0 := by omega
    cases rf
    simp_all

/-- A restart recovers the saved values. -/
theorem make_of_saved {rf : Raft n α} (h : rf.Saved) : make rf.me rf.persister = rf.recovered := by
  rcases h with h | ⟨hnil, hterm, hvote, hlog⟩
  · have hread : (initial rf.me rf.persister : Raft n α).readPersist rf.persister.raftstate =
        { (initial rf.me rf.persister) with
          currentTerm := rf.currentTerm, votedFor := rf.votedFor, log := rf.log } := by
      rw [h]
      exact readPersist_encodeState ..
    rw [make_commitIndex_eq rf.me rf.persister hread rfl rfl]
    rfl
  · have hread : (initial rf.me rf.persister : Raft n α).readPersist rf.persister.raftstate =
        initial rf.me rf.persister := by
      rw [hnil]
      rfl
    rw [make_commitIndex_eq rf.me rf.persister hread rfl rfl]
    simp [recovered, initial, hterm, hvote, hlog]

/-! ## Every function saves what it changes -/

theorem saved_persistLocked (rf : Raft n α) (snapshot : Option Bytes) :
    (rf.persistLocked snapshot).Saved := Or.inl rfl

/-- Only the three values and the persister matter. -/
theorem Saved.congr {rf rf' : Raft n α} (h : rf.Saved) (hp : rf'.persister = rf.persister)
    (ht : rf'.currentTerm = rf.currentTerm) (hv : rf'.votedFor = rf.votedFor)
    (hl : rf'.log = rf.log) : rf'.Saved := by
  unfold Saved Unsaved at h ⊢
  rw [hp, ht, hv, hl]
  exact h

theorem Saved.becomeFollowerLocked {rf : Raft n α} (h : rf.Saved) (t : ℕ) :
    (rf.becomeFollowerLocked t).Saved := by
  unfold Raft.becomeFollowerLocked
  dsimp only
  split_ifs with hlt hne hgt
  · exact h
  · exact saved_persistLocked _ _
  · exact saved_persistLocked _ _
  · omega
  · have heq : t = rf.currentTerm := by simpa using hne
    exact h.congr rfl heq rfl rfl

theorem Saved.alignTerm {rf : Raft n α} (h : rf.Saved) (t : ℕ) : (rf.alignTerm t).Saved := by
  unfold Raft.alignTerm
  split_ifs
  · exact h.becomeFollowerLocked t
  · exact h

theorem Saved.signal {rf : Raft n α} (h : rf.Saved) : rf.signal.Saved := by
  obtain ⟨ticker, heq⟩ := rf.signal_eq
  rw [heq]
  exact h.congr rfl rfl rfl rfl

theorem saved_recovered {rf : Raft n α} (h : rf.Saved) : rf.recovered.Saved :=
  h.congr rfl rfl rfl rfl

end Raft

/-- What a crash leaves of a state whose values are saved. -/
theorem Peer.crash_rf {p : Peer n α} {rf : Raft n α} (hme : rf.me = p.rf.me) (hs : rf.Saved) :
    (p.crash rf).peer.rf = rf.recovered := by
  have hmake := Raft.make_of_saved hs
  rw [hme] at hmake
  exact hmake

/-- A step keeps the saved values equal to those in memory. -/
theorem Does.saved {p : Peer n α} {c : Cause n α} {e : Effect n α} (h : Does p c e)
    (hs : p.rf.Saved) : e.peer.rf.Saved := by
  cases h with
  | crashed =>
    rw [Peer.crash_rf rfl hs]
    exact Raft.saved_recovered hs
  | appendPanicked =>
    rw [Peer.crash_rf (Raft.becomeFollowerLocked_me _ _) (hs.becomeFollowerLocked _)]
    exact Raft.saved_recovered (hs.becomeFollowerLocked _)
  | timedOut _ hrole =>
    rw [Raft.becomeCandidateLocked_of_ne _ hrole]
    exact Raft.saved_persistLocked _ _
  | won _ _ _ _ hrole =>
    rw [Raft.becomeLeaderLocked_of_eq _ hrole]
    exact hs.congr rfl rfl rfl rfl
  | accepted | compacted | voted => exact Raft.saved_persistLocked _ _
  | voteRefused => exact hs.alignTerm _
  | appendRefused | snapshotRefused | steppedDown => exact hs.becomeFollowerLocked _
  | @appended call term args prev =>
    obtain ⟨ticker, heq⟩ := (p.rf.becomeFollowerLocked args.term).acceptEntries_eq args
    rw [heq]
    exact Raft.saved_persistLocked _ _
  | installed => exact Raft.saved_persistLocked _ _
  | committed _ _ _ _ _ _ hrf =>
    subst hrf
    apply Raft.Saved.signal
    exact hs.congr rfl rfl rfl rfl
  | replicated | waited | collected | offered | sent | batchDone | conflicted | matched
  | snapshotAcked =>
    exact hs.congr rfl rfl rfl rfl
  | ignored | electionLost | votesAsked | replicationStopped | installDone | voteCounted => exact hs

/-- No step changes who the peer is. -/
theorem Does.me {p : Peer n α} {c : Cause n α} {e : Effect n α} (h : Does p c e) :
    e.peer.rf.me = p.rf.me := by
  cases h with
  | crashed | appendPanicked => exact Raft.make_me _ _
  | timedOut _ hrole => rw [Raft.becomeCandidateLocked_of_ne _ hrole]; rfl
  | won _ _ _ _ hrole => rw [Raft.becomeLeaderLocked_of_eq _ hrole]
  | voteRefused => simp
  | voted => exact Raft.alignTerm_me _ _
  | appended => simp
  | appendRefused | snapshotRefused | steppedDown => simp
  | installed => exact Raft.becomeFollowerLocked_me _ _
  | committed _ _ _ _ _ _ hrf =>
    subst hrf
    exact Raft.signal_me _
  | _ => rfl

/-! ## Crashes in a run -/

namespace System

variable {s : System n α}

theorem Reachable.me (h : s.Reachable) (p : Fin n) : (s.peers p).rf.me = p := by
  refine h.forall_peers (I := fun p x => x.rf.me = p) (fun p => Raft.make_me p {}) ?_ p
  intro p x c e hx hdoes
  rw [hdoes.me, hx]

theorem Reachable.saved (h : s.Reachable) (p : Fin n) : (s.peers p).rf.Saved := by
  refine h.forall_peers (I := fun _ x => x.rf.Saved) (fun p => ?_) ?_ p
  · exact Or.inr ⟨rfl, rfl, rfl, rfl⟩
  · intro p x c e hx hdoes
    exact hdoes.saved hx

/-- Whenever a peer crashes, what it saved decodes to the term, the vote and the log it has in
memory, or it has saved nothing and these are still the initial ones. After the restart it is a
follower with the same term, vote and log, and nothing above the base counts as committed or
applied. -/
theorem restart_recovers (h : s.Reachable) (p : Fin n) :
    let rf := (s.peers p).rf
    ((∀ rf₀ : Raft n α, rf₀.readPersist rf.persister.raftstate =
          { rf₀ with currentTerm := rf.currentTerm, votedFor := rf.votedFor, log := rf.log }) ∨
        (rf.persister.raftstate = [] ∧ rf.currentTerm = 1 ∧ rf.votedFor = -1 ∧
          rf.log = Log.fresh 0 invalidTerm [])) ∧
      ∃ t : System n α, s.step (.act p .restart) = some t ∧
        (t.peers p).rf.role = .follower ∧
        (t.peers p).rf.currentTerm = rf.currentTerm ∧
        (t.peers p).rf.votedFor = rf.votedFor ∧
        (t.peers p).rf.log = rf.log ∧
        (t.peers p).rf.commitIndex = rf.log.base ∧
        (t.peers p).rf.lastApplied = rf.log.base := by
  intro rf
  have hsaved : rf.Saved := h.saved p
  constructor
  · rcases hsaved with hbytes | hunsaved
    · left
      intro rf₀
      rw [hbytes]
      exact rf₀.readPersist_encodeState _ _ _
    · exact Or.inr hunsaved
  · refine ⟨s.install p s.net ((s.peers p).crash rf), rfl, ?_⟩
    have hmake : Raft.make (s.peers p).rf.me rf.persister = rf.recovered :=
      Raft.make_of_saved hsaved
    simp only [install_peers_self, Peer.crash, hmake]
    exact ⟨rfl, rfl, rfl, rfl, rfl, rfl⟩

/-- A voter crashes after it has granted its vote. -/
theorem restart_recovers_voter : ∃ s t : System 3 ℕ, s.Reachable ∧
    (s.peers 1).rf.votedFor = 0 ∧ s.step (.act 1 .restart) = some t ∧
    (t.peers 1).rf.votedFor = 0 := by
  have hrun : ∃ s : System 3 ℕ, s.Reachable ∧ (s.peers 1).rf.votedFor = 0 :=
    Reach.exists_of_exec [.act 0 .electionTimeout, .act 0 (.startElection 0), .deliver 0]
      (by decide +kernel)
  obtain ⟨s, hs, hvote⟩ := hrun
  obtain ⟨-, t, ht, -, -, hkept, -⟩ := restart_recovers hs 1
  exact ⟨s, t, hs, hvote, ht, hkept.trans hvote⟩

end System

end LogicRaft
