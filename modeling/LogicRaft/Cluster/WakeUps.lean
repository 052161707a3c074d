import LogicRaft.Cluster.Persistence

/-!
# Lost wake-ups

`applicationTicker` waits on `applyCond` before it looks at the commit index, and a signal reaches
it only while it waits. A commit that comes while it sends a batch, or on its way back to the wait,
raises the commit index and signals nobody (`Peer.losesSignal`). The ticker then sleeps on a
committed entry until the next commit (`slept_over`).

In runs without such a step a sleeping ticker has applied everything that is committed: the batch it
has collected, if any, always reaches to the commit index (`Raft.Attended`). Snapshots need no
signal: they raise `lastApplied` along with the commit index.
-/

namespace LogicRaft

variable {n : ℕ} {α : Type}

/-- A signal sent now reaches the ticker, or one has reached it already. -/
def Ticker.listens : Ticker α → Bool
  | .waiting | .woken => true
  | _ => false

/-- This request makes `AppendEntries` raise the commit index. -/
def Raft.followsCommit (rf : Raft n α) (args : AppendEntriesArgs n α) : Bool :=
  match rf.log.get args.prevLogIndex with
  | some prev => decide (rf.currentTerm ≤ args.term ∧ prev.term = args.prevLogTerm ∧
      rf.commitIndex < args.leaderCommit)
  | none => false

/-- Counting this reply raises the commit index. -/
def Raft.reachesCommit (rf : Raft n α) (peer : Fin n) (args : AppendEntriesArgs n α) (term : ℕ)
    (reply : AppendEntriesReply) : Bool :=
  let majorityMatched :=
    (rf.recordMatch peer (args.prevLogIndex + args.entries.length)).getMajorityIndexLocked
  match rf.log.get majorityMatched with
  | some record => decide (rf.role = .leader ∧ rf.currentTerm = term ∧ reply.success = true ∧
      rf.commitIndex < majorityMatched ∧ record.term = rf.currentTerm)
  | none => false

/-- Handling this packet raises the commit index and signals, and the ticker does not listen. -/
def Peer.losesSignal (p : Peer n α) (m : Packet n α) : Bool :=
  !p.rf.ticker.listens && match m.payload with
    | .appendRequest _ args => p.rf.followsCommit args
    | .appendReply term args reply => p.rf.reachesCommit m.src args term reply
    | _ => false

/-- The ticker has been woken, or what it has applied and collected reaches to the commit index. -/
def Raft.Attended (rf : Raft n α) : Prop :=
  rf.ticker = .woken ∨
    rf.commitIndex ≤ rf.lastApplied + rf.ticker.progress.elim 0 fun x => x.entries.length

theorem Raft.Attended.congr {rf rf' : Raft n α} (h : rf.Attended) (hticker : rf'.ticker = rf.ticker)
    (hcommit : rf'.commitIndex = rf.commitIndex) (hlast : rf'.lastApplied = rf.lastApplied) :
    rf'.Attended := by
  unfold Attended
  rw [hticker, hcommit, hlast]
  exact h

/-- A ticker that has not been woken leaves nothing behind. -/
theorem Raft.Attended.reaches {rf : Raft n α} (h : rf.Attended) {ticker : Ticker α}
    (hticker : rf.ticker = ticker) (hne : ticker ≠ .woken) :
    rf.commitIndex ≤ rf.lastApplied + ticker.progress.elim 0 fun x => x.entries.length := by
  rcases h with hwoken | hle
  · exact absurd (hticker.symm.trans hwoken) hne
  · rwa [hticker] at hle

theorem Raft.attended_signal {rf : Raft n α} (h : rf.ticker.listens = true) :
    rf.signal.Attended := by
  left
  unfold signal
  split
  case h_1 => rfl
  case h_2 hne =>
    cases hticker : rf.ticker with
    | woken => rfl
    | waiting => exact absurd hticker hne
    | idle | sending | offering =>
      rw [hticker] at h
      cases h

variable [RaftGob α]

omit [RaftGob α] in
/-- A restart has applied everything it knows to be committed. -/
theorem Raft.attended_recovered (rf : Raft n α) : rf.recovered.Attended :=
  Or.inr (Nat.le_refl _)

/-- `AppendEntries` raises the commit index only if a signal gets through. -/
theorem Raft.Attended.acceptEntries {rf : Raft n α} (h : rf.Attended)
    {args : AppendEntriesArgs n α}
    (hsignal : rf.commitIndex < args.leaderCommit → rf.ticker.listens = true) :
    (rf.acceptEntries args).Attended := by
  unfold Raft.acceptEntries
  dsimp only
  split
  case isTrue hmore =>
    apply attended_signal
    exact hsignal hmore
  case isFalse => exact h.congr rfl rfl rfl

/-- A snapshot raises `lastApplied` with the commit index. -/
theorem Raft.Attended.adoptSnapshot {rf : Raft n α} (h : rf.Attended)
    (args : InstallSnapshotArgs n) : (rf.adoptSnapshot args).Attended := by
  refine h.imp_right fun hle => ?_
  simp only [Raft.adoptSnapshot, Raft.persistLocked]
  split <;> split <;> omega

/-- A step that loses no signal. -/
theorem Does.attended {p : Peer n α} {c : Cause n α} {e : Effect n α} (h : Does p c e)
    (hs : p.rf.Saved) (hp : p.rf.Attended)
    (hok : ∀ m, c = .packet m → p.losesSignal m = false) : e.peer.rf.Attended := by
  cases h with
  | crashed =>
    rw [Peer.crash_rf rfl hs]
    exact Raft.attended_recovered _
  | appendPanicked =>
    rw [Peer.crash_rf (Raft.becomeFollowerLocked_me _ _) (hs.becomeFollowerLocked _)]
    exact Raft.attended_recovered _
  | timedOut _ hrole =>
    rw [Raft.becomeCandidateLocked_of_ne _ hrole]
    exact hp.congr rfl rfl rfl
  | won _ _ _ _ hrole =>
    rw [Raft.becomeLeaderLocked_of_eq _ hrole]
    exact hp.congr rfl rfl rfl
  | waited _ hticker =>
    have hle := hp.reaches hticker nofun
    exact Or.inr hle
  | collected _ _ hentries =>
    -- the batch is everything up to the commit index
    obtain ⟨hlen, -⟩ := Raft.collect_spec _ hentries
    right
    show p.rf.commitIndex ≤ p.rf.lastApplied + _
    simp only [Ticker.progress, Option.elim_some, hlen]
    omega
  | offered hticker | sent hticker =>
    have hle := hp.reaches hticker nofun
    exact Or.inr hle
  | batchDone _ hticker =>
    have hle := hp.reaches hticker nofun
    exact Or.inr hle
  | voteRefused | appendRefused | snapshotRefused | steppedDown =>
    exact hp.congr (by simp) (by simp) (by simp)
  | voted =>
    apply hp.congr
    · exact Raft.alignTerm_ticker _ _
    · exact Raft.alignTerm_commitIndex _ _
    · exact Raft.alignTerm_lastApplied _ _
  | @appended call term args prev _ hcall hterm hprev hmatch =>
    have hfollower : (p.rf.becomeFollowerLocked args.term).Attended :=
      hp.congr (by simp) (by simp) (by simp)
    apply hfollower.acceptEntries
    intro hmore
    rw [Raft.becomeFollowerLocked_commitIndex] at hmore
    have hsignal := hok call rfl
    rw [Peer.losesSignal, hcall] at hsignal
    simpa [Raft.followsCommit, hprev, hterm, hmatch, hmore] using hsignal
  | @installed _ _ args =>
    have hfollower : (p.rf.becomeFollowerLocked args.term).Attended :=
      hp.congr (by simp) (by simp) (by simp)
    exact hfollower.adoptSnapshot args
  | @committed m term args reply rf record _ _ hm hterm hrole hsuccess hrf hmore hget hrecord =>
    apply Raft.attended_signal
    subst hrf
    have hsignal := hok m rfl
    rw [Peer.losesSignal, hm] at hsignal
    show p.rf.ticker.listens = true
    simpa [Raft.reachesCommit, hget, hrole, hterm, hsuccess, hmore, hrecord] using hsignal
  | _ => exact hp

namespace System

omit [RaftGob α] in
/-- The step signals nobody who does not listen. -/
def NoLostSignal (s : System n α) (a : Action n α) : Prop := s.delivers Peer.losesSignal a = false

instance (s : System n α) (a : Action n α) : Decidable (s.NoLostSignal a) :=
  inferInstanceAs (Decidable (_ = _))

variable {s : System n α}

theorem attended (h : Reach System.step NoLostSignal init s) (p : Fin n) :
    (s.peers p).rf.Attended := by
  refine peer_invariant (I := fun _ x => x.rf.Attended) (fun p => Or.inr (Nat.le_refl 0)) ?_ h p
  intro s a p c e hs hok htarget hdoes hI
  refine hdoes.attended (hs.saved p) hI ?_
  rintro m rfl
  exact (delivers_eq htarget).symm.trans hok

/-- In a run in which the commit index is raised by a request or a reply only while
`applicationTicker` waits or has been woken, a ticker that is asleep has applied everything that is
committed. -/
theorem no_lost_wakeup (h : Reach System.step NoLostSignal init s) (p : Fin n)
    (hasleep : (s.peers p).rf.ticker = .waiting) :
    (s.peers p).rf.commitIndex ≤ (s.peers p).rf.lastApplied := by
  have hattended := attended h p
  exact hattended.reaches hasleep nofun

/-- A leader applies its first command and goes back to sleep. -/
theorem no_lost_wakeup_first : ∃ s : System 3 ℕ, Reach System.step NoLostSignal init s ∧
    (s.peers 0).rf.ticker = .waiting ∧ (s.peers 0).rf.commitIndex = 1 ∧
    (s.peers 0).rf.commitIndex ≤ (s.peers 0).rf.lastApplied := by
  have hrun : ∃ s : System 3 ℕ, Reach System.step NoLostSignal init s ∧
      ((s.peers 0).rf.ticker = .waiting ∧ (s.peers 0).rf.commitIndex = 1) :=
    Reach.exists_of_exec [.act 0 .tickerStep, .act 0 .electionTimeout, .act 0 (.startElection 0),
      .deliver 0, .deliver 1, .act 0 (.start 7), .act 0 (.replicationTick 0), .deliver 1,
      .deliver 2, .act 0 .tickerStep, .act 0 .tickerStep, .act 0 .tickerStep, .act 0 .tickerStep,
      .act 0 .tickerStep] (by decide +kernel)
  obtain ⟨s, hs, hasleep, hcommit⟩ := hrun
  exact ⟨s, hs, hasleep, hcommit, no_lost_wakeup hs 0 hasleep⟩

/-- The leader commits its second command while its ticker sends the first one. The ticker goes to
sleep afterwards, and the second command is left lying. -/
theorem slept_over : ∃ s : System 3 ℕ, s.Reachable ∧ (s.peers 0).rf.ticker = .waiting ∧
    (s.peers 0).muFree ∧ (s.peers 0).rf.lastApplied < (s.peers 0).rf.commitIndex :=
  Reach.exists_of_exec [.act 0 .tickerStep, .act 0 .electionTimeout, .act 0 (.startElection 0),
    .deliver 0, .deliver 1, .act 0 (.start 7), .act 0 (.replicationTick 0), .deliver 1, .deliver 2,
    .act 0 .tickerStep, .act 0 (.start 8), .act 0 (.replicationTick 0), .deliver 2, .deliver 3,
    .act 0 .tickerStep, .act 0 .tickerStep, .act 0 .tickerStep, .act 0 .tickerStep]
    (by decide +kernel)

end System

end LogicRaft
