import LogicRaft.Cluster.Leaders
import LogicRaft.Cluster.LogSteps

/-!
# Commit evidence

A leader commits by its `matchIndex`. Of the places that write it, `becomeLeaderLocked` and
`snapshotToPeer` record matches nobody has acknowledged, and `snapshotToPeer` does so for a request
of any earlier term. These values never exceed the commit index: both are a base of this peer's log
in this incarnation, the base never exceeds the commit index, and the commit index does not fall
until the peer crashes. Every other value was acknowledged in the current term, so a commit rests on
a majority that did.
-/

namespace LogicRaft

variable {n : ℕ} {α : Type}

/-- In term `T`, peer `q` has acknowledged to leader `p` everything up to `i`. -/
def Acknowledged (tr : List (Event n α)) (p : Fin n) (T : ℕ) (q : Fin n) (i : ℕ) : Prop :=
  ∃ args, Event.appended q args ∈ tr ∧ args.term = T ∧ args.leaderId = p ∧
    i ≤ args.prevLogIndex + args.entries.length

theorem Acknowledged.mono {tr tr' : List (Event n α)} {p q : Fin n} {T i : ℕ} (hsub : tr ⊆ tr')
    (h : Acknowledged tr p T q i) : Acknowledged tr' p T q i := by
  obtain ⟨args, hmem, hargs⟩ := h
  exact ⟨args, hsub hmem, hargs⟩

theorem Acknowledged.of_le {tr : List (Event n α)} {p q : Fin n} {T i j : ℕ} (hle : i ≤ j)
    (h : Acknowledged tr p T q j) : Acknowledged tr p T q i := by
  obtain ⟨args, hmem, hT, hp, hj⟩ := h
  exact ⟨args, hmem, hT, hp, hle.trans hj⟩

variable [RaftGob α]

section Step

variable {p : Peer n α} {c : Cause n α} {e : Effect n α}

/-- A step keeps the base at or below the commit index. -/
theorem Does.base_le_commitIndex (h : Does p c e) (hs : p.rf.Saved)
    (hp : p.rf.log.base ≤ p.rf.commitIndex) : e.peer.rf.log.base ≤ e.peer.rf.commitIndex := by
  cases h with
  | crashed =>
    rw [Peer.crash_rf rfl hs]
    exact Nat.le_refl _
  | appendPanicked =>
    rw [Peer.crash_rf (Raft.becomeFollowerLocked_me _ _) (hs.becomeFollowerLocked _)]
    exact Nat.le_refl _
  | timedOut _ hrole =>
    rw [Raft.becomeCandidateLocked_of_ne _ hrole]
    exact hp
  | won _ _ _ _ hrole =>
    rw [Raft.becomeLeaderLocked_of_eq _ hrole]
    exact hp
  | voteRefused | appendRefused | snapshotRefused | steppedDown => simpa using hp
  | voted => simpa [Raft.persistLocked] using hp
  | appended =>
    rw [Raft.acceptEntries_log, Raft.acceptEntries_commitIndex, Log.base_spliceAfter,
      Raft.becomeFollowerLocked_log, Raft.becomeFollowerLocked_commitIndex]
    exact hp.trans (Nat.le_max_left _ _)
  | compacted _ hcommit => exact hcommit
  | @installed _ _ args =>
    simp only [Raft.adoptSnapshot, Raft.persistLocked, Log.base_fresh]
    split <;> omega
  | committed _ _ _ _ _ _ hrf hmore =>
    subst hrf
    rw [Raft.signal_log, Raft.signal_commitIndex]
    exact hp.trans (Nat.le_of_lt hmore)
  | _ => exact hp

/-- Between crashes the commit index does not fall. -/
theorem Does.commitIndex_le (h : Does p c e) :
    e.peer.incarnation = p.incarnation + 1 ∨
      (e.peer.incarnation = p.incarnation ∧ p.rf.commitIndex ≤ e.peer.rf.commitIndex) := by
  cases h with
  | crashed | appendPanicked => exact Or.inl rfl
  | timedOut _ hrole =>
    rw [Raft.becomeCandidateLocked_of_ne _ hrole]
    exact Or.inr ⟨rfl, Nat.le_refl _⟩
  | won _ _ _ _ hrole =>
    rw [Raft.becomeLeaderLocked_of_eq _ hrole]
    exact Or.inr ⟨rfl, Nat.le_refl _⟩
  | voteRefused | appendRefused | snapshotRefused | steppedDown => exact Or.inr ⟨rfl, by simp⟩
  | voted => exact Or.inr ⟨rfl, by simp [Raft.persistLocked]⟩
  | appended => exact Or.inr ⟨rfl, by simp⟩
  | installed =>
    refine Or.inr ⟨rfl, ?_⟩
    simp only [Raft.adoptSnapshot, Raft.persistLocked, Raft.becomeFollowerLocked_commitIndex]
    split <;> omega
  | committed _ _ _ _ _ _ hrf hmore =>
    subst hrf
    refine Or.inr ⟨rfl, ?_⟩
    rw [Raft.signal_commitIndex]
    exact Nat.le_of_lt hmore
  | _ => exact Or.inr ⟨rfl, Nat.le_refl _⟩

/-- A reply to an append request raises the commit index only by the commit rule. -/
theorem Does.committed_of_raise {m : Packet n α} {T : ℕ} {args : AppendEntriesArgs n α}
    {reply : AppendEntriesReply} (h : Does p (.packet m) e) (hs : p.rf.Saved)
    (hbase : p.rf.log.base ≤ p.rf.commitIndex) (hm : m.payload = .appendReply T args reply)
    (hraise : p.rf.commitIndex < e.peer.rf.commitIndex) :
    p.rf.role = .leader ∧ p.rf.currentTerm = T ∧ reply.success = true ∧
      e.peer.rf.commitIndex =
        (p.rf.recordMatch m.src (args.prevLogIndex + args.entries.length)).getMajorityIndexLocked ∧
      ∃ record, p.rf.log.get e.peer.rf.commitIndex = some record ∧ record.term = T := by
  cases h with
  | crashed =>
    rw [Peer.crash_rf rfl hs] at hraise
    exact absurd hraise (Nat.not_lt.mpr hbase)
  | committed _ _ hm' hterm hrole hsuccess hrf _ hget hrecord =>
    subst hrf
    obtain ⟨rfl, rfl, rfl⟩ := Payload.appendReply.inj (hm.symm.trans hm')
    rw [Raft.signal_commitIndex]
    exact ⟨hrole, hterm, hsuccess, rfl, _, hget, hrecord.trans hterm⟩
  | steppedDown =>
    rw [Raft.becomeFollowerLocked_commitIndex] at hraise
    exact absurd hraise (Nat.lt_irrefl _)
  | ignored | voteCounted | conflicted | matched | snapshotAcked =>
    exact absurd hraise (Nat.lt_irrefl _)
  | appendPanicked _ hcall | voteRefused _ hcall | voted _ hcall | appendRefused _ hcall
  | appended _ hcall | snapshotRefused _ hcall | installed _ hcall =>
    rw [hcall] at hm
    cases hm
  | won _ _ hm' =>
    rw [hm'] at hm
    cases hm

/-- Where an entry of a leader's `matchIndex` comes from: it was there, the peer has just won, it is
the leader's own, or a reply to an append or a snapshot request has set it. -/
theorem Does.matchIndex (h : Does p c e) (hs : p.rf.Saved) (hlead : e.peer.rf.role = .leader)
    (q : Fin n) :
    (p.rf.role = .leader ∧ e.peer.rf.matchIndex q = p.rf.matchIndex q) ∨
      e.peer.rf.matchIndex q = e.peer.rf.log.base ∨ q = p.rf.me ∨
      (∃ m term args reply, c = .packet m ∧ m.payload = .appendReply term args reply ∧
        reply.success = true ∧ p.rf.currentTerm = term ∧ q = m.src ∧
        e.peer.rf.matchIndex q = args.prevLogIndex + args.entries.length) ∨
      (∃ m term args reply, c = .packet m ∧ m.payload = .snapshotReply term args reply ∧
        m.incarnation = p.incarnation ∧ e.peer.rf.matchIndex q = args.lastIncludedIndex) := by
  cases h.progressStep hs hlead with
  | kept hrole hmatch | conflicted _ _ _ _ hrole _ hmatch => exact Or.inl ⟨hrole, by rw [hmatch]⟩
  | won _ hlog hmatch => exact Or.inr (Or.inl (by rw [hmatch, hlog]))
  | replicated hrole hrf =>
    by_cases hq : q = p.rf.me
    · exact Or.inr (Or.inr (Or.inl hq))
    · rw [hrf]
      exact Or.inl ⟨hrole, Function.update_of_ne hq _ _⟩
  | @matched m _ _ _ hcause hm hterm hrole hsuccess hmatch =>
    rw [hmatch]
    by_cases hq : q = m.src
    · subst hq
      exact Or.inr (Or.inr (Or.inr (Or.inl
        ⟨m, _, _, _, hcause, hm, hsuccess, hterm, rfl, Function.update_self _ _ _⟩)))
    · exact Or.inl ⟨hrole, Function.update_of_ne hq _ _⟩
  | @snapshotAcked m _ _ _ hcause hm hinc hrole hmatch =>
    rw [hmatch]
    by_cases hq : q = m.src
    · subst hq
      exact Or.inr (Or.inr (Or.inr (Or.inr
        ⟨m, _, _, _, hcause, hm, hinc, Function.update_self _ _ _⟩)))
    · exact Or.inl ⟨hrole, Function.update_of_ne hq _ _⟩

end Step

namespace System

theorem Reachable.base_le_commitIndex {s : System n α} (h : s.Reachable) (p : Fin n) :
    (s.peers p).rf.log.base ≤ (s.peers p).rf.commitIndex := by
  have hpeer : (s.peers p).rf.Saved ∧
      (s.peers p).rf.log.base ≤ (s.peers p).rf.commitIndex := by
    refine h.forall_peers (I := fun _ x => x.rf.Saved ∧ x.rf.log.base ≤ x.rf.commitIndex)
      (fun p => ⟨Or.inr ⟨rfl, rfl, rfl, rfl⟩, Nat.le_refl _⟩) ?_ p
    rintro p x c e ⟨hs, hx⟩ hdoes
    exact ⟨hdoes.saved hs, hdoes.base_le_commitIndex hs hx⟩
  exact hpeer.2

/-! ## Replication packets in flight -/

/-- A snapshot that `p` sent in its current incarnation does not exceed its commit index. -/
def SnapshotCommitted (s : System n α) (p : Fin n) (incarnation index : ℕ) : Prop :=
  incarnation ≤ (s.peers p).incarnation ∧
    (incarnation = (s.peers p).incarnation → index ≤ (s.peers p).rf.commitIndex)

/-- What a replication packet says about its sender: the request is of the leader's term, a positive
answer was given, a snapshot is committed at the leader. -/
def ReplicationOk (s : System n α) (m : Packet n α) : Prop :=
  match m.payload with
  | .appendRequest term args => args.term = term ∧ args.leaderId = m.src
  | .appendReply term args reply => args.term = term ∧ args.leaderId = m.dst ∧
      (reply.success = true → .appended m.src args ∈ s.trace)
  | .snapshotRequest _ args => s.SnapshotCommitted m.src m.incarnation args.lastIncludedIndex
  | .snapshotReply _ args _ => s.SnapshotCommitted m.dst m.incarnation args.lastIncludedIndex
  | _ => True

/-- Where the entry for `q` in the `matchIndex` of leader `p` comes from. -/
def MatchOk (s : System n α) (p q : Fin n) : Prop :=
  (s.peers p).rf.matchIndex q ≤ (s.peers p).rf.commitIndex ∨ q = p ∨
    Acknowledged s.trace p (s.peers p).rf.currentTerm q ((s.peers p).rf.matchIndex q)

structure CommitOk (s : System n α) : Prop where
  packets : ∀ m ∈ s.net, s.ReplicationOk m
  installing : ∀ p msg reply, (s.peers p).installing = some (msg, reply) → s.ReplicationOk reply
  matched : ∀ p, (s.peers p).rf.role = .leader → ∀ q, s.MatchOk p q

section Step

variable {s : System n α} {a : Action n α} {p : Fin n} {c : Cause n α} {e : Effect n α}
  {net : List (Packet n α)}

theorem SnapshotCommitted.install (hdoes : Does (s.peers p) c e) {q : Fin n} {i index : ℕ}
    (h : s.SnapshotCommitted q i index) : (s.install p net e).SnapshotCommitted q i index := by
  obtain ⟨hle, hcommit⟩ := h
  unfold SnapshotCommitted
  by_cases hq : q = p
  · subst hq
    rw [install_peers_self]
    rcases hdoes.commitIndex_le with hinc | ⟨hinc, hmono⟩
    · exact ⟨by omega, fun heq => by omega⟩
    · refine ⟨by omega, fun heq => ?_⟩
      have := hcommit (by omega)
      omega
  · rw [install_peers_ne _ _ _ _ hq]
    exact ⟨hle, hcommit⟩

theorem ReplicationOk.install (hdoes : Does (s.peers p) c e) {m : Packet n α}
    (h : s.ReplicationOk m) : (s.install p net e).ReplicationOk m := by
  unfold ReplicationOk at h ⊢
  split at h
  case h_1 => exact h
  case h_2 => exact ⟨h.1, h.2.1, fun hs => List.mem_append_right _ (h.2.2 hs)⟩
  case h_3 => exact h.install hdoes
  case h_4 => exact h.install hdoes
  case h_5 => trivial

omit [RaftGob α] in
/-- The request of a replication round. -/
theorem replicationOk_replicationCall (hme : (s.peers p).rf.me = p)
    (hbase : (s.peers p).rf.log.base ≤ (s.peers p).rf.commitIndex)
    {x : Fin n × ReplicationRequest n α} (hx : (s.peers p).rf.replicationRequest x.1 = some x.2) :
    s.ReplicationOk ((s.peers p).replicationCall (s.peers p).rf.currentTerm x) := by
  obtain ⟨q, request⟩ := x
  cases request with
  | snapshot args =>
    obtain ⟨-, hindex, -, -⟩ := Raft.replicationRequest_snapshot hx
    simp only [ReplicationOk, Peer.replicationCall, Peer.packet, hme, hindex]
    exact ⟨Nat.le_refl _, fun _ => hbase⟩
  | append args =>
    obtain ⟨-, -, -, -, hterm, -, hleader⟩ := Raft.replicationRequest_append hx
    simp [ReplicationOk, Peer.replicationCall, Peer.packet, hme, hterm, hleader]

/-- Every packet a step sends is right about its sender. -/
theorem CommitOk.sends (h : s.CommitOk) (hme : (s.peers p).rf.me = p)
    (hbase : (s.peers p).rf.log.base ≤ (s.peers p).rf.commitIndex)
    (htarget : s.target a = some (p, c)) (hdoes : Does (s.peers p) c e) :
    ∀ m ∈ e.sends, (s.install p net e).ReplicationOk m := by
  have hall := hdoes
  intro m hm
  cases hdoes with
  | @votesAsked k x =>
    obtain ⟨q, -, rfl⟩ := List.mem_map.mp hm
    trivial
  | @replicated k term requests _ _ hterm _ hreq =>
    obtain ⟨x, hx, rfl⟩ := List.mem_map.mp hm
    subst hterm
    exact (replicationOk_replicationCall hme hbase (hreq x hx).2).install hall
  | voteRefused | voted =>
    obtain rfl := List.mem_singleton.mp hm
    trivial
  | @appendRefused call term args reply _ hcall _ hsuccess =>
    obtain rfl := List.mem_singleton.mp hm
    have hok := h.packets call (mem_of_target htarget).1
    simp only [ReplicationOk, hcall] at hok
    simp [ReplicationOk, Peer.replyTo, Peer.packet, hok, hsuccess]
  | @appended call term args prev _ hcall =>
    obtain rfl := List.mem_singleton.mp hm
    have hok := h.packets call (mem_of_target htarget).1
    simp only [ReplicationOk, hcall] at hok
    simp [ReplicationOk, Peer.replyTo, Peer.packet, hok]
  | @snapshotRefused call term args _ hcall =>
    obtain rfl := List.mem_singleton.mp hm
    have hok := h.packets call (mem_of_target htarget).1
    simp only [ReplicationOk, hcall] at hok
    exact hok.install hall
  | installDone hinst =>
    obtain rfl := List.mem_singleton.mp hm
    exact (h.installing p _ _ hinst).install hall
  | _ => cases hm

theorem CommitOk.installing_step (h : s.CommitOk) (htarget : s.target a = some (p, c))
    (hdoes : Does (s.peers p) c e) {msg : ApplyMsg α} {reply : Packet n α}
    (hinst : e.peer.installing = some (msg, reply)) : (s.install p net e).ReplicationOk reply := by
  have hall := hdoes
  cases hdoes with
  | crashed | appendPanicked | installDone => cases hinst
  | @installed call term args _ hcall =>
    obtain ⟨-, rfl⟩ := Prod.mk.inj (Option.some.inj hinst)
    have hok := h.packets call (mem_of_target htarget).1
    simp only [ReplicationOk, hcall] at hok
    exact hok.install hall
  | _ => exact (h.installing p _ _ hinst).install hall

theorem CommitOk.matched_step (h : s.CommitOk) (hme : (s.peers p).rf.me = p)
    (hs : (s.peers p).rf.Saved) (hbase : e.peer.rf.log.base ≤ e.peer.rf.commitIndex)
    (htarget : s.target a = some (p, c)) (hdoes : Does (s.peers p) c e)
    (hlead : e.peer.rf.role = .leader) (q : Fin n) : (s.install p net e).MatchOk p q := by
  obtain ⟨hcur, halive, -⟩ := hdoes.leader hs hlead
  have hmono : (s.peers p).rf.commitIndex ≤ e.peer.rf.commitIndex := by
    rcases hdoes.commitIndex_le with hcrash | ⟨-, hmono⟩
    · omega
    · exact hmono
  unfold MatchOk
  rw [install_peers_self, install_trace, hcur]
  rcases hdoes.matchIndex hs hlead q with ⟨hrole, heq⟩ | heq | hq |
    ⟨m, term, args, reply, rfl, hm, hsuccess, hterm, rfl, heq⟩ |
    ⟨m, term, args, reply, rfl, hm, hinc, heq⟩
  · rw [heq]
    rcases h.matched p hrole q with hle | hself | hack
    · exact Or.inl (hle.trans hmono)
    · exact Or.inr (Or.inl hself)
    · exact Or.inr (Or.inr (hack.mono (List.subset_append_right _ _)))
  · exact Or.inl (heq.trans_le hbase)
  · exact Or.inr (Or.inl (hq.trans hme))
  · have hok := h.packets m (mem_of_target htarget).1
    simp only [ReplicationOk, hm, (mem_of_target htarget).2] at hok
    refine Or.inr (Or.inr ⟨args, List.mem_append_right _ (hok.2.2 hsuccess), ?_, hok.2.1, ?_⟩)
    · rw [hok.1, hterm]
    · exact Nat.le_of_eq heq
  · have hok := h.packets m (mem_of_target htarget).1
    simp only [ReplicationOk, hm, (mem_of_target htarget).2] at hok
    rw [heq]
    exact Or.inl ((hok.2 hinc).trans hmono)

theorem CommitOk.step (h : s.CommitOk) (hs : s.Reachable) (htarget : s.target a = some (p, c))
    (hdoes : Does (s.peers p) c e) : (s.install p (s.inFlight a) e).CommitOk where
  packets m hm := by
    rcases List.mem_append.mp hm with hm | hm
    · exact (h.packets m (mem_of_mem_inFlight hm)).install hdoes
    · exact h.sends (hs.me p) (hs.base_le_commitIndex p) htarget hdoes m hm
  installing q msg reply hinst := by
    by_cases hq : q = p
    · subst hq
      rw [install_peers_self] at hinst
      exact h.installing_step htarget hdoes hinst
    · rw [install_peers_ne _ _ _ _ hq] at hinst
      exact (h.installing q msg reply hinst).install hdoes
  matched q hlead r := by
    by_cases hq : q = p
    · subst hq
      rw [install_peers_self] at hlead
      have hbase := hdoes.base_le_commitIndex (hs.saved q) (hs.base_le_commitIndex q)
      exact h.matched_step (hs.me q) (hs.saved q) hbase htarget hdoes hlead r
    · have hpeer := install_peers_ne s p (s.inFlight a) e hq
      unfold MatchOk
      rw [hpeer] at hlead ⊢
      rcases h.matched q hlead r with hle | hself | hack
      · exact Or.inl hle
      · exact Or.inr (Or.inl hself)
      · exact Or.inr (Or.inr (hack.mono (List.subset_append_right _ _)))

theorem Reachable.commitOk (h : s.Reachable) : s.CommitOk := by
  refine invariant ?_ ?_ h
  · constructor
    · intro m hm
      cases hm
    · intro p msg reply hinst
      cases hinst
    · intro p hlead
      cases hlead
  · intro s a p c e hs _ htarget hdoes hok
    exact hok.step hs htarget hdoes

/-- A raised commit index rests on a record of the current term that a majority holds: the leader
itself, or those who acknowledged it in this term. -/
theorem Reachable.majority_of_raise {m : Packet n α} {T : ℕ} {args : AppendEntriesArgs n α}
    {reply : AppendEntriesReply} (h : s.Reachable) (htarget : s.target a = some (p, .packet m))
    (hdoes : Does (s.peers p) (.packet m) e) (hm : m.payload = .appendReply T args reply)
    (hraise : (s.peers p).rf.commitIndex < e.peer.rf.commitIndex) :
    (s.peers p).rf.role = .leader ∧ (s.peers p).rf.currentTerm = T ∧
      (∃ record, (s.peers p).rf.log.get e.peer.rf.commitIndex = some record ∧ record.term = T) ∧
      Majority fun q => q = p ∨ Acknowledged s.trace p T q e.peer.rf.commitIndex := by
  obtain ⟨hrole, hterm, hsuccess, hmajority, hrecord⟩ :=
    hdoes.committed_of_raise (h.saved p) (h.base_le_commitIndex p) hm hraise
  refine ⟨hrole, hterm, hrecord, ?_⟩
  have hmedian := majority_ge_median
    ((s.peers p).rf.recordMatch m.src (args.prevLogIndex + args.entries.length)).matchIndex 0 p.pos
  apply hmedian.mono
  intro q hq
  -- above the old commit index, only acknowledgements of this term are left
  change Raft.getMajorityIndexLocked _ ≤ _ at hq
  rw [← hmajority] at hq
  obtain ⟨hmem, hdst⟩ := mem_of_target htarget
  have hok := h.commitOk.packets m hmem
  simp only [ReplicationOk, hm, hdst] at hok
  by_cases hsrc : q = m.src
  · subst hsrc
    rw [Raft.recordMatch_matchIndex_self] at hq
    exact Or.inr ⟨args, hok.2.2 hsuccess, hok.1, hok.2.1, hq⟩
  · rw [Raft.recordMatch_matchIndex_of_ne _ _ hsrc] at hq
    rcases h.commitOk.matched p hrole q with hle | hself | hack
    · exact absurd (hq.trans hle) (Nat.not_le.mpr hraise)
    · exact Or.inl hself
    · rw [hterm] at hack
      exact Or.inr (hack.of_le hq)

/-- When a reply to an append request raises the commit index of a peer from `c` to `N`, then the
peer is the leader of the request's term, `N` is above its base and in its log with a record of that
term, and more than half of the peers are the leader or have acknowledged `N` to it in that term. -/
theorem commit_evidence {t : System n α} {m : Packet n α} {T : ℕ} {args : AppendEntriesArgs n α}
    {reply : AppendEntriesReply} (h : s.Reachable) (htarget : s.target a = some (p, .packet m))
    (hm : m.payload = .appendReply T args reply) (hstep : s.step a = some t)
    (hraise : (s.peers p).rf.commitIndex < (t.peers p).rf.commitIndex) :
    let rf := (s.peers p).rf
    let N := (t.peers p).rf.commitIndex
    rf.role = .leader ∧ rf.currentTerm = T ∧ rf.log.base < N ∧ N < rf.log.size ∧
      (∃ record, rf.log.get N = some record ∧ record.term = T) ∧
      Majority fun q => q = p ∨ ∃ args', .appended q args' ∈ s.trace ∧ args'.term = T ∧
        args'.leaderId = p ∧ N ≤ args'.prevLogIndex + args'.entries.length := by
  obtain ⟨p', c', e, htarget', hdoes, rfl⟩ := step_cases hstep
  obtain ⟨rfl, rfl⟩ := Prod.mk.inj (Option.some.inj (htarget.symm.trans htarget'))
  simp only [install_peers_self] at hraise ⊢
  obtain ⟨hrole, hterm, ⟨record, hget, hrecord⟩, hmajority⟩ :=
    h.majority_of_raise htarget hdoes hm hraise
  have hbase := h.base_le_commitIndex p
  have hsize := Log.bounds_of_get hget
  exact ⟨hrole, hterm, by omega, hsize.2, ⟨record, hget, hrecord⟩, hmajority⟩

/-- A leader of three commits its first command with one acknowledgement. -/
theorem commit_evidence_first : ∃ s t : System 3 ℕ, ∃ a : Action 3 ℕ, s.Reachable ∧
    s.step a = some t ∧ (s.peers 0).rf.commitIndex = 0 ∧ (t.peers 0).rf.commitIndex = 1 ∧
    Majority fun q : Fin 3 => q = 0 ∨ ∃ args', .appended q args' ∈ s.trace ∧ args'.term = 2 ∧
      args'.leaderId = 0 ∧ 1 ≤ args'.prevLogIndex + args'.entries.length := by
  have hrun : ∃ s : System 3 ℕ, s.Reachable ∧ (s.target (.deliver 2) =
        some (0, .packet ⟨1, 0, 0, .appendReply 2 ⟨2, 0, 0, 0, [⟨2, true, some 7⟩], 0⟩
          { term := 2, success := true }⟩) ∧
      (s.peers 0).rf.commitIndex = 0 ∧
      (s.step (.deliver 2)).map (fun t => (t.peers 0).rf.commitIndex) = some 1) :=
    Reach.exists_of_exec [.act 0 .electionTimeout, .act 0 (.startElection 0), .deliver 0,
      .deliver 1, .act 0 (.start 7), .act 0 (.replicationTick 0), .deliver 1] (by decide +kernel)
  obtain ⟨s, hs, htarget, hbefore, hafter⟩ := hrun
  obtain ⟨t, ht, hafter⟩ := Option.map_eq_some_iff.mp hafter
  have hevidence := commit_evidence hs htarget rfl ht (by rw [hbefore, hafter]; decide)
  rw [hafter] at hevidence
  exact ⟨s, t, _, hs, ht, hbefore, hafter, hevidence.2.2.2.2.2⟩

end Step

end System

end LogicRaft
