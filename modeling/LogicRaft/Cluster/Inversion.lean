import Mathlib.Data.List.Perm.Basic
import LogicRaft.Cluster.System

/-!
# Everything a step can do

`Does p cause e` lists, case by case and with its guards, every effect `e` a step of peer `p` can
have; `Peer.does_of_step` reads it off the step function once. Invariants are proved by cases on it
and never unfold the step function again.
-/

namespace LogicRaft

variable {n : ℕ} {α : Type}

namespace Raft

/-- The leader's own entries after a replication round. -/
def matchSelf (rf : Raft n α) : Raft n α :=
  { rf with
    matchIndex := Function.update rf.matchIndex rf.me (rf.log.size - 1)
    nextIndex := Function.update rf.nextIndex rf.me rf.log.size }

/-- The request for a peer depends on `nextIndex` at that peer only. -/
theorem replicationRequest_congr {rf rf' : Raft n α} {q : Fin n} (hme : rf'.me = rf.me)
    (hp : rf'.persister = rf.persister) (ht : rf'.currentTerm = rf.currentTerm)
    (hl : rf'.log = rf.log) (hc : rf'.commitIndex = rf.commitIndex)
    (hn : rf'.nextIndex q = rf.nextIndex q) :
    rf'.replicationRequest q = rf.replicationRequest q := by
  simp only [replicationRequest, hme, hp, ht, hl, hc, hn]

theorem matchSelf_nextIndex_of_ne (rf : Raft n α) {q : Fin n} (h : q ≠ rf.me) :
    rf.matchSelf.nextIndex q = rf.nextIndex q := Function.update_of_ne h _ _

theorem matchSelf_replicationRequest (rf : Raft n α) {q : Fin n} (h : q ≠ rf.me) :
    rf.matchSelf.replicationRequest q = rf.replicationRequest q :=
  replicationRequest_congr rfl rfl rfl rfl rfl (rf.matchSelf_nextIndex_of_ne h)

theorem matchSelf_matchSelf (rf : Raft n α) : rf.matchSelf.matchSelf = rf.matchSelf := by
  simp [matchSelf]

/-- What the loop of `startReplication` does: it records the leader's own progress when it comes to
`me` and builds one request for every other peer. -/
theorem replicationLoop_spec (ps : List (Fin n)) (rf : Raft n α) {rf' : Raft n α}
    {requests : List (Fin n × ReplicationRequest n α)}
    (h : replicationLoop ps rf = some (rf', requests)) :
    rf' = (if rf.me ∈ ps then rf.matchSelf else rf) ∧
      ∀ x ∈ requests, x.1 ≠ rf.me ∧ rf.replicationRequest x.1 = some x.2 := by
  induction ps generalizing rf requests with
  | nil =>
    obtain ⟨rfl, rfl⟩ : rf = rf' ∧ [] = requests := by simpa [replicationLoop] using h
    simp
  | cons q ps ih =>
    rw [replicationLoop] at h
    split at h
    case isTrue hq =>
      subst hq
      obtain ⟨hrf, hreq⟩ := ih rf.matchSelf h
      refine ⟨?_, fun x hx => ?_⟩
      · rw [hrf, if_pos (List.mem_cons_self ..), matchSelf_matchSelf, ite_self]
      · obtain ⟨hne, hx⟩ := hreq x hx
        refine ⟨hne, ?_⟩
        rw [← rf.matchSelf_replicationRequest hne]
        exact hx
    case isFalse hq =>
      obtain ⟨request, hrequest, h⟩ := Option.bind_eq_some_iff.mp h
      obtain ⟨⟨rf₁, rest⟩, hloop, h⟩ := Option.map_eq_some_iff.mp h
      obtain ⟨rfl, rfl⟩ := Prod.mk.injEq .. ▸ h
      obtain ⟨hrf, hreq⟩ := ih rf hloop
      refine ⟨?_, fun x hx => ?_⟩
      · rw [hrf]
        have hmem : rf.me ∈ q :: ps ↔ rf.me ∈ ps := by
          simp [List.mem_cons, Ne.symm hq]
        simp only [hmem]
      · rcases List.mem_cons.mp hx with rfl | hx
        · exact ⟨hq, hrequest⟩
        · exact hreq x hx

/-- A round that is not stopped. -/
theorem startReplication_spec {rf rf' : Raft n α} {term : ℕ}
    {requests : List (Fin n × ReplicationRequest n α)}
    (h : rf.startReplication term = .ok rf' (some requests)) :
    rf' = rf.matchSelf ∧ ∀ x ∈ requests, x.1 ≠ rf.me ∧ rf.replicationRequest x.1 = some x.2 := by
  unfold startReplication at h
  split at h
  case isTrue => cases h
  case isFalse =>
    split at h
    case h_1 => cases h
    case h_2 hloop =>
      obtain ⟨rfl, hrequests⟩ := Outcome.ok.inj h
      obtain rfl := Option.some.inj hrequests
      obtain ⟨hrf, hreq⟩ := replicationLoop_spec _ _ hloop
      rw [if_pos (List.mem_finRange _)] at hrf
      exact ⟨hrf, hreq⟩

end Raft

variable [RaftGob α]

/-- Every step of a peer: its cause, its guards and its effect. -/
inductive Does (p : Peer n α) : Cause n α → Effect n α → Prop
  /-- a crash, or a panic that has changed nothing that is saved -/
  | crashed (c : Cause n α) : Does p c (p.crash p.rf)
  /-- `AppendEntries` reads below the base -/
  | appendPanicked {call : Packet n α} {term : ℕ} {args : AppendEntriesArgs n α}
      (hfree : p.muFree) (hcall : call.payload = .appendRequest term args)
      (hterm : p.rf.currentTerm ≤ args.term) (hprev : args.prevLogIndex < p.rf.log.base) :
      Does p (.packet call) (p.crash (p.rf.becomeFollowerLocked args.term))
  /-- a call that returns without an effect -/
  | ignored (c : Cause n α) : Does p c { peer := p }
  | timedOut (hfree : p.muFree) (hrole : p.rf.role ≠ .leader) :
      Does p (.own .electionTimeout)
        { peer := { p with
            rf := p.rf.becomeCandidateLocked
            elections := p.elections ++ [{ term := p.rf.currentTerm + 1 }] }
          events := [.candidacy p.rf.me (p.rf.currentTerm + 1)] }
  | electionLost {k : ℕ} {e : Election} (hfree : p.muFree) (he : p.elections[k]? = some e)
      (hstart : e.started = false) (hlost : p.rf.contextLostLocked .candidate e.term) :
      Does p (.own (.startElection k))
        { peer := { p with elections := p.elections.set k { e with started := true } } }
  | votesAsked {k : ℕ} {e : Election} (hfree : p.muFree) (he : p.elections[k]? = some e)
      (hstart : e.started = false) (hterm : p.rf.currentTerm = e.term)
      (hrole : p.rf.role = .candidate) :
      Does p (.own (.startElection k))
        { peer := { p with elections := p.elections.set k { e with started := true, votes := 1 } }
          sends := ((List.finRange n).filter (· ≠ p.rf.me)).map fun q =>
            p.packet q p.incarnation (.voteRequest k p.rf.voteRequest) }
  | replicationStopped {k term : ℕ} (hfree : p.muFree)
      (hk : p.replicationTickers[k]? = some term) (hlost : p.rf.contextLostLocked .leader term) :
      Does p (.own (.replicationTick k))
        { peer := { p with replicationTickers := p.replicationTickers.eraseIdx k } }
  | replicated {k term : ℕ} {requests : List (Fin n × ReplicationRequest n α)}
      (hfree : p.muFree) (hk : p.replicationTickers[k]? = some term)
      (hterm : p.rf.currentTerm = term) (hrole : p.rf.role = .leader)
      (hreq : ∀ x ∈ requests, x.1 ≠ p.rf.me ∧ p.rf.replicationRequest x.1 = some x.2) :
      Does p (.own (.replicationTick k))
        { peer := { p with rf := p.rf.matchSelf }
          sends := requests.map (p.replicationCall term) }
  | accepted {command : α} (hfree : p.muFree) (hrole : p.rf.role = .leader) :
      Does p (.own (.start command))
        { peer := { p with
            rf := { p.rf with
              log := p.rf.log.append
                { term := p.rf.currentTerm
                  commandValid := true
                  command := some command } }.persistLocked none }
          events := [.accepted p.rf.me p.rf.log.size p.rf.currentTerm command] }
  | compacted {index : ℕ} {data : Option Bytes} {last : LogRecord α} (hfree : p.muFree)
      (hcommit : index ≤ p.rf.commitIndex) (hbase : p.rf.log.base ≤ index)
      (hlast : p.rf.log.get index = some last) :
      Does p (.own (.snapshot index data))
        { peer := { p with
            rf := { p.rf with
              log := Log.fresh index last.term
                (p.rf.log.suffixFrom (index + 1)) }.persistLocked data }
          events := [.compacted p.rf.me index last.term data] }
  | waited (hfree : p.muFree) (hticker : p.rf.ticker = .idle) :
      Does p (.own .tickerStep) { peer := { p with rf.ticker := .waiting } }
  | collected {entries : List (LogRecord α)} (hfree : p.muFree) (hticker : p.rf.ticker = .woken)
      (hentries : p.rf.collectLocked = some entries) :
      Does p (.own .tickerStep)
        { peer := { p with rf.ticker := .sending entries 0 }
          events := [.collected p.rf.me p.rf.log] }
  | offered {entries : List (LogRecord α)} {i : ℕ} {entry : LogRecord α}
      (hticker : p.rf.ticker = .sending entries i) (hentry : entries[i]? = some entry) :
      Does p (.own .tickerStep)
        { peer := { p with rf.ticker := .offering entries i (p.rf.applyMsg entry i) } }
  | sent {entries : List (LogRecord α)} {i : ℕ} {msg : ApplyMsg α}
      (hticker : p.rf.ticker = .offering entries i msg) :
      Does p (.own .tickerStep)
        { peer := { p with rf.ticker := .sending entries (i + 1) }
          events := [.applied p.rf.me msg] }
  | batchDone {entries : List (LogRecord α)} {i : ℕ} (hfree : p.muFree)
      (hticker : p.rf.ticker = .sending entries i) (hdone : entries[i]? = none) :
      Does p (.own .tickerStep)
        { peer := { p with
            rf.lastApplied := p.rf.lastApplied + entries.length
            rf.ticker := .idle } }
  | installDone {msg : ApplyMsg α} {reply : Packet n α} (hinst : p.installing = some (msg, reply)) :
      Does p (.own .finishInstall)
        { peer := { p with installing := none }
          sends := [reply]
          events := [.applied p.rf.me msg] }
  | voteRefused {call : Packet n α} {k : ℕ} {args : RequestVoteArgs n} (hfree : p.muFree)
      (hcall : call.payload = .voteRequest k args) :
      Does p (.packet call)
        { peer := { p with rf := p.rf.alignTerm args.term }
          sends := [p.replyTo call (.voteReply k ⟨p.rf.currentTerm, false⟩)] }
  | voted {call : Packet n α} {k : ℕ} {args : RequestVoteArgs n} (hfree : p.muFree)
      (hcall : call.payload = .voteRequest k args) (hterm : p.rf.currentTerm ≤ args.term)
      (hvote : p.rf.currentTerm = args.term → p.rf.votedFor = -1)
      (hlog : p.rf.isMoreUpToDateLocked args.lastLogTerm args.lastLogIndex = false) :
      Does p (.packet call)
        { peer := { p with
            rf := { p.rf.alignTerm args.term with
              votedFor := (args.candidateId : ℕ) }.persistLocked none }
          sends := [p.replyTo call (.voteReply k ⟨p.rf.currentTerm, true⟩)]
          events := [.voteGranted p.rf.me args] }
  | appendRefused {call : Packet n α} {term : ℕ} {args : AppendEntriesArgs n α}
      {reply : AppendEntriesReply} (hfree : p.muFree)
      (hcall : call.payload = .appendRequest term args) (hterm : reply.term = p.rf.currentTerm)
      (hsuccess : reply.success = false)
      (hok : p.rf.appendEntries args = .ok (p.rf.becomeFollowerLocked args.term) reply) :
      Does p (.packet call)
        { peer := { p with rf := p.rf.becomeFollowerLocked args.term }
          sends := [p.replyTo call (.appendReply term args reply)] }
  | appended {call : Packet n α} {term : ℕ} {args : AppendEntriesArgs n α} {prev : LogRecord α}
      (hfree : p.muFree) (hcall : call.payload = .appendRequest term args)
      (hterm : p.rf.currentTerm ≤ args.term) (hprev : p.rf.log.get args.prevLogIndex = some prev)
      (hmatch : prev.term = args.prevLogTerm) :
      Does p (.packet call)
        { peer := { p with rf := (p.rf.becomeFollowerLocked args.term).acceptEntries args }
          sends := [p.replyTo call
            (.appendReply term args { term := p.rf.currentTerm, success := true })]
          events := [.appended p.rf.me args] }
  | snapshotRefused {call : Packet n α} {term : ℕ} {args : InstallSnapshotArgs n}
      (hfree : p.muFree) (hcall : call.payload = .snapshotRequest term args)
      (hrefuse : args.term < p.rf.currentTerm ∨ args.lastIncludedIndex ≤ p.rf.log.base) :
      Does p (.packet call)
        { peer := { p with rf := p.rf.becomeFollowerLocked args.term }
          sends := [p.replyTo call (.snapshotReply term args ⟨p.rf.currentTerm⟩)] }
  | installed {call : Packet n α} {term : ℕ} {args : InstallSnapshotArgs n}
      (hfree : p.muFree) (hcall : call.payload = .snapshotRequest term args)
      (hterm : p.rf.currentTerm ≤ args.term) (hindex : p.rf.log.base < args.lastIncludedIndex) :
      Does p (.packet call)
        { peer := { p with
            rf := (p.rf.becomeFollowerLocked args.term).adoptSnapshot args
            installing := some (Raft.snapshotMsg args,
              p.replyTo call (.snapshotReply term args ⟨p.rf.currentTerm⟩)) } }
  /-- a reply of any kind shows a higher term -/
  | steppedDown {packet : Packet n α} {term : ℕ} (hfree : p.muFree)
      (hinc : packet.incarnation = p.incarnation) (hterm : p.rf.currentTerm < term) :
      Does p (.packet packet) { peer := { p with rf := p.rf.becomeFollowerLocked term } }
  | voteCounted {packet : Packet n α} {k votes : ℕ} {e : Election} {reply : RequestVoteReply}
      (hfree : p.muFree) (hinc : packet.incarnation = p.incarnation)
      (hpacket : packet.payload = .voteReply k reply) (he : p.elections[k]? = some e)
      (hrole : p.rf.role = .candidate)
      (hvotes : votes = if reply.voteGranted then e.votes + 1 else e.votes)
      (hfew : votes ≤ n / 2) :
      Does p (.packet packet)
        { peer := { p with elections := p.elections.set k { e with votes } } }
  | won {packet : Packet n α} {k votes : ℕ} {e : Election} {reply : RequestVoteReply}
      (hfree : p.muFree) (hinc : packet.incarnation = p.incarnation)
      (hpacket : packet.payload = .voteReply k reply) (he : p.elections[k]? = some e)
      (hrole : p.rf.role = .candidate) (hterm : reply.term ≤ p.rf.currentTerm)
      (hvotes : votes = if reply.voteGranted then e.votes + 1 else e.votes)
      (hmost : n / 2 < votes) :
      Does p (.packet packet)
        { peer := { p with
            rf := p.rf.becomeLeaderLocked
            elections := p.elections.set k { e with votes }
            replicationTickers := p.replicationTickers ++ [e.term] }
          events := [.elected p.rf.me p.rf.currentTerm] }
  | conflicted {packet : Packet n α} {term : ℕ} {args : AppendEntriesArgs n α}
      {reply : AppendEntriesReply} (hfree : p.muFree)
      (hinc : packet.incarnation = p.incarnation)
      (hpacket : packet.payload = .appendReply term args reply)
      (hreply : reply.term ≤ p.rf.currentTerm) (hterm : p.rf.currentTerm = term)
      (hrole : p.rf.role = .leader) (hsuccess : reply.success = false) :
      Does p (.packet packet)
        { peer := { p with
            rf.nextIndex := Function.update p.rf.nextIndex packet.src
              (p.rf.conflictNext packet.src reply) } }
  | matched {packet : Packet n α} {term : ℕ} {args : AppendEntriesArgs n α}
      {reply : AppendEntriesReply} (hfree : p.muFree)
      (hinc : packet.incarnation = p.incarnation)
      (hpacket : packet.payload = .appendReply term args reply)
      (hterm : p.rf.currentTerm = term) (hrole : p.rf.role = .leader)
      (hsuccess : reply.success = true) :
      Does p (.packet packet)
        { peer := { p with
            rf := p.rf.recordMatch packet.src (args.prevLogIndex + args.entries.length) } }
  | committed {packet : Packet n α} {term : ℕ} {args : AppendEntriesArgs n α}
      {reply : AppendEntriesReply} {rf : Raft n α} {record : LogRecord α} (hfree : p.muFree)
      (hinc : packet.incarnation = p.incarnation)
      (hpacket : packet.payload = .appendReply term args reply)
      (hterm : p.rf.currentTerm = term) (hrole : p.rf.role = .leader)
      (hsuccess : reply.success = true)
      (hrf : rf = p.rf.recordMatch packet.src (args.prevLogIndex + args.entries.length))
      (hmore : p.rf.commitIndex < rf.getMajorityIndexLocked)
      (hget : p.rf.log.get rf.getMajorityIndexLocked = some record)
      (hrecord : record.term = p.rf.currentTerm) :
      Does p (.packet packet)
        { peer := { p with rf := { rf with commitIndex := rf.getMajorityIndexLocked }.signal } }
  | snapshotAcked {packet : Packet n α} {term : ℕ} {args : InstallSnapshotArgs n}
      {reply : InstallSnapshotReply} (hfree : p.muFree)
      (hinc : packet.incarnation = p.incarnation)
      (hpacket : packet.payload = .snapshotReply term args reply) :
      Does p (.packet packet)
        { peer := { p with rf := p.rf.recordMatch packet.src args.lastIncludedIndex } }

omit [RaftGob α] in
/-- An `InstallSnapshot` that blocks in its send sends the message of its request and answers it. -/
def Peer.InstallOk (p : Peer n α) : Prop :=
  ∀ msg reply, p.installing = some (msg, reply) →
    ∃ term args r, msg = Raft.snapshotMsg args ∧ reply.payload = .snapshotReply term args r

theorem Does.installOk {p : Peer n α} {c : Cause n α} {e : Effect n α} (h : Does p c e)
    (hp : p.InstallOk) : e.peer.InstallOk := by
  cases h with
  | installed =>
    intro msg reply hinst
    obtain ⟨rfl, rfl⟩ := Prod.mk.inj (Option.some.inj hinst)
    exact ⟨_, _, _, rfl, rfl⟩
  | crashed | appendPanicked | installDone =>
    intro msg reply hinst
    cases hinst
  | _ => exact hp

/-! ## The cases of the handlers -/

namespace Raft

variable (rf : Raft n α)

theorem requestVote_cases (args : RequestVoteArgs n) :
    rf.requestVote args = (rf.alignTerm args.term, ⟨rf.currentTerm, false⟩) ∨
      (rf.currentTerm ≤ args.term ∧ (rf.currentTerm = args.term → rf.votedFor = -1) ∧
        rf.isMoreUpToDateLocked args.lastLogTerm args.lastLogIndex = false ∧
        rf.requestVote args =
          ({ rf.alignTerm args.term with
              votedFor := (args.candidateId : ℕ) }.persistLocked none,
            ⟨rf.currentTerm, true⟩)) := by
  have hmore : (rf.alignTerm args.term).isMoreUpToDateLocked args.lastLogTerm args.lastLogIndex =
      rf.isMoreUpToDateLocked args.lastLogTerm args.lastLogIndex := by
    simp [isMoreUpToDateLocked]
  by_cases hstale : args.term < rf.currentTerm
  · left
    simp only [requestVote, if_pos hstale, alignTerm, gt_iff_lt,
      if_neg (Nat.not_lt.mpr (Nat.le_of_lt hstale))]
  · simp only [requestVote, if_neg hstale, hmore]
    by_cases hvoted : (rf.alignTerm args.term).votedFor = -1
    · rw [if_neg (not_not.mpr hvoted)]
      by_cases hlog : rf.isMoreUpToDateLocked args.lastLogTerm args.lastLogIndex = true
      · rw [if_pos hlog]
        exact Or.inl rfl
      · rw [if_neg hlog]
        refine Or.inr ⟨by omega, fun heq => ?_, by simpa using hlog, rfl⟩
        rwa [alignTerm_votedFor, if_neg (by omega)] at hvoted
    · rw [if_pos hvoted]
      exact Or.inl rfl

theorem appendEntries_cases (args : AppendEntriesArgs n α) :
    (∃ reply : AppendEntriesReply, reply.term = rf.currentTerm ∧ reply.success = false ∧
        rf.appendEntries args = .ok (rf.becomeFollowerLocked args.term) reply) ∨
      (rf.currentTerm ≤ args.term ∧ args.prevLogIndex < rf.log.base ∧
        rf.appendEntries args = .panic (rf.becomeFollowerLocked args.term)) ∨
      (∃ prev, rf.currentTerm ≤ args.term ∧ rf.log.get args.prevLogIndex = some prev ∧
        prev.term = args.prevLogTerm ∧
        rf.appendEntries args = .ok ((rf.becomeFollowerLocked args.term).acceptEntries args)
          { term := rf.currentTerm, success := true }) := by
  simp only [appendEntries, becomeFollowerLocked_log, ge_iff_le]
  by_cases hstale : args.term < rf.currentTerm
  · rw [if_pos hstale, becomeFollowerLocked_of_lt rf hstale]
    exact Or.inl ⟨_, rfl, rfl, rfl⟩
  · rw [if_neg hstale]
    by_cases hshort : rf.log.size ≤ args.prevLogIndex
    · rw [if_pos hshort]
      exact Or.inl ⟨_, rfl, rfl, rfl⟩
    · rw [if_neg hshort]
      cases hget : rf.log.get args.prevLogIndex with
      | none =>
        rcases (rf.log.get_eq_none_iff _).mp hget with hlt | hge
        · exact Or.inr (Or.inl ⟨by omega, hlt, rfl⟩)
        · exact absurd hge hshort
      | some prev =>
        dsimp only
        by_cases hterm : prev.term = args.prevLogTerm
        · rw [if_neg (not_not.mpr hterm)]
          exact Or.inr (Or.inr ⟨prev, by omega, rfl, hterm, rfl⟩)
        · rw [if_pos hterm]
          exact Or.inl ⟨_, rfl, rfl, rfl⟩

theorem installSnapshot_cases (args : InstallSnapshotArgs n) :
    ((args.term < rf.currentTerm ∨ args.lastIncludedIndex ≤ rf.log.base) ∧
        rf.installSnapshot args = (rf.becomeFollowerLocked args.term, ⟨rf.currentTerm⟩, none)) ∨
      (rf.currentTerm ≤ args.term ∧ rf.log.base < args.lastIncludedIndex ∧
        rf.installSnapshot args = ((rf.becomeFollowerLocked args.term).adoptSnapshot args,
          ⟨rf.currentTerm⟩, some (snapshotMsg args))) := by
  simp only [installSnapshot, becomeFollowerLocked_log]
  split_ifs with hstale hbase
  · exact Or.inl ⟨Or.inl hstale, by rw [becomeFollowerLocked_of_lt rf hstale]⟩
  · exact Or.inl ⟨Or.inr hbase, rfl⟩
  · exact Or.inr ⟨by omega, by omega, rfl⟩

end Raft

/-! ## Reading the cases off the step function -/

namespace Peer

variable {p : Peer n α} {e : Effect n α}

omit [RaftGob α] in
/-- Putting an election back changes nothing. -/
theorem set_election {es : List Election} {k : ℕ} {x : Election} (h : es[k]? = some x) :
    es.set k x = es := by
  obtain ⟨hk, rfl⟩ := List.getElem?_eq_some_iff.mp h
  exact List.set_getElem_self hk

theorem does_of_tickerStep (h : p.tickerStep = some e) : Does p (.own .tickerStep) e := by
  unfold tickerStep at h
  split at h
  case h_1 ht =>
    split at h
    case isTrue hfree => obtain rfl := Option.some.inj h; exact .waited hfree ht
    case isFalse => cases h
  case h_2 => cases h
  case h_3 ht =>
    split at h
    case isTrue hfree =>
      split at h
      case h_1 => obtain rfl := Option.some.inj h; exact .crashed _
      case h_2 hentries => obtain rfl := Option.some.inj h; exact .collected hfree ht hentries
    case isFalse => cases h
  case h_4 ht =>
    split at h
    case h_1 hentry => obtain rfl := Option.some.inj h; exact .offered ht hentry
    case h_2 hdone =>
      split at h
      case isTrue hfree => obtain rfl := Option.some.inj h; exact .batchDone hfree ht hdone
      case isFalse => cases h
  case h_5 ht => obtain rfl := Option.some.inj h; exact .sent ht

theorem does_of_startElection (hfree : p.muFree) {k : ℕ}
    (h : p.actLocked (.startElection k) = some e) : Does p (.own (.startElection k)) e := by
  simp only [actLocked] at h
  split at h
  case h_1 => cases h
  case h_2 x he =>
    split at h
    case isTrue => cases h
    case isFalse hs =>
      have hs : x.started = false := by simpa using hs
      unfold Raft.startElection at h
      split at h
      case h_1 hlost =>
        obtain rfl := Option.some.inj h
        split at hlost
        case isTrue hctx => exact .electionLost hfree he hs hctx
        case isFalse => cases hlost
      case h_2 hsome =>
        obtain rfl := Option.some.inj h
        split at hsome
        case isTrue => cases hsome
        case isFalse hctx =>
          obtain ⟨rfl, rfl⟩ := Prod.mk.inj (Option.some.inj hsome)
          obtain ⟨hterm, hrole⟩ := not_not.mp hctx
          rw [List.map_map]
          exact .votesAsked hfree he hs hterm hrole

theorem does_of_replicationTick (hfree : p.muFree) {k : ℕ}
    (h : p.actLocked (.replicationTick k) = some e) : Does p (.own (.replicationTick k)) e := by
  simp only [actLocked] at h
  split at h
  case h_1 => cases h
  case h_2 term hk =>
    unfold Raft.startReplication at h
    by_cases hctx : p.rf.contextLostLocked .leader term
    · rw [if_pos hctx] at h
      obtain rfl := Option.some.inj h
      exact .replicationStopped hfree hk hctx
    · rw [if_neg hctx] at h
      obtain ⟨hterm, hrole⟩ := not_not.mp hctx
      cases hloop : Raft.replicationLoop (List.finRange n) p.rf with
      | none =>
        rw [hloop] at h
        obtain rfl := Option.some.inj h
        exact .crashed _
      | some r =>
        obtain ⟨rf, requests⟩ := r
        rw [hloop] at h
        obtain rfl := Option.some.inj h
        obtain ⟨hrf, hreq⟩ := Raft.replicationLoop_spec _ _ hloop
        rw [if_pos (List.mem_finRange _)] at hrf
        subst hrf
        exact .replicated hfree hk hterm hrole hreq

theorem does_of_start (hfree : p.muFree) {command : α}
    (h : p.actLocked (.start command) = some e) : Does p (.own (.start command)) e := by
  simp only [actLocked, Raft.start] at h
  by_cases hrole : p.rf.role = .leader
  · rw [if_neg (not_not.mpr hrole)] at h
    obtain rfl := Option.some.inj h
    have hsize : (p.rf.log.append ⟨p.rf.currentTerm, true, some command⟩).size - 1 =
        p.rf.log.size := by simp
    simp only [Raft.persistLocked, hsize, if_true]
    exact .accepted hfree hrole
  · rw [if_pos hrole] at h
    obtain rfl := Option.some.inj h
    exact .ignored _

theorem does_of_snapshot (hfree : p.muFree) {index : ℕ} {data : Option Bytes}
    (h : p.actLocked (.snapshot index data) = some e) : Does p (.own (.snapshot index data)) e := by
  simp only [actLocked, Raft.snapshot] at h
  by_cases hskip : index > p.rf.commitIndex ∨ index < p.rf.log.base
  · simp only [if_pos hskip] at h
    obtain rfl := Option.some.inj h
    exact .ignored _
  · simp only [if_neg hskip] at h
    cases hget : p.rf.log.get index with
    | none =>
      rw [hget] at h
      obtain rfl := Option.some.inj h
      exact .crashed _
    | some last =>
      rw [hget] at h
      obtain rfl := Option.some.inj h
      exact .compacted hfree (by omega) (by omega) hget

theorem does_of_act {input : Input n α} (h : p.act input = some e) : Does p (.own input) e := by
  have hlocked : ∀ {r : Option (Effect n α)}, (if p.muFree then r else none) = some e →
      p.muFree ∧ r = some e := by
    intro r hr
    split at hr
    case isTrue hfree => exact ⟨hfree, hr⟩
    case isFalse => cases hr
  cases input with
  | restart => obtain rfl := Option.some.inj h; exact .crashed _
  | tickerStep => exact does_of_tickerStep h
  | finishInstall =>
    simp only [act] at h
    split at h
    case h_1 => cases h
    case h_2 hinst => obtain rfl := Option.some.inj h; exact .installDone hinst
  | electionTimeout =>
    obtain ⟨hfree, h⟩ := hlocked h
    simp only [actLocked] at h
    split at h
    case isTrue => cases h
    case isFalse hrole =>
      obtain rfl := Option.some.inj h
      have hrf := Raft.becomeCandidateLocked_of_ne p.rf hrole
      have hterm : p.rf.becomeCandidateLocked.currentTerm = p.rf.currentTerm + 1 := by rw [hrf]; rfl
      have hme : p.rf.becomeCandidateLocked.me = p.rf.me := by rw [hrf]; rfl
      rw [hterm, hme]
      exact .timedOut hfree hrole
  | startElection k => exact does_of_startElection (hlocked h).1 (hlocked h).2
  | replicationTick k => exact does_of_replicationTick (hlocked h).1 (hlocked h).2
  | start command => exact does_of_start (hlocked h).1 (hlocked h).2
  | snapshot index data => exact does_of_snapshot (hlocked h).1 (hlocked h).2

theorem does_of_handleRequest (hfree : p.muFree) {call : Packet n α}
    (h : p.handleRequest call = some e) : Does p (.packet call) e := by
  unfold handleRequest at h
  split at h
  case h_1 k args hcall =>
    rcases p.rf.requestVote_cases args with heq | ⟨hterm, hvote, hlog, heq⟩
    · rw [heq] at h
      obtain rfl := Option.some.inj h
      exact .voteRefused hfree hcall
    · rw [heq] at h
      obtain rfl := Option.some.inj h
      simp only [Raft.persistLocked, Raft.alignTerm_me, if_true]
      have hdoes := Does.voted hfree hcall hterm hvote hlog
      simpa only [Raft.persistLocked, Raft.alignTerm_me] using hdoes
  case h_2 term args hcall =>
    rcases p.rf.appendEntries_cases args with
      ⟨reply, hterm, hsuccess, heq⟩ | ⟨hterm, hprev, heq⟩ | ⟨prev, hterm, hprev, hmatch, heq⟩
    · rw [heq] at h
      obtain rfl := Option.some.inj h
      simp only [hsuccess, Bool.false_eq_true, if_false]
      exact .appendRefused hfree hcall hterm hsuccess heq
    · rw [heq] at h
      obtain rfl := Option.some.inj h
      exact .appendPanicked hfree hcall hterm hprev
    · rw [heq] at h
      obtain rfl := Option.some.inj h
      simp only [Raft.acceptEntries_me, Raft.becomeFollowerLocked_me, if_true]
      exact .appended hfree hcall hterm hprev hmatch
  case h_3 term args hcall =>
    rcases p.rf.installSnapshot_cases args with ⟨hrefuse, heq⟩ | ⟨hterm, hindex, heq⟩
    · rw [heq] at h
      obtain rfl := Option.some.inj h
      exact .snapshotRefused hfree hcall hrefuse
    · rw [heq] at h
      obtain rfl := Option.some.inj h
      exact .installed hfree hcall hterm hindex
  case h_4 => cases h

theorem does_of_voteReply (hfree : p.muFree) {packet : Packet n α}
    (hinc : packet.incarnation = p.incarnation) {k : ℕ} {reply : RequestVoteReply}
    (hpacket : packet.payload = .voteReply k reply) (h : p.handleReply packet = some e) :
    Does p (.packet packet) e := by
  simp only [handleReply, hpacket] at h
  split at h
  case h_1 => cases h
  case h_2 x he =>
    obtain rfl := Option.some.inj h
    unfold Raft.askVoteFromPeer
    by_cases hhigher : reply.term > p.rf.currentTerm
    · rw [if_pos hhigher]
      simp only [Bool.false_eq_true, if_false, List.append_nil, set_election he]
      exact .steppedDown hfree hinc hhigher
    · rw [if_neg hhigher]
      by_cases hctx : p.rf.contextLostLocked .candidate p.rf.currentTerm
      · rw [if_pos hctx]
        simp only [Bool.false_eq_true, if_false, List.append_nil, set_election he]
        exact .ignored _
      · rw [if_neg hctx]
        have hrole : p.rf.role = .candidate := (not_not.mp hctx).2
        dsimp only
        generalize hvotes : (if reply.voteGranted then x.votes + 1 else x.votes) = votes
        by_cases hmost : votes > n / 2
        · have hme : p.rf.becomeLeaderLocked.me = p.rf.me := by
            rw [Raft.becomeLeaderLocked_of_eq _ hrole]
          have hterm : p.rf.becomeLeaderLocked.currentTerm = p.rf.currentTerm := by
            rw [Raft.becomeLeaderLocked_of_eq _ hrole]
          simp only [if_pos hmost, if_true, hme, hterm]
          exact .won hfree hinc hpacket he hrole (by omega) hvotes.symm hmost
        · simp only [if_neg hmost, Bool.false_eq_true, if_false, List.append_nil]
          exact .voteCounted hfree hinc hpacket he hrole hvotes.symm (by omega)

theorem does_of_appendReply (hfree : p.muFree) {packet : Packet n α}
    (hinc : packet.incarnation = p.incarnation) {term : ℕ} {args : AppendEntriesArgs n α}
    {reply : AppendEntriesReply} (hpacket : packet.payload = .appendReply term args reply)
    (h : p.handleReply packet = some e) : Does p (.packet packet) e := by
  simp only [handleReply, hpacket, Raft.replicateToPeer] at h
  by_cases hhigher : reply.term > p.rf.currentTerm
  · rw [if_pos hhigher] at h
    obtain rfl := Option.some.inj h
    exact .steppedDown hfree hinc hhigher
  rw [if_neg hhigher] at h
  by_cases hctx : p.rf.contextLostLocked .leader term
  · rw [if_pos hctx] at h
    obtain rfl := Option.some.inj h
    exact .ignored _
  rw [if_neg hctx] at h
  obtain ⟨hterm, hrole⟩ := not_not.mp hctx
  cases hsuccess : reply.success with
  | false =>
    simp only [hsuccess, Bool.not_false, if_true] at h
    obtain rfl := Option.some.inj h
    exact .conflicted hfree hinc hpacket (by omega) hterm hrole hsuccess
  | true =>
    simp only [hsuccess, Bool.not_true, Bool.false_eq_true, if_false] at h
    set rf := p.rf.recordMatch packet.src (args.prevLogIndex + args.entries.length) with hrf
    have hmatched := Does.matched hfree hinc hpacket hterm hrole hsuccess
    by_cases hmore : rf.getMajorityIndexLocked > rf.commitIndex
    · rw [if_pos hmore] at h
      cases hget : rf.log.get rf.getMajorityIndexLocked with
      | none =>
        rw [hget] at h
        obtain rfl := Option.some.inj h
        exact .crashed _
      | some record =>
        simp only [hget] at h
        by_cases hrecord : record.term = rf.currentTerm
        · rw [if_pos hrecord] at h
          obtain rfl := Option.some.inj h
          exact .committed hfree hinc hpacket hterm hrole hsuccess hrf hmore hget hrecord
        · rw [if_neg hrecord] at h
          obtain rfl := Option.some.inj h
          exact hmatched
    · rw [if_neg hmore] at h
      obtain rfl := Option.some.inj h
      exact hmatched

theorem does_of_snapshotReply (hfree : p.muFree) {packet : Packet n α}
    (hinc : packet.incarnation = p.incarnation) {term : ℕ} {args : InstallSnapshotArgs n}
    {reply : InstallSnapshotReply} (hpacket : packet.payload = .snapshotReply term args reply)
    (h : p.handleReply packet = some e) : Does p (.packet packet) e := by
  simp only [handleReply, hpacket, Raft.snapshotToPeer] at h
  obtain rfl := Option.some.inj h
  by_cases hhigher : reply.term > p.rf.currentTerm
  · rw [if_pos hhigher]
    exact .steppedDown hfree hinc hhigher
  · rw [if_neg hhigher]
    exact .snapshotAcked hfree hinc hpacket

theorem does_of_receive {packet : Packet n α} (h : p.receive packet = some e) :
    Does p (.packet packet) e := by
  unfold receive at h
  split at h
  case isFalse => cases h
  case isTrue hfree =>
    have hreply : ∀ {r : Option (Effect n α)},
        (if packet.incarnation = p.incarnation then r else none) = some e →
        packet.incarnation = p.incarnation ∧ r = some e := by
      intro r hr
      split at hr
      case isTrue hinc => exact ⟨hinc, hr⟩
      case isFalse => cases hr
    cases hpacket : packet.payload with
    | voteRequest k args => rw [hpacket] at h; exact does_of_handleRequest hfree h
    | appendRequest term args => rw [hpacket] at h; exact does_of_handleRequest hfree h
    | snapshotRequest term args => rw [hpacket] at h; exact does_of_handleRequest hfree h
    | voteReply k reply =>
      rw [hpacket] at h
      exact does_of_voteReply hfree (hreply h).1 hpacket (hreply h).2
    | appendReply term args reply =>
      rw [hpacket] at h
      exact does_of_appendReply hfree (hreply h).1 hpacket (hreply h).2
    | snapshotReply term args reply =>
      rw [hpacket] at h
      exact does_of_snapshotReply hfree (hreply h).1 hpacket (hreply h).2

/-- Every step of a peer is one of the cases of `Does`. -/
theorem does_of_step {c : Cause n α} (h : p.step c = some e) : Does p c e := by
  cases c with
  | own input => exact does_of_act h
  | packet packet => exact does_of_receive h

end Peer

/-! ## Steps of the cluster -/

namespace System

variable {s t : System n α} {a : Action n α}

/-- A step of the cluster is a step of one peer. A delivered packet was in flight and is addressed
to that peer; what stays in flight was in flight before. -/
theorem step_cases (h : s.step a = some t) :
    ∃ p c e, s.target a = some (p, c) ∧ Does (s.peers p) c e ∧
      t = s.install p (s.inFlight a) e := by
  unfold step at h
  split at h
  case h_1 => cases h
  case h_2 p c htarget =>
    obtain ⟨e, he, rfl⟩ := Option.map_eq_some_iff.mp h
    exact ⟨p, c, e, htarget, Peer.does_of_step he, rfl⟩

omit [RaftGob α] in
theorem inFlight_sublist (s : System n α) (a : Action n α) : (s.inFlight a).Sublist s.net := by
  cases a with
  | act => exact List.Sublist.refl _
  | deliver k => exact List.eraseIdx_sublist _ _

omit [RaftGob α] in
theorem mem_of_mem_inFlight {packet : Packet n α} (h : packet ∈ s.inFlight a) : packet ∈ s.net :=
  (s.inFlight_sublist a).subset h

omit [RaftGob α] in
/-- A delivered packet was in flight to the peer that takes the step, and is no longer. -/
theorem perm_of_target {p : Fin n} {packet : Packet n α}
    (h : s.target a = some (p, .packet packet)) :
    s.net.Perm (packet :: s.inFlight a) ∧ packet.dst = p := by
  cases a with
  | act q input => simp [target] at h
  | deliver k =>
    obtain ⟨packet', hk, heq⟩ := Option.map_eq_some_iff.mp h
    obtain ⟨hp, hc⟩ := Prod.mk.inj heq
    obtain rfl : packet' = packet := Cause.packet.inj hc
    obtain ⟨hlt, rfl⟩ := List.getElem?_eq_some_iff.mp hk
    exact ⟨(List.getElem_cons_eraseIdx_perm hlt).symm, hp⟩

omit [RaftGob α] in
/-- A step of a peer's own is an action of this peer. -/
theorem act_of_target {p : Fin n} {input : Input n α} (h : s.target a = some (p, .own input)) :
    a = .act p input := by
  cases a with
  | act q input' =>
    obtain ⟨rfl, hcause⟩ := Prod.mk.inj (Option.some.inj h)
    rw [Cause.own.inj hcause]
  | deliver k =>
    obtain ⟨m, -, heq⟩ := Option.map_eq_some_iff.mp h
    cases (Prod.mk.inj heq).2

omit [RaftGob α] in
theorem mem_of_target {p : Fin n} {packet : Packet n α}
    (h : s.target a = some (p, .packet packet)) : packet ∈ s.net ∧ packet.dst = p := by
  obtain ⟨hperm, hdst⟩ := perm_of_target h
  exact ⟨hperm.mem_iff.mpr (List.mem_cons_self ..), hdst⟩

variable (s) (p : Fin n) (net : List (Packet n α)) (e : Effect n α)

omit [RaftGob α] in
@[simp] theorem install_peers_self : (s.install p net e).peers p = e.peer := by
  simp [install]

omit [RaftGob α] in
@[simp] theorem install_peers_ne {q : Fin n} (h : q ≠ p) :
    (s.install p net e).peers q = s.peers q := by
  simp [install, h]

omit [RaftGob α] in
/-- What holds of the peer that has taken the step, and held of every other peer before it. -/
theorem forall_install {s : System n α} {p : Fin n} {net : List (Packet n α)} {e : Effect n α}
    {I : Fin n → Peer n α → Prop} (hself : I p e.peer) (hother : ∀ q, q ≠ p → I q (s.peers q))
    (q : Fin n) : I q ((s.install p net e).peers q) := by
  by_cases hq : q = p
  · subst hq
    rw [install_peers_self]
    exact hself
  · rw [install_peers_ne _ _ _ _ hq]
    exact hother q hq

omit [RaftGob α] in
@[simp] theorem install_net : (s.install p net e).net = net ++ e.sends := rfl

omit [RaftGob α] in
@[simp] theorem install_trace : (s.install p net e).trace = e.events ++ s.trace := rfl

omit [RaftGob α] in
/-- The action delivers a packet for which `f` holds at its receiver. -/
def delivers (s : System n α) (f : Peer n α → Packet n α → Bool) (a : Action n α) : Bool :=
  match s.target a with
  | some (p, .packet m) => f (s.peers p) m
  | _ => false

omit [RaftGob α] in
theorem delivers_eq {f : Peer n α → Packet n α → Bool} {s : System n α} {a : Action n α} {p : Fin n}
    {m : Packet n α} (h : s.target a = some (p, .packet m)) : s.delivers f a = f (s.peers p) m := by
  rw [delivers, h]

variable {s}

/-- A run whose steps meet some condition is a run. -/
theorem Reachable.of_reach {ok : System n α → Action n α → Prop} (h : Reach step ok init s) :
    s.Reachable := h.mono fun _ _ _ => trivial

theorem Reachable.tail {ok : System n α → Action n α → Prop} {t : System n α} (hs : s.Reachable)
    (h : Reach step ok s t) : t.Reachable := hs.trans (h.mono fun _ _ _ => trivial)

theorem Reachable.next {t : System n α} {a : Action n α} (hs : s.Reachable)
    (h : s.step a = some t) : t.Reachable := by
  have hone : Reach System.step (fun _ _ => True) s t := Reach.single trivial h
  exact hs.trans hone

/-- How properties of the runs whose steps meet a condition are proved: they hold at the start, and
every step a peer can take after such a run keeps them. -/
theorem run_invariant {ok : System n α → Action n α → Prop} {I : System n α → Prop}
    (hinit : I init)
    (hstep : ∀ s a p c e, Reach System.step ok init s → ok s a → s.target a = some (p, c) →
      Does (s.peers p) c e → I s → I (s.install p (s.inFlight a) e))
    (h : Reach System.step ok init s) : I s := by
  refine h.invariant_along ?_ hinit
  intro s a t hs hI hok ha
  obtain ⟨p, c, e, htarget, hdoes, rfl⟩ := step_cases ha
  exact hstep s a p c e hs hok htarget hdoes hI

/-- How invariants of the cluster are proved: they hold at the start, and every step a peer can take
in a reachable state keeps them. -/
theorem invariant {ok : System n α → Action n α → Prop} {I : System n α → Prop} (hinit : I init)
    (hstep : ∀ s a p c e, s.Reachable → ok s a → s.target a = some (p, c) → Does (s.peers p) c e →
      I s → I (s.install p (s.inFlight a) e)) (h : Reach System.step ok init s) : I s := by
  refine run_invariant hinit ?_ h
  intro s a p c e hs
  exact hstep s a p c e (Reachable.of_reach hs)

/-- How a property of single peers is proved in the runs whose steps meet a condition: every peer
starts with it, and the peer that takes a step keeps it. -/
theorem peer_invariant {ok : System n α → Action n α → Prop} {I : Fin n → Peer n α → Prop}
    (hinit : ∀ p, I p { rf := Raft.make p {} })
    (hstep : ∀ s a p c e, s.Reachable → ok s a → s.target a = some (p, c) → Does (s.peers p) c e →
      I p (s.peers p) → I p e.peer) (h : Reach System.step ok init s) (p : Fin n) :
    I p (s.peers p) := by
  refine invariant (I := fun s => ∀ p, I p (s.peers p)) hinit ?_ h p
  intro s a p c e hs hok htarget hdoes hI
  exact forall_install (hstep s a p c e hs hok htarget hdoes (hI p)) fun q _ => hI q

/-- What every peer starts with and every step of a peer keeps, every peer has in every run. -/
theorem Reachable.forall_peers {I : Fin n → Peer n α → Prop}
    (hinit : ∀ p, I p { rf := Raft.make p {} })
    (hstep : ∀ p x c e, I p x → Does x c e → I p e.peer) (h : s.Reachable) (p : Fin n) :
    I p (s.peers p) :=
  peer_invariant hinit (fun _ _ p c e _ _ _ hdoes hI => hstep p _ c e hI hdoes) h p

theorem Reachable.installOk (h : s.Reachable) (p : Fin n) : (s.peers p).InstallOk := by
  refine h.forall_peers (I := fun _ x => x.InstallOk) (fun p msg reply hinst => ?_) ?_ p
  · cases hinst
  · intro p x c e hx hdoes
    exact hdoes.installOk hx

end System

end LogicRaft
