import LogicRaft.Common.Majority
import LogicRaft.Cluster.Votes

/-!
# Election safety

Every vote an election counts is a ballot for the candidate in the term of that election, and no
ballot is counted twice: a vote call to a peer is in flight at most once, as a request or as a reply
(`Packet.voteCall`). So an election that counts more than half of the peers has a majority of the
ballots of its own term.

`askVoteFromPeer` does not check that this is the term the peer is in now. When an election of an
earlier term reaches its majority late, the peer becomes leader of a term in which it has no
majority, and two leaders of one term are possible (`two_leaders`). When no election is won that way
(`NoStaleWin`), a term has at most one leader.
-/

namespace LogicRaft

variable {n : ℕ} {α : Type}

/-- The call a vote packet belongs to: the caller, its incarnation, its election, the peer asked. -/
def Packet.voteCall (m : Packet n α) : Option (Fin n × ℕ × ℕ × Fin n) :=
  match m.payload with
  | .voteRequest k _ => some (m.src, m.incarnation, k, m.dst)
  | .voteReply k _ => some (m.dst, m.incarnation, k, m.src)
  | _ => none

/-- The vote calls in flight. -/
def voteCalls (net : List (Packet n α)) : List (Fin n × ℕ × ℕ × Fin n) :=
  net.filterMap Packet.voteCall

theorem voteCalls_append (net net' : List (Packet n α)) :
    voteCalls (net ++ net') = voteCalls net ++ voteCalls net' := List.filterMap_append ..

theorem voteCalls_eq_nil {net : List (Packet n α)} (h : ∀ m ∈ net, m.voteCall = none) :
    voteCalls net = [] := List.filterMap_eq_nil_iff.mpr h

/-- Elections keep their number and term, and once started they stay so. -/
def ElectionsKept (es es' : List Election) : Prop :=
  ∀ (k : ℕ) (x : Election), es[k]? = some x →
    ∃ x', es'[k]? = some x' ∧ x'.term = x.term ∧ (x.started = true → x'.started = true)

theorem ElectionsKept.refl (es : List Election) : ElectionsKept es es :=
  fun _ x hx => ⟨x, hx, rfl, id⟩

theorem ElectionsKept.append (es es' : List Election) : ElectionsKept es (es ++ es') := by
  intro k x hx
  obtain ⟨hk, -⟩ := List.getElem?_eq_some_iff.mp hx
  exact ⟨x, by rw [List.getElem?_append_left hk, hx], rfl, id⟩

theorem ElectionsKept.set {es : List Election} {k : ℕ} {x x' : Election} (hx : es[k]? = some x)
    (ht : x'.term = x.term) (hs : x.started = true → x'.started = true) :
    ElectionsKept es (es.set k x') := by
  intro j y hy
  obtain ⟨hk, -⟩ := List.getElem?_eq_some_iff.mp hx
  by_cases hj : k = j
  · subst hj
    obtain rfl : x = y := Option.some.inj (hx.symm.trans hy)
    exact ⟨x', List.getElem?_set_self hk, ht, hs⟩
  · exact ⟨y, by rw [List.getElem?_set_ne hj, hy], rfl, id⟩

/-- Counting this reply makes the peer leader on the votes of an election that is over: it is not an
election of the term the peer is a candidate in. -/
def Peer.staleWin (p : Peer n α) (m : Packet n α) : Bool :=
  match m.payload with
  | .voteReply k reply =>
    match p.elections[k]? with
    | some x => decide (x.term ≠ p.rf.currentTerm ∧ p.rf.role = .candidate ∧
        reply.term ≤ p.rf.currentTerm ∧
        n / 2 < (if reply.voteGranted then x.votes + 1 else x.votes))
    | none => false
  | _ => false

section Roles

variable [RaftGob α] {p : Peer n α} {c : Cause n α} {e : Effect n α}

omit [RaftGob α] in
/-- The step counts the vote that makes the peer leader. -/
def Wins (p : Peer n α) (c : Cause n α) (e : Effect n α) : Prop :=
  p.rf.role = .candidate ∧ e.peer.rf = p.rf.becomeLeaderLocked ∧
    e.peer.incarnation = p.incarnation ∧ e.sends = [] ∧
    e.events = [.elected p.rf.me p.rf.currentTerm] ∧
    ∃ m k x votes reply, c = .packet m ∧ m.incarnation = p.incarnation ∧
      m.payload = .voteReply k reply ∧ p.elections[k]? = some x ∧
      reply.term ≤ p.rf.currentTerm ∧
      votes = (if reply.voteGranted then x.votes + 1 else x.votes) ∧ n / 2 < votes ∧
      e.peer.elections = p.elections.set k { x with votes }

/-- A leader was leader of the same term before the step, or has just won. -/
theorem Does.leader (h : Does p c e) (hs : p.rf.Saved) (hlead : e.peer.rf.role = .leader) :
    e.peer.rf.currentTerm = p.rf.currentTerm ∧ e.peer.incarnation = p.incarnation ∧
      (p.rf.role = .leader ∨ Wins p c e) := by
  cases h with
  | crashed =>
    rw [Peer.crash_rf rfl hs] at hlead
    cases hlead
  | appendPanicked =>
    rw [Peer.crash_rf (Raft.becomeFollowerLocked_me _ _) (hs.becomeFollowerLocked _)] at hlead
    cases hlead
  | timedOut _ hrole =>
    rw [Raft.becomeCandidateLocked_of_ne _ hrole] at hlead
    cases hlead
  | voteRefused =>
    have hsame := Raft.alignTerm_of_leader _ _ hlead
    rw [hsame] at hlead ⊢
    exact ⟨rfl, rfl, Or.inl hlead⟩
  | @voted _ _ args =>
    have hsame := Raft.alignTerm_of_leader p.rf args.term hlead
    rw [hsame] at hlead ⊢
    exact ⟨rfl, rfl, Or.inl hlead⟩
  | appendRefused | snapshotRefused | steppedDown =>
    have hsame := Raft.becomeFollowerLocked_of_leader _ hlead
    rw [hsame] at hlead ⊢
    exact ⟨rfl, rfl, Or.inl hlead⟩
  | @installed _ _ args =>
    have hsame := Raft.becomeFollowerLocked_of_leader p.rf (t := args.term) hlead
    rw [hsame] at hlead ⊢
    exact ⟨rfl, rfl, Or.inl hlead⟩
  | appended =>
    rw [Raft.acceptEntries_role] at hlead
    rw [Raft.acceptEntries_currentTerm, Raft.becomeFollowerLocked_of_leader _ hlead]
    rw [Raft.becomeFollowerLocked_of_leader _ hlead] at hlead
    exact ⟨rfl, rfl, Or.inl hlead⟩
  | won _ hinc hm hx hrole hterm hvotes hmost =>
    refine ⟨?_, rfl, Or.inr ⟨hrole, rfl, rfl, rfl, rfl, ?_⟩⟩
    · rw [Raft.becomeLeaderLocked_of_eq _ hrole]
    · exact ⟨_, _, _, _, _, rfl, hinc, hm, hx, hterm, hvotes, hmost, rfl⟩
  | committed _ _ _ _ hrole _ hrf =>
    rw [Raft.signal_currentTerm, hrf]
    exact ⟨rfl, rfl, Or.inl hrole⟩
  | _ => exact ⟨rfl, rfl, Or.inl hlead⟩

/-- An election event comes from a step that wins. -/
theorem Does.elected (h : Does p c e) {q : Fin n} {T : ℕ} (hnew : .elected q T ∈ e.events) :
    q = p.rf.me ∧ T = p.rf.currentTerm ∧ Wins p c e := by
  cases h with
  | won _ hinc hm hx hrole hterm hvotes hmost =>
    simp only [List.mem_singleton, Event.elected.injEq] at hnew
    refine ⟨hnew.1, hnew.2, hrole, rfl, rfl, rfl, rfl, ?_⟩
    exact ⟨_, _, _, _, _, rfl, hinc, hm, hx, hterm, hvotes, hmost, rfl⟩
  | _ => simp [Peer.crash] at hnew

/-- A candidate was candidate of the same term before the step, with the same end of its log, or has
just stood in a new term. -/
theorem Does.candidate (h : Does p c e) (hs : p.rf.Saved) (hcand : e.peer.rf.role = .candidate) :
    (p.rf.role = .candidate ∧ e.peer.rf.currentTerm = p.rf.currentTerm ∧
      e.peer.rf.log.size = p.rf.log.size ∧
      e.peer.rf.log.lastLogTerm = p.rf.log.lastLogTerm) ∨
    e.peer.rf.currentTerm = p.rf.currentTerm + 1 := by
  have hfollow : ∀ t, (p.rf.becomeFollowerLocked t).role = .candidate →
      p.rf.becomeFollowerLocked t = p.rf := by
    intro t ht
    rw [Raft.becomeFollowerLocked_role] at ht
    split at ht
    case isTrue hlt => exact Raft.becomeFollowerLocked_of_lt _ hlt
    case isFalse => cases ht
  have halign : ∀ t, (p.rf.alignTerm t).role = .candidate → p.rf.alignTerm t = p.rf := by
    intro t ht
    unfold Raft.alignTerm at ht ⊢
    split at ht
    case isTrue hgt =>
      rw [if_pos hgt]
      exact hfollow t ht
    case isFalse hle => rw [if_neg hle]
  cases h with
  | crashed =>
    rw [Peer.crash_rf rfl hs] at hcand
    cases hcand
  | appendPanicked =>
    rw [Peer.crash_rf (Raft.becomeFollowerLocked_me _ _) (hs.becomeFollowerLocked _)] at hcand
    cases hcand
  | timedOut _ hrole =>
    rw [Raft.becomeCandidateLocked_of_ne _ hrole]
    exact Or.inr rfl
  | accepted _ hrole =>
    have hboth : Role.leader = Role.candidate := hrole.symm.trans hcand
    cases hboth
  | compacted _ _ hbase hlast =>
    have hlt := (Log.bounds_of_get hlast).2
    refine Or.inl ⟨hcand, rfl, ?_, Log.lastLogTerm_fresh_suffixFrom _ hbase hlast⟩
    apply (Log.size_fresh_suffixFrom _ _ hbase).trans
    omega
  | voteRefused =>
    have hsame := halign _ hcand
    rw [hsame] at hcand ⊢
    exact Or.inl ⟨hcand, rfl, rfl, rfl⟩
  | @voted _ _ args =>
    have hsame := halign args.term hcand
    rw [hsame] at hcand ⊢
    exact Or.inl ⟨hcand, rfl, rfl, rfl⟩
  | appendRefused | snapshotRefused | steppedDown =>
    have hsame := hfollow _ hcand
    rw [hsame] at hcand ⊢
    exact Or.inl ⟨hcand, rfl, rfl, rfl⟩
  | @installed _ _ args _ _ hterm =>
    have hrole : (p.rf.becomeFollowerLocked args.term).role = .candidate := hcand
    rw [Raft.becomeFollowerLocked_role, if_neg (by omega)] at hrole
    cases hrole
  | @appended _ _ args _ _ _ hterm =>
    rw [Raft.acceptEntries_role, Raft.becomeFollowerLocked_role, if_neg (by omega)] at hcand
    cases hcand
  | won _ _ _ _ hrole =>
    rw [Raft.becomeLeaderLocked_of_eq _ hrole] at hcand
    cases hcand
  | committed _ _ _ _ hrole _ hrf =>
    rw [Raft.signal_role, hrf] at hcand
    have hboth : Role.leader = Role.candidate := hrole.symm.trans hcand
    cases hboth
  | _ => exact Or.inl ⟨hcand, rfl, rfl, rfl⟩

omit [RaftGob α] in
/-- The peer will not become leader of term `t`: it has passed the term, or is in it without being a
candidate. -/
def Raft.Past (rf : Raft n α) (t : ℕ) : Prop :=
  t < rf.currentTerm ∨ (rf.currentTerm = t ∧ rf.role ≠ .candidate)

/-- A candidacy is always for a new term. -/
theorem Does.past (h : Does p c e) (hs : p.rf.Saved) {t : ℕ} (hpast : p.rf.Past t) :
    e.peer.rf.Past t := by
  have hmono := (h.voteKept hs).1
  by_cases hcand : e.peer.rf.role = .candidate
  · rcases h.candidate hs hcand with ⟨hold, hcur, -⟩ | hcur
    · rcases hpast with hlt | ⟨-, hne⟩
      · exact Or.inl (by omega)
      · exact absurd hold hne
    · rcases hpast with hlt | ⟨heq, -⟩
      · exact Or.inl (by omega)
      · exact Or.inl (by omega)
  · rcases Nat.lt_or_ge t e.peer.rf.currentTerm with hlt | hge
    · exact Or.inl hlt
    · rcases hpast with hlt | ⟨heq, -⟩
      · exact Or.inl (by omega)
      · exact Or.inr ⟨by omega, hcand⟩

/-- Who leads a term it could not win any more has led it before. -/
theorem Does.leader_of_past (h : Does p c e) (hs : p.rf.Saved) (hlead : e.peer.rf.role = .leader)
    (hpast : p.rf.Past e.peer.rf.currentTerm) :
    p.rf.role = .leader ∧ p.rf.currentTerm = e.peer.rf.currentTerm := by
  obtain ⟨hcur, -, hold | hwins⟩ := h.leader hs hlead
  · exact ⟨hold, hcur.symm⟩
  · rcases hpast with hlt | ⟨-, hne⟩
    · omega
    · exact absurd hwins.1 hne

end Roles

namespace System

/-- `p` asked `q` in its election `k`, with `F` of that election. If `p` has crashed since, nobody
waits for the answer. -/
def Asked (s : System n α) (p q : Fin n) (incarnation k : ℕ) (F : Election → Prop) : Prop :=
  p ≠ q ∧ incarnation ≤ (s.peers p).incarnation ∧
    (incarnation = (s.peers p).incarnation →
      ∃ x, (s.peers p).elections[k]? = some x ∧ x.started = true ∧ F x)

/-- A vote packet in flight is a call of an election of its caller. -/
def VoteCallOk (s : System n α) (m : Packet n α) : Prop :=
  match m.payload with
  | .voteRequest k args => s.Asked m.src m.dst m.incarnation k
      fun x => args.term = x.term ∧ args.candidateId = m.src
  | .voteReply k reply => s.Asked m.dst m.src m.incarnation k
      fun x => reply.voteGranted = true → Ballot s.trace m.src x.term m.dst
  | _ => True

/-- `votes` votes are counted for `p` in its election `k` of term `T`: that many peers have given
their ballot to `p` and have no answer in flight. -/
def Counted (s : System n α) (p : Fin n) (k T votes : ℕ) : Prop :=
  ∃ V : Finset (Fin n), votes ≤ V.card ∧ ∀ q ∈ V, Ballot s.trace q T p ∧
    (p, (s.peers p).incarnation, k, q) ∉ voteCalls s.net

structure ElectionsOk (s : System n α) : Prop where
  nodup : (voteCalls s.net).Nodup
  calls : ∀ m ∈ s.net, s.VoteCallOk m
  stood : ∀ (p : Fin n) (k : ℕ) (x : Election), (s.peers p).elections[k]? = some x →
    .candidacy p x.term ∈ s.trace
  counted : ∀ (p : Fin n) (k : ℕ) (x : Election), (s.peers p).elections[k]? = some x →
    s.Counted p k x.term x.votes

/-- Whoever was elected has the ballots of a majority in that term. A leader was elected in its
term, a candidate was not. -/
structure Led (s : System n α) : Prop where
  elected : ∀ {p T}, .elected p T ∈ s.trace →
    T ≤ (s.peers p).rf.currentTerm ∧ Majority fun q => Ballot s.trace q T p
  leader : ∀ {p}, (s.peers p).rf.role = .leader → .elected p (s.peers p).rf.currentTerm ∈ s.trace
  candidate : ∀ {p}, (s.peers p).rf.role = .candidate →
    .elected p (s.peers p).rf.currentTerm ∉ s.trace

/-- A vote call in flight names a started election of its caller, if the caller still waits. -/
theorem ElectionsOk.asked {s : System n α} (h : s.ElectionsOk) {p q : Fin n} {i k : ℕ}
    (hcall : (p, i, k, q) ∈ voteCalls s.net) : s.Asked p q i k fun _ => True := by
  obtain ⟨m, hm, hkey⟩ := List.mem_filterMap.mp hcall
  have hok := h.calls m hm
  unfold Packet.voteCall at hkey
  unfold VoteCallOk at hok
  cases hpay : m.payload with
  | voteRequest k' args =>
    simp only [hpay, Option.some.injEq, Prod.mk.injEq] at hkey hok
    obtain ⟨rfl, rfl, rfl, rfl⟩ := hkey
    refine ⟨hok.1, hok.2.1, fun hinc => ?_⟩
    obtain ⟨x, hx, hstarted, -⟩ := hok.2.2 hinc
    exact ⟨x, hx, hstarted, trivial⟩
  | voteReply k' reply =>
    simp only [hpay, Option.some.injEq, Prod.mk.injEq] at hkey hok
    obtain ⟨rfl, rfl, rfl, rfl⟩ := hkey
    refine ⟨hok.1, hok.2.1, fun hinc => ?_⟩
    obtain ⟨x, hx, hstarted, -⟩ := hok.2.2 hinc
    exact ⟨x, hx, hstarted, trivial⟩
  | appendRequest | appendReply | snapshotRequest | snapshotReply => simp [hpay] at hkey

/-! ## One step -/

section Step

variable {s : System n α} {p : Fin n} {net : List (Packet n α)} {e : Effect n α}

/-- How the step of `p` may change its own elections: it crashes, or keeps them. -/
def ElectionsMove (x y : Peer n α) : Prop :=
  (y.incarnation = x.incarnation + 1 ∧ y.elections = []) ∨
    (y.incarnation = x.incarnation ∧ ElectionsKept x.elections y.elections)

theorem Asked.install (hmove : ElectionsMove (s.peers p) e.peer) {q r : Fin n} {i k : ℕ}
    {F G : Election → Prop} (h : s.Asked q r i k F)
    (himp : ∀ x x', x'.term = x.term → F x → G x') : (s.install p net e).Asked q r i k G := by
  obtain ⟨hne, hle, hasked⟩ := h
  refine ⟨hne, ?_⟩
  by_cases hq : q = p
  · subst hq
    rw [install_peers_self]
    rcases hmove with ⟨hinc, -⟩ | ⟨hinc, hkept⟩
    · exact ⟨by omega, fun heq => by omega⟩
    · refine ⟨by omega, fun heq => ?_⟩
      obtain ⟨x, hx, hstarted, hF⟩ := hasked (by omega)
      obtain ⟨x', hx', hterm, hstarted'⟩ := hkept k x hx
      exact ⟨x', hx', hstarted' hstarted, himp x x' hterm hF⟩
  · rw [install_peers_ne _ _ _ _ hq]
    refine ⟨hle, fun heq => ?_⟩
    obtain ⟨x, hx, hstarted, hF⟩ := hasked heq
    exact ⟨x, hx, hstarted, himp x x rfl hF⟩

theorem VoteCallOk.install (hmove : ElectionsMove (s.peers p) e.peer) {m : Packet n α}
    (h : s.VoteCallOk m) : (s.install p net e).VoteCallOk m := by
  unfold VoteCallOk at h ⊢
  split at h
  case h_1 k args heq =>
    exact h.install hmove fun x x' ht hx => by rw [ht]; exact hx
  case h_2 k reply heq =>
    apply h.install hmove
    intro x x' ht hx hgranted
    rw [ht]
    exact (hx hgranted).mono (List.subset_append_right _ _)
  case h_3 => trivial

/-- A count stays right while no call that it has seen answered is made again. -/
theorem Counted.install {q : Fin n} {k T votes : ℕ} (h : s.Counted q k T votes)
    (hinc : ((s.install p net e).peers q).incarnation = (s.peers q).incarnation)
    (hcalls : ∀ r, (q, (s.peers q).incarnation, k, r) ∈ voteCalls (net ++ e.sends) →
      (q, (s.peers q).incarnation, k, r) ∈ voteCalls s.net) :
    (s.install p net e).Counted q k T votes := by
  obtain ⟨V, hcard, hV⟩ := h
  refine ⟨V, hcard, fun r hr => ?_⟩
  obtain ⟨hballot, hcall⟩ := hV r hr
  refine ⟨hballot.mono (List.subset_append_right _ _), fun hmem => hcall ?_⟩
  rw [hinc] at hmem
  exact hcalls r hmem

/-- The invariant after a step of `p`, from what the step does to its own elections and calls. -/
theorem ElectionsOk.install (h : s.ElectionsOk) (hsub : net ⊆ s.net)
    (hmove : ElectionsMove (s.peers p) e.peer)
    (hnodup : (voteCalls (net ++ e.sends)).Nodup)
    (hcalls : ∀ c ∈ voteCalls (net ++ e.sends), c ∈ voteCalls s.net ∨ c.1 = p)
    (hsends : ∀ m ∈ e.sends, (s.install p net e).VoteCallOk m)
    (hstood : ∀ (k : ℕ) (x : Election), e.peer.elections[k]? = some x →
      .candidacy p x.term ∈ (s.install p net e).trace)
    (hcounted : ∀ (k : ℕ) (x : Election), e.peer.elections[k]? = some x →
      (s.install p net e).Counted p k x.term x.votes) : (s.install p net e).ElectionsOk where
  nodup := hnodup
  calls m hm := by
    rcases List.mem_append.mp hm with hm | hm
    · exact (h.calls m (hsub hm)).install hmove
    · exact hsends m hm
  stood q k x hx := by
    by_cases hq : q = p
    · subst hq
      rw [install_peers_self] at hx
      exact hstood k x hx
    · rw [install_peers_ne _ _ _ _ hq] at hx
      exact List.mem_append_right _ (h.stood q k x hx)
  counted q k x hx := by
    by_cases hq : q = p
    · subst hq
      rw [install_peers_self] at hx
      exact hcounted k x hx
    · have hpeer := install_peers_ne s p net e hq
      rw [hpeer] at hx
      apply (h.counted q k x hx).install (by rw [hpeer])
      intro r hr
      rcases hcalls _ hr with hold | heq
      · exact hold
      · exact absurd heq hq

/-- A step that sends no vote packet: its elections are new ones or count what they counted. -/
theorem ElectionsOk.install_quiet (h : s.ElectionsOk) (hsub : net.Sublist s.net)
    (hsends : ∀ m ∈ e.sends, m.voteCall = none) (hmove : ElectionsMove (s.peers p) e.peer)
    (hel : ∀ (k : ℕ) (x : Election), e.peer.elections[k]? = some x →
      (e.peer.incarnation = (s.peers p).incarnation ∧ ∃ y, (s.peers p).elections[k]? = some y ∧
        x.term = y.term ∧ x.votes = y.votes) ∨
      (.candidacy p x.term ∈ e.events ∧ x.votes = 0)) : (s.install p net e).ElectionsOk := by
  have hcalls : voteCalls (net ++ e.sends) = voteCalls net := by
    rw [voteCalls_append, voteCalls_eq_nil hsends, List.append_nil]
  have hsubset : voteCalls (net ++ e.sends) ⊆ voteCalls s.net := by
    rw [hcalls]
    exact (hsub.filterMap _).subset
  refine h.install hsub.subset hmove ?_ (fun c hc => Or.inl (hsubset hc)) ?_ ?_ ?_
  · rw [hcalls]
    exact h.nodup.sublist (hsub.filterMap _)
  · intro m hm
    have hnone := hsends m hm
    unfold Packet.voteCall at hnone
    unfold VoteCallOk
    split at hnone <;> simp_all
  · intro k x hx
    rcases hel k x hx with ⟨-, y, hy, hterm, -⟩ | ⟨hcand, -⟩
    · rw [hterm]
      exact List.mem_append_right _ (h.stood p k y hy)
    · exact List.mem_append_left _ hcand
  · intro k x hx
    rcases hel k x hx with ⟨hinc, y, hy, hterm, hvotes⟩ | ⟨-, hzero⟩
    · rw [hterm, hvotes]
      refine (h.counted p k y hy).install ?_ fun r hr => hsubset hr
      rw [install_peers_self, hinc]
    · exact ⟨∅, Nat.le_of_eq hzero, fun q hq => absurd hq (Finset.notMem_empty q)⟩

/-- A step that has nothing to do with elections. -/
theorem ElectionsOk.install_silent (h : s.ElectionsOk) (hsub : net.Sublist s.net)
    (hinc : e.peer.incarnation = (s.peers p).incarnation)
    (hel : e.peer.elections = (s.peers p).elections)
    (hsends : ∀ m ∈ e.sends, m.voteCall = none) : (s.install p net e).ElectionsOk := by
  refine h.install_quiet hsub hsends (Or.inr ⟨hinc, ?_⟩) fun k x hx => ?_
  · rw [hel]
    exact ElectionsKept.refl _
  · rw [hel] at hx
    exact Or.inl ⟨hinc, x, hx, rfl, rfl⟩

/-- A candidacy adds an election that has counted nothing. -/
theorem ElectionsOk.stand (h : s.ElectionsOk) (hsub : net.Sublist s.net) {rf : Raft n α} {T : ℕ} :
    (s.install p net
      { peer := { s.peers p with rf, elections := (s.peers p).elections ++ [{ term := T }] }
        events := [.candidacy p T] }).ElectionsOk := by
  refine h.install_quiet hsub (fun m hm => by cases hm)
    (Or.inr ⟨rfl, ElectionsKept.append _ _⟩) fun k x hx => ?_
  rcases Nat.lt_or_ge k (s.peers p).elections.length with hlt | hge
  · rw [List.getElem?_append_left hlt] at hx
    exact Or.inl ⟨rfl, x, hx, rfl, rfl⟩
  · rw [List.getElem?_append_right hge] at hx
    obtain rfl := List.mem_singleton.mp (List.mem_of_getElem? hx)
    exact Or.inr ⟨List.mem_cons_self .., rfl⟩

/-- What an entry of a list with one entry replaced is. -/
theorem getElem?_set_cases {es : List Election} {k j : ℕ} {x y : Election}
    (h : (es.set k x)[j]? = some y) : (j = k ∧ y = x) ∨ (j ≠ k ∧ es[j]? = some y) := by
  by_cases hj : k = j
  · subst hj
    obtain ⟨hk, hy⟩ := List.getElem?_eq_some_iff.mp h
    exact Or.inl ⟨rfl, by simpa using hy.symm⟩
  · rw [List.getElem?_set_ne hj] at h
    exact Or.inr ⟨Ne.symm hj, h⟩

/-- The open calls of a round of vote requests. -/
theorem voteCalls_requests (peer : Peer n α) (asked : List (Fin n)) (k : ℕ)
    (args : RequestVoteArgs n) :
    voteCalls (asked.map fun q => peer.packet q peer.incarnation (.voteRequest k args)) =
      asked.map fun q => (peer.rf.me, peer.incarnation, k, q) := by
  have hcall : (Packet.voteCall ∘ fun q => peer.packet q peer.incarnation (.voteRequest k args)) =
      some ∘ fun q => (peer.rf.me, peer.incarnation, k, q) := by
    funext q
    rfl
  rw [voteCalls, List.filterMap_map, hcall, List.filterMap_eq_map]

/-- `startElection` asks every other peer and counts the candidate's own vote. -/
theorem ElectionsOk.ask (h : s.ElectionsOk) (hsub : net.Sublist s.net)
    (hme : (s.peers p).rf.me = p) {k : ℕ} {x : Election}
    (hx : (s.peers p).elections[k]? = some x) (hstart : x.started = false)
    {args : RequestVoteArgs n} (hterm : args.term = x.term) (hcand : args.candidateId = p) :
    (s.install p net
      { peer := { s.peers p with
          elections := (s.peers p).elections.set k { x with started := true, votes := 1 } }
        sends := ((List.finRange n).filter (· ≠ (s.peers p).rf.me)).map fun q =>
          (s.peers p).packet q (s.peers p).incarnation (.voteRequest k args) }).ElectionsOk := by
  set asked := (List.finRange n).filter (· ≠ (s.peers p).rf.me) with hasked
  set sends := asked.map fun q => (s.peers p).packet q (s.peers p).incarnation
    (.voteRequest k args) with hsends
  have hne : ∀ q ∈ asked, p ≠ q := by
    intro q hq
    have := List.of_mem_filter hq
    simp only [hme, decide_eq_true_eq] at this
    exact fun heq => this heq.symm
  have hkeys : voteCalls sends = asked.map fun q => (p, (s.peers p).incarnation, k, q) := by
    rw [hsends, voteCalls_requests, hme]
  -- nobody has been asked in this election before
  have hnone : ∀ q, (p, (s.peers p).incarnation, k, q) ∉ voteCalls s.net := by
    intro q hq
    obtain ⟨-, -, hwait⟩ := h.asked hq
    obtain ⟨y, hy, hstarted, -⟩ := hwait rfl
    rw [Option.some.inj (hx.symm.trans hy), hstarted] at hstart
    cases hstart
  have hmove : ElectionsKept (s.peers p).elections
      ((s.peers p).elections.set k { x with started := true, votes := 1 }) :=
    ElectionsKept.set hx rfl fun _ => rfl
  refine h.install hsub.subset (Or.inr ⟨rfl, hmove⟩) ?_ ?_ ?_ ?_ ?_
  · rw [voteCalls_append, hkeys]
    refine List.nodup_append.mpr ⟨h.nodup.sublist (hsub.filterMap _), ?_, ?_⟩
    · refine List.Nodup.map (fun q r heq => ?_) ((List.nodup_finRange n).filter _)
      simpa using heq
    · rintro c hc _ hc' rfl
      obtain ⟨q, -, rfl⟩ := List.mem_map.mp hc'
      exact hnone q ((hsub.filterMap _).subset hc)
  · intro c hc
    rw [voteCalls_append, hkeys] at hc
    rcases List.mem_append.mp hc with hc | hc
    · exact Or.inl ((hsub.filterMap _).subset hc)
    · obtain ⟨q, -, rfl⟩ := List.mem_map.mp hc
      exact Or.inr rfl
  · intro m hm
    obtain ⟨q, hq, rfl⟩ := List.mem_map.mp hm
    obtain ⟨hk, -⟩ := List.getElem?_eq_some_iff.mp hx
    have hget : ((s.peers p).elections.set k { x with started := true, votes := 1 })[k]? =
        some { x with started := true, votes := 1 } := List.getElem?_set_self hk
    simp only [VoteCallOk, Peer.packet, hme, Asked, install_peers_self]
    exact ⟨hne q hq, Nat.le_refl _, fun _ => ⟨_, hget, rfl, hterm, hcand⟩⟩
  · intro j y hy
    apply List.mem_append_right _
    rcases getElem?_set_cases hy with ⟨rfl, rfl⟩ | ⟨-, hy⟩
    · exact h.stood p j x hx
    · exact h.stood p j y hy
  · intro j y hy
    rcases getElem?_set_cases hy with ⟨rfl, rfl⟩ | ⟨hj, hy⟩
    · refine ⟨{p}, by simp, fun q hq => ?_⟩
      obtain rfl := Finset.mem_singleton.mp hq
      refine ⟨Or.inr ⟨List.mem_append_right _ (h.stood q j x hx), rfl⟩, fun hc => ?_⟩
      rw [install_peers_self, install_net, voteCalls_append, hkeys] at hc
      rcases List.mem_append.mp hc with hc | hc
      · exact hnone q ((hsub.filterMap _).subset hc)
      · obtain ⟨r, hr, heq⟩ := List.mem_map.mp hc
        simp only [Prod.mk.injEq, true_and] at heq
        exact hne r hr heq.symm
    · apply (h.counted p j y hy).install (by rw [install_peers_self])
      intro r hr
      rw [voteCalls_append, hkeys] at hr
      rcases List.mem_append.mp hr with hr | hr
      · exact (hsub.filterMap _).subset hr
      · obtain ⟨q, -, heq⟩ := List.mem_map.mp hr
        simp only [Prod.mk.injEq] at heq
        exact absurd heq.2.2.1.symm hj

/-- The answer to a vote request takes the place of the request. -/
theorem ElectionsOk.answer (h : s.ElectionsOk) {m : Packet n α} (hperm : s.net.Perm (m :: net))
    (hdst : m.dst = p) (hme : (s.peers p).rf.me = p) {k : ℕ} {args : RequestVoteArgs n}
    (hm : m.payload = .voteRequest k args) {reply : RequestVoteReply}
    (hinc : e.peer.incarnation = (s.peers p).incarnation)
    (hel : e.peer.elections = (s.peers p).elections)
    (hsends : e.sends = [(s.peers p).replyTo m (.voteReply k reply)])
    (hballot : reply.voteGranted = true → Ballot e.events p args.term args.candidateId) :
    (s.install p net e).ElectionsOk := by
  have hsub : net ⊆ s.net := fun x hx => hperm.mem_iff.mpr (List.mem_cons_of_mem _ hx)
  have hcall : m.voteCall = some (m.src, m.incarnation, k, p) := by
    simp [Packet.voteCall, hm, hdst]
  have hcalls : (voteCalls s.net).Perm (voteCalls (net ++ e.sends)) := by
    apply (hperm.filterMap Packet.voteCall).trans
    rw [voteCalls_append, hsends, List.filterMap_cons_some hcall]
    have hreply : voteCalls [(s.peers p).replyTo m (.voteReply k reply)] =
        [(m.src, m.incarnation, k, p)] := by
      simp [voteCalls, Packet.voteCall, Peer.replyTo, Peer.packet, hme]
    rw [hreply]
    exact List.perm_append_singleton _ _ |>.symm
  have hmove : ElectionsMove (s.peers p) e.peer := by
    refine Or.inr ⟨hinc, ?_⟩
    rw [hel]
    exact ElectionsKept.refl _
  refine h.install hsub hmove (hcalls.nodup_iff.mp h.nodup)
    (fun c hc => Or.inl (hcalls.mem_iff.mpr hc)) ?_ ?_ ?_
  · intro m' hm'
    rw [hsends] at hm'
    obtain rfl := List.mem_singleton.mp hm'
    have hok := h.calls m (hperm.mem_iff.mpr (List.mem_cons_self ..))
    simp only [VoteCallOk, hm, hdst] at hok
    simp only [VoteCallOk, Peer.replyTo, Peer.packet, hme]
    apply hok.install hmove
    intro x x' ht hx hgranted
    rw [ht, ← hx.1, ← hx.2]
    exact (hballot hgranted).mono (List.subset_append_left _ _)
  · intro j x hx
    rw [hel] at hx
    exact List.mem_append_right _ (h.stood p j x hx)
  · intro j x hx
    rw [hel] at hx
    refine (h.counted p j x hx).install ?_ fun r hr => hcalls.mem_iff.mpr hr
    rw [install_peers_self, hinc]

/-- A vote reply is the open call of its sender. -/
theorem voteCalls_perm_of_reply {m : Packet n α} (hperm : s.net.Perm (m :: net)) (hdst : m.dst = p)
    {k : ℕ} {reply : RequestVoteReply} (hm : m.payload = .voteReply k reply)
    (hminc : m.incarnation = (s.peers p).incarnation) :
    (voteCalls s.net).Perm ((p, (s.peers p).incarnation, k, m.src) :: voteCalls net) := by
  have hcall : m.voteCall = some (p, (s.peers p).incarnation, k, m.src) := by
    simp [Packet.voteCall, hm, hdst, hminc]
  have := hperm.filterMap Packet.voteCall
  rwa [List.filterMap_cons_some hcall] at this

/-- A counted reply adds its sender to those who gave their ballot, if it was granted. -/
theorem ElectionsOk.counted_reply (h : s.ElectionsOk) {m : Packet n α}
    (hperm : s.net.Perm (m :: net)) (hdst : m.dst = p) {k : ℕ} {reply : RequestVoteReply}
    {x : Election} (hm : m.payload = .voteReply k reply)
    (hminc : m.incarnation = (s.peers p).incarnation)
    (hx : (s.peers p).elections[k]? = some x)
    (hinc : e.peer.incarnation = (s.peers p).incarnation) (hsends : e.sends = []) :
    (s.install p net e).Counted p k x.term
      (if reply.voteGranted then x.votes + 1 else x.votes) := by
  have hcalls := voteCalls_perm_of_reply hperm hdst hm hminc
  obtain ⟨hgone, -⟩ := List.nodup_cons.mp (hcalls.nodup_iff.mp h.nodup)
  have hnet : voteCalls (net ++ e.sends) = voteCalls net := by
    rw [hsends, List.append_nil]
  have hsame : ((s.install p net e).peers p).incarnation = (s.peers p).incarnation := by
    rw [install_peers_self, hinc]
  cases hgranted : reply.voteGranted with
  | false =>
    apply (h.counted p k x hx).install hsame
    intro r hr
    rw [hnet] at hr
    exact hcalls.mem_iff.mpr (List.mem_cons_of_mem _ hr)
  | true =>
    -- the sender is not among those counted so far: its answer was in flight until now
    obtain ⟨V, hcard, hV⟩ := h.counted p k x hx
    have hnew : m.src ∉ V := by
      intro hmem
      exact (hV _ hmem).2 (hcalls.mem_iff.mpr (List.mem_cons_self ..))
    have hok := h.calls m (hperm.mem_iff.mpr (List.mem_cons_self ..))
    simp only [VoteCallOk, hm, hdst] at hok
    obtain ⟨y, hy, -, hballot⟩ := hok.2.2 hminc
    obtain rfl : x = y := Option.some.inj (hx.symm.trans hy)
    refine ⟨insert m.src V, ?_, fun q hq => ?_⟩
    · rw [Finset.card_insert_of_notMem hnew, if_pos rfl]
      omega
    · rw [hsame, install_net, hnet, install_trace]
      rcases Finset.mem_insert.mp hq with rfl | hq
      · exact ⟨(hballot hgranted).mono (List.subset_append_right _ _), hgone⟩
      · obtain ⟨hb, hc⟩ := hV q hq
        refine ⟨hb.mono (List.subset_append_right _ _), fun hmem => hc ?_⟩
        exact hcalls.mem_iff.mpr (List.mem_cons_of_mem _ hmem)

/-- A vote reply is counted. -/
theorem ElectionsOk.count (h : s.ElectionsOk) {m : Packet n α} (hperm : s.net.Perm (m :: net))
    (hdst : m.dst = p) {k votes : ℕ} {reply : RequestVoteReply} {x : Election}
    (hm : m.payload = .voteReply k reply) (hminc : m.incarnation = (s.peers p).incarnation)
    (hx : (s.peers p).elections[k]? = some x)
    (hvotes : votes = if reply.voteGranted then x.votes + 1 else x.votes)
    (hinc : e.peer.incarnation = (s.peers p).incarnation)
    (hel : e.peer.elections = (s.peers p).elections.set k { x with votes })
    (hsends : e.sends = []) :
    (s.install p net e).ElectionsOk ∧ (s.install p net e).Counted p k x.term votes := by
  have hcounted : (s.install p net e).Counted p k x.term votes := by
    rw [hvotes]
    exact h.counted_reply hperm hdst hm hminc hx hinc hsends
  refine ⟨?_, hcounted⟩
  have hcalls := voteCalls_perm_of_reply hperm hdst hm hminc
  have hnet : voteCalls (net ++ e.sends) = voteCalls net := by
    rw [hsends, List.append_nil]
  have hsub : net ⊆ s.net := fun x hx => hperm.mem_iff.mpr (List.mem_cons_of_mem _ hx)
  have hsubset : voteCalls (net ++ e.sends) ⊆ voteCalls s.net := by
    intro c hc
    rw [hnet] at hc
    exact hcalls.mem_iff.mpr (List.mem_cons_of_mem _ hc)
  have hmove : ElectionsMove (s.peers p) e.peer := by
    refine Or.inr ⟨hinc, ?_⟩
    rw [hel]
    exact ElectionsKept.set hx rfl id
  apply h.install hsub hmove
  · rw [hnet]
    exact (List.nodup_cons.mp (hcalls.nodup_iff.mp h.nodup)).2
  · intro c hc
    exact Or.inl (hsubset hc)
  · intro m' hm'
    rw [hsends] at hm'
    cases hm'
  · intro j y hy
    rw [hel] at hy
    apply List.mem_append_right
    rcases getElem?_set_cases hy with ⟨rfl, rfl⟩ | ⟨-, hy⟩
    · exact h.stood p j x hx
    · exact h.stood p j y hy
  · intro j y hy
    rw [hel] at hy
    rcases getElem?_set_cases hy with ⟨rfl, rfl⟩ | ⟨-, hy⟩
    · exact hcounted
    · refine (h.counted p j y hy).install ?_ fun r hr => hsubset hr
      rw [install_peers_self, hinc]

/-- More than half of the votes are a majority of the ballots. -/
theorem Counted.majority {k T votes : ℕ} (h : s.Counted p k T votes) (hvotes : n / 2 < votes) :
    Majority fun q => Ballot s.trace q T p := by
  obtain ⟨V, hcard, hV⟩ := h
  refine ⟨V, ?_, fun q hq => (hV q hq).1⟩
  rw [Fintype.card_fin]
  omega

end Step

/-- The step does not win an election that is over. -/
def NoStaleWin (s : System n α) (a : Action n α) : Prop := s.delivers Peer.staleWin a = false

instance (s : System n α) (a : Action n α) : Decidable (s.NoStaleWin a) :=
  inferInstanceAs (Decidable (_ = _))

variable [RaftGob α] {s : System n α} {a : Action n α} {p : Fin n} {c : Cause n α} {e : Effect n α}

theorem ElectionsOk.step (h : s.ElectionsOk) (hme : (s.peers p).rf.me = p)
    (hok : (s.peers p).InstallOk) (htarget : s.target a = some (p, c))
    (hdoes : Does (s.peers p) c e) :
    (s.install p (s.inFlight a) e).ElectionsOk := by
  have hsub := s.inFlight_sublist a
  cases hdoes with
  | crashed | appendPanicked =>
    exact h.install_quiet hsub (fun m hm => by cases hm) (Or.inl ⟨rfl, rfl⟩)
      fun k x hx => by cases hx
  | timedOut =>
    rw [hme]
    exact h.stand hsub
  | electionLost _ hx hstart =>
    refine h.install_quiet hsub (fun m hm => by cases hm)
      (Or.inr ⟨rfl, ElectionsKept.set hx rfl fun _ => rfl⟩) fun j y hy => ?_
    rcases getElem?_set_cases hy with ⟨rfl, rfl⟩ | ⟨-, hy⟩
    · exact Or.inl ⟨rfl, _, hx, rfl, rfl⟩
    · exact Or.inl ⟨rfl, y, hy, rfl, rfl⟩
  | votesAsked _ hx hstart hterm => exact h.ask hsub hme hx hstart hterm hme
  | @voteRefused m k args _ hm =>
    obtain ⟨hperm, hdst⟩ := perm_of_target htarget
    refine h.answer hperm hdst hme hm rfl rfl rfl fun hgranted => by cases hgranted
  | @voted m k args _ hm =>
    obtain ⟨hperm, hdst⟩ := perm_of_target htarget
    refine h.answer hperm hdst hme hm rfl rfl rfl fun _ => Or.inl ⟨args, ?_, rfl, rfl⟩
    rw [hme]
    exact List.mem_cons_self ..
  | voteCounted _ hinc hm hx _ hvotes =>
    obtain ⟨hperm, hdst⟩ := perm_of_target htarget
    exact (h.count hperm hdst hm hinc hx hvotes rfl rfl rfl).1
  | won _ hinc hm hx _ _ hvotes =>
    obtain ⟨hperm, hdst⟩ := perm_of_target htarget
    exact (h.count hperm hdst hm hinc hx hvotes rfl rfl rfl).1
  | @replicated k term requests =>
    apply h.install_silent hsub rfl rfl
    intro m hm
    obtain ⟨x, -, rfl⟩ := List.mem_map.mp hm
    unfold Peer.replicationCall Packet.voteCall
    cases x.2 <;> rfl
  | @installDone msg reply hinst =>
    apply h.install_silent hsub rfl rfl
    intro m hm
    obtain rfl := List.mem_singleton.mp hm
    obtain ⟨term, args, r, -, hpay⟩ := hok msg m hinst
    simp [Packet.voteCall, hpay]
  | appendRefused | appended | snapshotRefused =>
    apply h.install_silent hsub rfl rfl
    intro m hm
    obtain rfl := List.mem_singleton.mp hm
    rfl
  | _ => exact h.install_silent hsub rfl rfl fun m hm => by cases hm

theorem Reachable.electionsOk (h : s.Reachable) : s.ElectionsOk := by
  refine invariant ?_ ?_ h
  · constructor
    · exact List.nodup_nil
    · intro m hm
      cases hm
    · intro p k x hx
      cases hx
    · intro p k x hx
      cases hx
  · intro s a p c e hs _ htarget hdoes hok
    exact hok.step (hs.me p) (hs.installOk p) htarget hdoes

/-! ## At most one leader -/

omit [RaftGob α] in
/-- The votes that win are of an election of the current term, so they are a majority of its
ballots. -/
theorem majority_of_wins (hwins : Wins (s.peers p) c e) (hel : s.ElectionsOk) (hok : s.NoStaleWin a)
    (htarget : s.target a = some (p, c)) :
    Majority fun q => Ballot (s.install p (s.inFlight a) e).trace q
      (s.peers p).rf.currentTerm p := by
  obtain ⟨hrole, -, hinc', hsends, -, m, k, x, votes, reply, rfl, hinc, hm, hx, hterm, hvotes,
    hmost, hel'⟩ := hwins
  obtain ⟨hperm, hdst⟩ := perm_of_target htarget
  have hcounted := (hel.count hperm hdst hm hinc hx hvotes hinc' hel' hsends).2
  have hcurrent : x.term = (s.peers p).rf.currentTerm := by
    by_contra hne
    rw [NoStaleWin, delivers_eq htarget] at hok
    simp [Peer.staleWin, hm, hx, hne, hrole, hterm, ← hvotes, hmost] at hok
  rw [← hcurrent]
  exact hcounted.majority hmost

theorem Led.step (h : s.Led) (hel : s.ElectionsOk) (hme : (s.peers p).rf.me = p)
    (hs : (s.peers p).rf.Saved) (hok : s.NoStaleWin a) (htarget : s.target a = some (p, c))
    (hdoes : Does (s.peers p) c e) : (s.install p (s.inFlight a) e).Led where
  elected := by
    intro q T hmem
    have hkept := (hdoes.voteKept hs).1
    rcases List.mem_append.mp hmem with hnew | hold
    · obtain ⟨rfl, rfl, hwins⟩ := hdoes.elected hnew
      rw [hme, install_peers_self]
      exact ⟨hkept, majority_of_wins hwins hel hok htarget⟩
    · obtain ⟨hle, hmajority⟩ := h.elected hold
      refine ⟨?_, hmajority.mono fun r hr => hr.mono (List.subset_append_right _ _)⟩
      exact hle.trans (forall_install (I := fun q x => (s.peers q).rf.currentTerm ≤
        x.rf.currentTerm) hkept (fun r _ => Nat.le_refl _) q)
  leader := by
    intro q hlead
    by_cases hq : q = p
    · subst hq
      rw [install_peers_self] at hlead ⊢
      obtain ⟨hcur, -, hrole | hwins⟩ := hdoes.leader hs hlead
      · rw [hcur]
        exact List.mem_append_right _ (h.leader hrole)
      · obtain ⟨-, -, -, -, hevents, -⟩ := hwins
        rw [hcur, install_trace, hevents, hme]
        exact List.mem_cons_self ..
    · rw [install_peers_ne _ _ _ _ hq] at hlead ⊢
      exact List.mem_append_right _ (h.leader hlead)
  candidate := by
    intro q hcand hmem
    by_cases hq : q = p
    · subst hq
      rw [install_peers_self] at hcand hmem
      rcases List.mem_append.mp hmem with hnew | hold
      · obtain ⟨-, -, hrole, hrf, -⟩ := hdoes.elected hnew
        rw [hrf, Raft.becomeLeaderLocked_of_eq _ hrole] at hcand
        cases hcand
      · rcases hdoes.candidate hs hcand with ⟨hrole, hcur, -⟩ | hcur
        · rw [hcur] at hold
          exact h.candidate hrole hold
        · have := (h.elected hold).1
          omega
    · rw [install_peers_ne _ _ _ _ hq] at hcand hmem
      rcases List.mem_append.mp hmem with hnew | hold
      · exact hq ((hdoes.elected hnew).1.trans hme)
      · exact h.candidate hcand hold

theorem led_of_noStaleWin (h : Reach System.step NoStaleWin init s) : s.Led := by
  refine invariant ?_ ?_ h
  · constructor
    · intro p T hmem
      cases hmem
    · intro p hlead
      cases hlead
    · intro p hcand
      cases hcand
  · intro s a p c e hs hok htarget hdoes hled
    exact hled.step hs.electionsOk (hs.me p) (hs.saved p) hok htarget hdoes

omit [RaftGob α] in
/-- A term is won at most once. -/
theorem Led.unique (h : s.Led) (hvotes : s.VotesOk) {p q : Fin n} {T : ℕ}
    (hp : .elected p T ∈ s.trace) (hq : .elected q T ∈ s.trace) : p = q := by
  obtain ⟨r, hr, hr'⟩ := (h.elected hp).2.exists_both (h.elected hq).2
  exact hvotes.unique hr hr'

/-- The trace only grows. -/
theorem trace_of_reach {ok : System n α → Action n α → Prop} {t : System n α}
    (h : Reach System.step ok s t) {x : Event n α} (hx : x ∈ s.trace) : x ∈ t.trace := by
  refine h.invariant (I := fun t => x ∈ t.trace) ?_ hx
  intro s a t hs _ ha
  obtain ⟨p, c, e, -, -, rfl⟩ := step_cases ha
  exact List.mem_append_right _ hs

/-- When no election that is over is won, two peers that are leaders of the same term, at the same
time or one after the other, are the same peer. -/
theorem election_safety {t : System n α} (hs : Reach System.step NoStaleWin init s)
    (ht : Reach System.step NoStaleWin s t) {p q : Fin n} (hp : (s.peers p).rf.role = .leader)
    (hq : (t.peers q).rf.role = .leader)
    (hterm : (s.peers p).rf.currentTerm = (t.peers q).rf.currentTerm) : p = q := by
  have hled := led_of_noStaleWin (hs.trans ht)
  have hmine := trace_of_reach ht ((led_of_noStaleWin hs).leader hp)
  rw [hterm] at hmine
  exact hled.unique (Reachable.of_reach (hs.trans ht)).votesOk hmine (hled.leader hq)

/-- A leader elected the usual way. -/
theorem election_safety_run : ∃ s : System 3 ℕ, Reach System.step NoStaleWin init s ∧
    (s.peers 0).rf.role = .leader ∧ ∀ q, (s.peers q).rf.role = .leader →
      (s.peers 0).rf.currentTerm = (s.peers q).rf.currentTerm → 0 = q := by
  have hrun : ∃ s : System 3 ℕ, Reach System.step NoStaleWin init s ∧
      (s.peers 0).rf.role = .leader :=
    Reach.exists_of_exec
      [.act 0 .electionTimeout, .act 0 (.startElection 0), .deliver 0, .deliver 1]
      (by decide +kernel)
  obtain ⟨s, hs, hlead⟩ := hrun
  exact ⟨s, hs, hlead, fun q hq hterm => election_safety hs (Reach.refl s) hlead hq hterm⟩

/-- Peer `0` asks for votes in term 2, times out again and is a candidate of term 3 when a vote of
term 2 makes it leader; peer `2` has won term 3. -/
theorem two_leaders : ¬ ∀ (s : System 3 ℕ) (p q : Fin 3), s.Reachable →
    (s.peers p).rf.role = .leader → (s.peers q).rf.role = .leader →
    (s.peers p).rf.currentTerm = (s.peers q).rf.currentTerm → p = q := by
  intro h
  have hrun : ∃ s : System 3 ℕ, s.Reachable ∧ ((s.peers 0).rf.role = .leader ∧
      (s.peers 2).rf.role = .leader ∧
      (s.peers 0).rf.currentTerm = (s.peers 2).rf.currentTerm) :=
    Reach.exists_of_exec [.act 0 .electionTimeout, .act 0 (.startElection 0), .deliver 0,
      .act 0 .electionTimeout, .act 2 .electionTimeout, .act 2 .electionTimeout,
      .act 2 (.startElection 1), .deliver 3, .deliver 3, .deliver 1] (by decide +kernel)
  obtain ⟨s, hs, hp, hq, hterm⟩ := hrun
  exact absurd (h s 0 2 hs hp hq hterm) (by decide)

end System

end LogicRaft
