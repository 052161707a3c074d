import LogicRaft.Cluster.LeaderPeriod
import LogicRaft.Raft.ConflictHints

/-!
# What a leader knows of its peers

A leader has several requests to one peer outstanding, and their replies arrive in any order. A
positive reply sets `matchIndex` to the end of its own request, whatever has been recorded since the
request was sent, and so does a reply to `InstallSnapshot`, which is not even checked for the term
it belongs to. Only `nextIndex` has a guard, against moving up on a refusal. So `matchIndex` can
fall (`matchIndex_falls`), and a late refusal can take `nextIndex` below it.

`progress_never_falls`: in the runs in which no counted reply is older than what the leader already
knows of its sender (`RepliesInOrder`), `matchIndex` does not fall while a peer leads a term and
`nextIndex` stays above it.
-/

namespace LogicRaft

variable {n : ℕ} {α : Type}

namespace Raft

/-- The reply in the packet speaks of at least what is recorded of its sender. For a refusal this is
asked of the follower's hint and of every position at which the search for its term could end. -/
def Timely (rf : Raft n α) (m : Packet n α) : Prop :=
  match m.payload with
  | .appendReply term args reply =>
    rf.currentTerm = term →
      if reply.success then rf.matchIndex m.src ≤ args.prevLogIndex + args.entries.length
      else rf.matchIndex m.src < reply.conflictIndex ∧
        ∀ k < rf.log.records.length, 0 < k →
          (rf.log.records[k]?.map LogRecord.term = some reply.conflictTerm) →
          rf.matchIndex m.src < k
  | .snapshotReply _ args _ => rf.matchIndex m.src ≤ args.lastIncludedIndex
  | _ => True

instance (rf : Raft n α) (m : Packet n α) : Decidable (rf.Timely m) := by
  unfold Timely
  split <;> infer_instance

/-- What is known of a peer is below what is sent to it next, and the leader's own entry is inside
its log. -/
structure Progressed (rf : Raft n α) : Prop where
  next : ∀ q, rf.matchIndex q < rf.nextIndex q
  self : rf.matchIndex rf.me < rf.log.size

section Updates

variable {rf : Raft n α}

theorem lt_conflictNext {src : Fin n} {reply : AppendEntriesReply}
    (hnext : rf.matchIndex src < rf.nextIndex src)
    (hindex : rf.matchIndex src < reply.conflictIndex)
    (hterm : ∀ k < rf.log.records.length, 0 < k →
      rf.log.records[k]?.map LogRecord.term = some reply.conflictTerm → rf.matchIndex src < k) :
    rf.matchIndex src < rf.conflictNext src reply := by
  rw [conflictNext_eq_min]
  refine Nat.lt_min.mpr ⟨?_, hnext⟩
  rw [conflictHint]
  split
  · exact hindex
  · split
    case isTrue hne =>
      rcases Log.firstLogForFrom_cases reply.conflictTerm 0 rf.log.records with
        ⟨k, r, hr, hrterm, -, heq⟩ | ⟨-, heq⟩
      · rw [Log.firstLogFor, heq, Nat.zero_add] at hne ⊢
        refine hterm k (List.getElem?_eq_some_iff.mp hr).1 (Nat.pos_of_ne_zero hne) ?_
        rw [hr, Option.map_some, hrterm]
      · exact absurd heq hne
    case isFalse => exact hindex

/-- A record of `matched` for `src` keeps what is known of the others. -/
theorem le_update_match {f : Fin n → ℕ} {src : Fin n} {matched : ℕ} (h : f src ≤ matched)
    (q : Fin n) : f q ≤ Function.update f src matched q := by
  by_cases hq : q = src
  · rw [hq, Function.update_self]
    exact h
  · rw [Function.update_of_ne hq]

theorem update_match_lt {f g : Fin n → ℕ} (h : ∀ q, f q < g q) (src : Fin n) (matched : ℕ)
    (q : Fin n) :
    Function.update f src matched q < Function.update g src (matched + 1) q := by
  by_cases hq : q = src
  · rw [hq, Function.update_self, Function.update_self]
    exact Nat.lt_succ_self _
  · rw [Function.update_of_ne hq, Function.update_of_ne hq]
    exact h q

end Updates

end Raft

variable [RaftGob α]

/-! ## Nobody sends to itself -/

theorem Does.outward {p : Peer n α} {c : Cause n α} {e : Effect n α} (h : Does p c e)
    (hcall : ∀ m, c = .packet m → m.src ≠ p.rf.me)
    (hinst : ∀ msg reply, p.installing = some (msg, reply) → reply.src ≠ reply.dst) :
    (∀ m ∈ e.sends, m.src ≠ m.dst) ∧
      ∀ msg reply, e.peer.installing = some (msg, reply) → reply.src ≠ reply.dst := by
  cases h with
  | crashed | appendPanicked => exact ⟨fun m hm => (by cases hm), fun msg reply hx => (by cases hx)⟩
  | votesAsked =>
    refine ⟨fun m hm => ?_, hinst⟩
    obtain ⟨q, hq, rfl⟩ := List.mem_map.mp hm
    exact Ne.symm (of_decide_eq_true (List.mem_filter.mp hq).2)
  | replicated _ _ _ _ hreq =>
    refine ⟨fun m hm => ?_, hinst⟩
    obtain ⟨x, hx, rfl⟩ := List.mem_map.mp hm
    exact Ne.symm (hreq x hx).1
  | installDone hblocked =>
    refine ⟨fun m hm => ?_, fun msg reply hx => (by cases hx)⟩
    rw [List.mem_singleton.mp hm]
    exact hinst _ _ hblocked
  | voteRefused | voted | appendRefused | appended | snapshotRefused =>
    refine ⟨fun m hm => ?_, hinst⟩
    rw [List.mem_singleton.mp hm]
    exact Ne.symm (hcall _ rfl)
  | installed =>
    refine ⟨fun m hm => (by cases hm), fun msg reply hx => ?_⟩
    obtain ⟨-, rfl⟩ := Prod.mk.inj (Option.some.inj hx)
    exact Ne.symm (hcall _ rfl)
  | _ => exact ⟨fun m hm => (by cases hm), hinst⟩

namespace System

variable {s u : System n α} {p : Fin n}

/-- No packet is addressed to its sender. -/
structure Outward (s : System n α) : Prop where
  net : ∀ m ∈ s.net, m.src ≠ m.dst
  installing : ∀ p msg reply, (s.peers p).installing = some (msg, reply) → reply.src ≠ reply.dst

theorem Reachable.outward (h : s.Reachable) : s.Outward := by
  refine invariant (I := Outward) ⟨fun m hm => (by cases hm), fun p msg reply hx => (by cases hx)⟩
    ?_ h
  intro s a p c e hs _ htarget hdoes hI
  have hcall : ∀ m, c = .packet m → m.src ≠ (s.peers p).rf.me := by
    rintro m rfl
    obtain ⟨hm, rfl⟩ := mem_of_target htarget
    rw [hs.me]
    exact hI.net m hm
  obtain ⟨hsends, hinst⟩ := hdoes.outward hcall (hI.installing p)
  constructor
  · intro m hm
    rcases List.mem_append.mp hm with hm | hm
    · exact hI.net m ((s.inFlight_sublist a).mem hm)
    · exact hsends m hm
  · exact forall_install (I := fun _ x => ∀ msg reply, x.installing = some (msg, reply) →
      reply.src ≠ reply.dst) hinst fun q _ => hI.installing q

end System

/-! ## Steps of a leader -/

/-- Who is leader after a step has its progress in order, and has lost none of it if it was leader
before. -/
theorem Does.progressed {p : Peer n α} {c : Cause n α} {e : Effect n α} (h : Does p c e)
    (hs : p.rf.Saved) (hlead : e.peer.rf.role = .leader)
    (hcall : ∀ m, c = .packet m → m.src ≠ p.rf.me)
    (htimely : ∀ m, c = .packet m → p.rf.role = .leader → p.rf.Timely m)
    (hp : p.rf.role = .leader → p.rf.Progressed) :
    e.peer.rf.Progressed ∧
      (p.rf.role = .leader → ∀ q, p.rf.matchIndex q ≤ e.peer.rf.matchIndex q) := by
  have hme : e.peer.rf.me = p.rf.me := h.me
  have hsize := (h.logStep hs).size_le hlead
  -- the leader's own entry, if it is as it was
  have hself : p.rf.role = .leader → e.peer.rf.matchIndex p.rf.me = p.rf.matchIndex p.rf.me →
      e.peer.rf.matchIndex e.peer.rf.me < e.peer.rf.log.size := by
    intro hrole hsame
    rw [hme, hsame]
    exact (hp hrole).self.trans_le hsize
  cases h.progressStep hs hlead with
  | kept hrole hmatch hnext =>
    refine ⟨⟨?_, hself hrole (by rw [hmatch])⟩, fun _ q => (by rw [hmatch])⟩
    rw [hmatch, hnext]
    exact (hp hrole).next
  | won hrole hlog hmatch hnext =>
    have hlt := p.rf.log.base_lt_size
    refine ⟨⟨?_, ?_⟩, fun hleader => ?_⟩
    · rw [hmatch, hnext]
      exact fun _ => hlt
    · rw [hmatch, hlog]
      exact hlt
    · rw [hrole] at hleader
      cases hleader
  | replicated hrole hrf =>
    have hlt : p.rf.log.size - 1 < p.rf.log.size := Nat.sub_one_lt_of_lt p.rf.log.base_lt_size
    have hle : p.rf.matchIndex p.rf.me ≤ p.rf.log.size - 1 :=
      Nat.le_sub_one_of_lt (hp hrole).self
    refine ⟨⟨fun q => ?_, ?_⟩, fun _ q => ?_⟩
    · rw [hrf]
      by_cases hq : q = p.rf.me
      · subst hq
        simp only [Raft.matchSelf, Function.update_self]
        exact hlt
      · simp only [Raft.matchSelf, Function.update_of_ne hq]
        exact (hp hrole).next q
    · rw [hrf]
      simp only [Raft.matchSelf, Function.update_self]
      exact hlt
    · rw [hrf]
      exact Raft.le_update_match hle q
  | @conflicted m _ _ reply hcause hm _ hterm hrole hsuccess hmatch hnext =>
    refine ⟨⟨fun q => ?_, hself hrole (by rw [hmatch])⟩, fun _ q => (by rw [hmatch])⟩
    have hlate := htimely m hcause hrole
    simp only [Raft.Timely, hm, hsuccess] at hlate
    obtain ⟨hindex, hsearch⟩ := hlate hterm
    rw [hmatch, hnext]
    by_cases hq : q = m.src
    · rw [hq, Function.update_self]
      exact Raft.lt_conflictNext ((hp hrole).next _) hindex hsearch
    · rw [Function.update_of_ne hq]
      exact (hp hrole).next q
  | @matched m _ args _ hcause hm hterm hrole hsuccess hmatch hnext =>
    have hlate := htimely m hcause hrole
    simp only [Raft.Timely, hm, hsuccess] at hlate
    have hne : p.rf.me ≠ m.src := Ne.symm (hcall m hcause)
    refine ⟨⟨?_, hself hrole (by rw [hmatch, Function.update_of_ne hne])⟩, fun _ => ?_⟩
    · rw [hmatch, hnext]
      exact Raft.update_match_lt (hp hrole).next _ _
    · rw [hmatch]
      exact Raft.le_update_match (hlate hterm)
  | @snapshotAcked m _ args _ hcause hm _ hrole hmatch hnext =>
    have hlate := htimely m hcause hrole
    simp only [Raft.Timely, hm] at hlate
    have hne : p.rf.me ≠ m.src := Ne.symm (hcall m hcause)
    refine ⟨⟨?_, hself hrole (by rw [hmatch, Function.update_of_ne hne])⟩, fun _ => ?_⟩
    · rw [hmatch, hnext]
      exact Raft.update_match_lt (hp hrole).next _ _
    · rw [hmatch]
      exact Raft.le_update_match hlate

/-! ## Runs -/

namespace System

variable {s u v : System n α} {a : Action n α} {p : Fin n}

omit [RaftGob α] in
/-- A packet for a leader is not late. -/
def RepliesInOrder (s : System n α) (a : Action n α) : Prop :=
  match s.target a with
  | some (p, .packet m) => (s.peers p).rf.role = .leader → (s.peers p).rf.Timely m
  | _ => True

omit [RaftGob α] in
instance (s : System n α) (a : Action n α) : Decidable (s.RepliesInOrder a) := by
  unfold RepliesInOrder
  split <;> infer_instance

/-- A step in order, as a step of one peer. -/
theorem step_progressed {c : Cause n α} {e : Effect n α} (hs : s.Reachable)
    (hok : s.RepliesInOrder a) (htarget : s.target a = some (p, c)) (hdoes : Does (s.peers p) c e)
    (hp : (s.peers p).rf.role = .leader → (s.peers p).rf.Progressed)
    (hlead : e.peer.rf.role = .leader) :
    e.peer.rf.Progressed ∧ ((s.peers p).rf.role = .leader →
      ∀ q, (s.peers p).rf.matchIndex q ≤ e.peer.rf.matchIndex q) := by
  refine hdoes.progressed (hs.saved p) hlead ?_ ?_ hp
  · rintro m rfl
    obtain ⟨hm, rfl⟩ := mem_of_target htarget
    rw [hs.me]
    exact hs.outward.net m hm
  · rintro m rfl
    rw [RepliesInOrder, htarget] at hok
    exact hok

/-- Every leader has its progress in order. -/
theorem progressed_of_repliesInOrder (h : Reach System.step RepliesInOrder init s) (p : Fin n)
    (hlead : (s.peers p).rf.role = .leader) : (s.peers p).rf.Progressed := by
  refine peer_invariant (I := fun _ x => x.rf.role = .leader → x.rf.Progressed) ?_ ?_ h p hlead
  · intro p hrole
    cases hrole
  · intro s a p c e hs hok htarget hdoes hp hlead
    exact (step_progressed hs hok htarget hdoes hp hlead).1

/-- Take any two states of a run in which no counted reply is late, one after the other, in which a
peer leads the same term. What it knows of its peers has not become less, and is below what it sends
to them next. -/
theorem progress_never_falls {t : ℕ} (hs : Reach System.step RepliesInOrder init s)
    (hrun : Reach System.step RepliesInOrder s u) (h : s.Leads p t) (h' : u.Leads p t) (q : Fin n) :
    (s.peers p).rf.matchIndex q ≤ (u.peers p).rf.matchIndex q ∧
      (u.peers p).rf.matchIndex q + 1 ≤ (u.peers p).rf.nextIndex q := by
  refine ⟨?_, (progressed_of_repliesInOrder (hs.trans hrun) p h'.1).next q⟩
  have hreach : s.Reachable := Reachable.of_reach hs
  induction hrun with
  | refl => exact Nat.le_refl _
  | @tail u v hrun hlast ih =>
    obtain ⟨a, hok, hstep⟩ := hlast
    have hall : Reach System.step (fun _ _ => True) s u := Reach.mono (fun _ _ _ => trivial) hrun
    have hu : u.Reachable := hreach.tail hall
    have hlead : u.Leads p t := h.leads_of_step hreach hall hstep h'
    refine (ih hlead).trans ?_
    obtain ⟨r, c, e, htarget, hdoes, rfl⟩ := step_cases hstep
    by_cases hr : p = r
    · subst hr
      have hrole := h'.1
      rw [install_peers_self] at hrole ⊢
      exact (step_progressed hu hok htarget hdoes
        (fun _ => progressed_of_repliesInOrder (hs.trans hrun) p hlead.1) hrole).2 hlead.1 q
    · rw [install_peers_ne _ _ _ _ hr]

/-- Peer 0 wins the election of term 2. -/
def electionOfZero : List (Action 3 ℕ) :=
  [.act 0 .electionTimeout, .act 0 (.startElection 0), .deliver 0, .deliver 1]

/-- The leader sends a heartbeat and then a command to peer 1, which answers both. The answer to the
heartbeat is at position 2 in flight, the other at position 4. -/
def heartbeatAndCommand : List (Action 3 ℕ) :=
  [.act 0 (.replicationTick 0), .deliver 1, .act 0 (.start 7), .act 0 (.replicationTick 0),
    .deliver 3]

/-- The answer to the command is counted first, then the one to the heartbeat. -/
theorem matchIndex_falls : ∃ s u : System 3 ℕ, s.Reachable ∧
    Reach System.step (fun _ _ => True) s u ∧ s.Leads 0 2 ∧ u.Leads 0 2 ∧
    (s.peers 0).rf.matchIndex 1 = 1 ∧ (u.peers 0).rf.matchIndex 1 = 0 := by
  have hrun : ∃ s : System 3 ℕ, s.Reachable ∧ (((s.peers 0).rf.role = .leader ∧
      (s.peers 0).rf.currentTerm = 2) ∧ (s.peers 0).rf.matchIndex 1 = 1 ∧
      (exec System.step (fun _ _ => True) [.deliver 2] s).any (fun u =>
        decide (((u.peers 0).rf.role = .leader ∧ (u.peers 0).rf.currentTerm = 2) ∧
          (u.peers 0).rf.matchIndex 1 = 0)) = true) :=
    Reach.exists_of_exec (electionOfZero ++ heartbeatAndCommand ++ [.deliver 4])
      (by decide +kernel)
  obtain ⟨s, hs, hlead, hmatch, hlate⟩ := hrun
  obtain ⟨u, hu, hlead', hmatch'⟩ := Reach.exists_of_exec _ hlate
  exact ⟨s, u, hs, hu, hlead, hlead', hmatch, hmatch'⟩

/-- The same answers in the order in which they were sent. -/
theorem progress_never_falls_two_answers : ∃ s u : System 3 ℕ, s.Leads 0 2 ∧ u.Leads 0 2 ∧
    (u.peers 0).rf.matchIndex 1 = 1 ∧ (s.peers 0).rf.matchIndex 1 ≤ (u.peers 0).rf.matchIndex 1 ∧
    (u.peers 0).rf.matchIndex 1 + 1 ≤ (u.peers 0).rf.nextIndex 1 := by
  have hrun : ∃ s : System 3 ℕ, Reach System.step RepliesInOrder init s ∧
      (((s.peers 0).rf.role = .leader ∧ (s.peers 0).rf.currentTerm = 2) ∧
      (exec System.step RepliesInOrder [.deliver 2, .deliver 3] s).any (fun u =>
        decide (((u.peers 0).rf.role = .leader ∧ (u.peers 0).rf.currentTerm = 2) ∧
          (u.peers 0).rf.matchIndex 1 = 1)) = true) :=
    Reach.exists_of_exec (electionOfZero ++ heartbeatAndCommand) (by decide +kernel)
  obtain ⟨s, hs, hlead, hrest⟩ := hrun
  obtain ⟨u, hu, hlead', hmatch⟩ := Reach.exists_of_exec _ hrest
  exact ⟨s, u, hlead, hlead', hmatch, progress_never_falls hs hu hlead hlead' 1⟩

end System

end LogicRaft
