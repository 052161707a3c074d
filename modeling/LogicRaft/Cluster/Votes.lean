import LogicRaft.Cluster.Persistence

/-!
# One vote per term

A peer gives at most one vote in a term: it votes only while `votedFor` is `-1`, a candidacy takes
a new term, and both survive crashes because they are saved. Votes are counted where they can be
seen, in the trace: a granted request and a candidacy are both a ballot.
-/

namespace LogicRaft

variable {n : ℕ} {α : Type}

/-- Peer `q` has given its vote of term `t` to `c`: it granted a request, or was the candidate. -/
def Ballot (tr : List (Event n α)) (q : Fin n) (t : ℕ) (c : Fin n) : Prop :=
  (∃ args, Event.voteGranted q args ∈ tr ∧ args.term = t ∧ args.candidateId = c) ∨
    (Event.candidacy q t ∈ tr ∧ c = q)

theorem Ballot.mono {tr tr' : List (Event n α)} {q c : Fin n} {t : ℕ} (hsub : tr ⊆ tr')
    (h : Ballot tr q t c) : Ballot tr' q t c := by
  rcases h with ⟨args, hmem, ht, hc⟩ | ⟨hmem, hc⟩
  · exact Or.inl ⟨args, hsub hmem, ht, hc⟩
  · exact Or.inr ⟨hsub hmem, hc⟩

/-- A ballot is among the newer events or among the older ones. -/
theorem ballot_append {tr tr' : List (Event n α)} {q c : Fin n} {t : ℕ} :
    Ballot (tr ++ tr') q t c ↔ Ballot tr q t c ∨ Ballot tr' q t c := by
  constructor
  · rintro (⟨args, hmem, ht, hc⟩ | ⟨hmem, hc⟩)
    · rcases List.mem_append.mp hmem with hmem | hmem
      · exact Or.inl (Or.inl ⟨args, hmem, ht, hc⟩)
      · exact Or.inr (Or.inl ⟨args, hmem, ht, hc⟩)
    · rcases List.mem_append.mp hmem with hmem | hmem
      · exact Or.inl (Or.inr ⟨hmem, hc⟩)
      · exact Or.inr (Or.inr ⟨hmem, hc⟩)
  · rintro (h | h)
    · exact h.mono (List.subset_append_left _ _)
    · exact h.mono (List.subset_append_right _ _)

/-! ## What a step does to the term and the vote -/

/-- The term does not fall, and within a term only the vote `-1` changes. -/
def VoteKept (rf rf' : Raft n α) : Prop :=
  rf.currentTerm ≤ rf'.currentTerm ∧
    (rf.currentTerm = rf'.currentTerm → rf.votedFor = -1 ∨ rf'.votedFor = rf.votedFor)

theorem VoteKept.refl (rf : Raft n α) : VoteKept rf rf :=
  ⟨Nat.le_refl _, fun _ => Or.inr rfl⟩

theorem VoteKept.trans {rf₁ rf₂ rf₃ : Raft n α} (h₁ : VoteKept rf₁ rf₂) (h₂ : VoteKept rf₂ rf₃) :
    VoteKept rf₁ rf₃ := by
  refine ⟨Nat.le_trans h₁.1 h₂.1, fun heq => ?_⟩
  have hle := h₁.1
  have hle' := h₂.1
  rcases h₁.2 (by omega) with hnone | hsame
  · exact Or.inl hnone
  · rcases h₂.2 (by omega) with hnone | hsame'
    · exact Or.inl (hsame ▸ hnone)
    · exact Or.inr (hsame'.trans hsame)

theorem VoteKept.of_eq {rf rf' : Raft n α} (ht : rf'.currentTerm = rf.currentTerm)
    (hv : rf'.votedFor = rf.votedFor) : VoteKept rf rf' :=
  ⟨Nat.le_of_eq ht.symm, fun _ => Or.inr hv⟩

variable [RaftGob α]

theorem voteKept_becomeFollowerLocked (rf : Raft n α) (t : ℕ) :
    VoteKept rf (rf.becomeFollowerLocked t) := by
  refine ⟨?_, fun heq => Or.inr ?_⟩
  · rw [Raft.becomeFollowerLocked_currentTerm]
    exact Nat.le_max_left _ _
  · rw [Raft.becomeFollowerLocked_currentTerm] at heq
    rw [Raft.becomeFollowerLocked_votedFor, if_neg (by omega)]

theorem voteKept_alignTerm (rf : Raft n α) (t : ℕ) : VoteKept rf (rf.alignTerm t) := by
  unfold Raft.alignTerm
  split
  · exact voteKept_becomeFollowerLocked rf t
  · exact VoteKept.refl rf

section Step

variable {p : Peer n α} {c : Cause n α} {e : Effect n α}

theorem Does.voteKept (h : Does p c e) (hs : p.rf.Saved) : VoteKept p.rf e.peer.rf := by
  cases h with
  | crashed =>
    rw [Peer.crash_rf rfl hs]
    exact VoteKept.of_eq rfl rfl
  | @appendPanicked _ _ args =>
    rw [Peer.crash_rf (Raft.becomeFollowerLocked_me _ _) (hs.becomeFollowerLocked _)]
    exact (voteKept_becomeFollowerLocked p.rf args.term).trans (VoteKept.of_eq rfl rfl)
  | timedOut _ hrole =>
    rw [Raft.becomeCandidateLocked_of_ne _ hrole]
    -- a candidacy starts a term of its own
    refine ⟨Nat.le_succ _, fun heq => ?_⟩
    have : p.rf.currentTerm = p.rf.currentTerm + 1 := heq
    omega
  | won _ _ _ _ hrole =>
    rw [Raft.becomeLeaderLocked_of_eq _ hrole]
    exact VoteKept.of_eq rfl rfl
  | voteRefused => exact voteKept_alignTerm _ _
  | @voted _ _ args _ _ hterm hvote =>
    have hcur : (p.rf.alignTerm args.term).currentTerm = args.term := by
      rw [Raft.alignTerm_currentTerm, Nat.max_eq_right hterm]
    refine ⟨hterm.trans_eq hcur.symm, fun heq => Or.inl (hvote ?_)⟩
    exact heq.trans hcur
  | appendRefused | snapshotRefused | steppedDown => exact voteKept_becomeFollowerLocked _ _
  | @appended _ _ args =>
    obtain ⟨ticker, heq⟩ := (p.rf.becomeFollowerLocked args.term).acceptEntries_eq args
    rw [heq]
    exact (voteKept_becomeFollowerLocked p.rf args.term).trans (VoteKept.of_eq rfl rfl)
  | @installed _ _ args =>
    exact (voteKept_becomeFollowerLocked p.rf args.term).trans (VoteKept.of_eq rfl rfl)
  | @committed _ _ _ _ rf _ _ _ _ _ _ _ hrf =>
    obtain ⟨ticker, heq⟩ := Raft.signal_eq { rf with commitIndex := rf.getMajorityIndexLocked }
    rw [heq, hrf]
    exact VoteKept.of_eq rfl rfl
  | _ => exact VoteKept.of_eq rfl rfl

/-- A new ballot is this peer's own, in its term, and it had no vote in that term before. -/
theorem Does.ballot (h : Does p c e) {q d : Fin n} {t : ℕ} (hb : Ballot e.events q t d) :
    q = p.rf.me ∧ e.peer.rf.currentTerm = t ∧ e.peer.rf.votedFor = (d : ℕ) ∧
      (p.rf.currentTerm = t → p.rf.votedFor = -1) := by
  cases h with
  | timedOut _ hrole =>
    obtain ⟨⟨hq, ht⟩, hd⟩ : (q = p.rf.me ∧ t = p.rf.currentTerm + 1) ∧ d = q := by
      simpa [Ballot] using hb
    subst hq ht hd
    rw [Raft.becomeCandidateLocked_of_ne _ hrole]
    exact ⟨rfl, rfl, rfl, fun heq => by omega⟩
  | @voted _ _ args _ _ hterm hvote =>
    obtain ⟨args', ⟨hq, hargs⟩, ht, hd⟩ :
        ∃ args', (q = p.rf.me ∧ args' = args) ∧ args'.term = t ∧ args'.candidateId = d := by
      simpa [Ballot] using hb
    subst hq hargs ht hd
    refine ⟨rfl, ?_, rfl, hvote⟩
    exact (Raft.alignTerm_currentTerm _ _).trans (Nat.max_eq_right hterm)
  | _ => simp [Ballot, Peer.crash] at hb

end Step

/-! ## Votes in a run -/

namespace System

variable {s t : System n α}

/-- Every vote given is remembered, and no peer gives two votes in one term. -/
structure VotesOk (s : System n α) : Prop where
  remembered : ∀ {q T c}, Ballot s.trace q T c → T ≤ (s.peers q).rf.currentTerm ∧
    (T = (s.peers q).rf.currentTerm → (s.peers q).rf.votedFor = (c : ℕ))
  unique : ∀ {q T c c'}, Ballot s.trace q T c → Ballot s.trace q T c' → c = c'

theorem VotesOk.step {a : Action n α} {p : Fin n} {c : Cause n α} {e : Effect n α}
    (h : s.VotesOk) (hme : (s.peers p).rf.me = p) (hs : (s.peers p).rf.Saved)
    (hdoes : Does (s.peers p) c e) : (s.install p (s.inFlight a) e).VotesOk := by
  have hkept : VoteKept (s.peers p).rf e.peer.rf := hdoes.voteKept hs
  -- a new ballot and an old one of the same term would mean voting with a vote already given
  have hfresh : ∀ {q T c c'}, Ballot e.events q T c → Ballot s.trace q T c' → False := by
    intro q T c c' hnew hold
    obtain ⟨rfl, hT, -, hnone⟩ := hdoes.ballot hnew
    rw [hme] at hold
    obtain ⟨hle, hvote⟩ := h.remembered hold
    have hge := hkept.1
    have heq : (s.peers p).rf.currentTerm = T := by omega
    have hvoted := hvote heq.symm
    rw [hnone heq] at hvoted
    omega
  constructor
  · intro q T d hb
    rw [install_trace] at hb
    by_cases hq : q = p
    · subst hq
      rw [install_peers_self]
      rcases ballot_append.mp hb with hnew | hold
      · obtain ⟨-, hT, hd, -⟩ := hdoes.ballot hnew
        exact ⟨Nat.le_of_eq hT.symm, fun _ => hd⟩
      · obtain ⟨hle, hvote⟩ := h.remembered hold
        have hge := hkept.1
        refine ⟨by omega, fun heq => ?_⟩
        have hvoted := hvote (by omega)
        rcases hkept.2 (by omega) with hnone | hsame
        · rw [hnone] at hvoted
          omega
        · rw [hsame, hvoted]
    · rw [install_peers_ne _ _ _ _ hq]
      rcases ballot_append.mp hb with hnew | hold
      · obtain ⟨rfl, -⟩ := hdoes.ballot hnew
        exact absurd hme hq
      · exact h.remembered hold
  · intro q T d d' hb hb'
    rw [install_trace] at hb hb'
    rcases ballot_append.mp hb with hnew | hold <;> rcases ballot_append.mp hb' with hnew' | hold'
    · obtain ⟨-, -, hd, -⟩ := hdoes.ballot hnew
      obtain ⟨-, -, hd', -⟩ := hdoes.ballot hnew'
      exact Fin.ext (by omega)
    · exact (hfresh hnew hold').elim
    · exact (hfresh hnew' hold).elim
    · exact h.unique hold hold'

theorem Reachable.votesOk (h : s.Reachable) : s.VotesOk := by
  refine invariant ?_ ?_ h
  · constructor
    · rintro q T c (⟨args, hmem, -⟩ | ⟨hmem, -⟩) <;> cases hmem
    · rintro q T c c' (⟨args, hmem, -⟩ | ⟨hmem, -⟩) <;> cases hmem
  · intro s a p c e hs _ _ hdoes hok
    exact hok.step (hs.me p) (hs.saved p) hdoes

theorem Reachable.voteKept (h : s.Reachable) (hrun : Reach step (fun _ _ => True) s t)
    (p : Fin n) : VoteKept (s.peers p).rf (t.peers p).rf := by
  refine hrun.relation (I := Reachable) (R := fun s t => VoteKept (s.peers p).rf (t.peers p).rf)
    (fun s => VoteKept.refl _) (fun _ _ _ h₁ h₂ => h₁.trans h₂) ?_ h
  intro s a t hs _ ha
  refine ⟨hs.next ha, ?_⟩
  obtain ⟨q, c, e, -, hdoes, rfl⟩ := step_cases ha
  by_cases hq : p = q
  · subst hq
    rw [install_peers_self]
    exact hdoes.voteKept (hs.saved p)
  · rw [install_peers_ne _ _ _ _ hq]
    exact VoteKept.refl _

/-- Across crashes, the term of a peer never decreases, within one term its vote changes only from
`-1`, and all the votes it gives in one term, its own candidacy included, go to one candidate. -/
theorem one_vote_per_term (h : s.Reachable) (hrun : Reach step (fun _ _ => True) s t) (p : Fin n) :
    (s.peers p).rf.currentTerm ≤ (t.peers p).rf.currentTerm ∧
      ((s.peers p).rf.currentTerm = (t.peers p).rf.currentTerm →
        (s.peers p).rf.votedFor = -1 ∨ (t.peers p).rf.votedFor = (s.peers p).rf.votedFor) ∧
      (∀ args args', .voteGranted p args ∈ t.trace → .voteGranted p args' ∈ t.trace →
        args.term = args'.term → args.candidateId = args'.candidateId) ∧
      ∀ args, .voteGranted p args ∈ t.trace → .candidacy p args.term ∈ t.trace →
        args.candidateId = p := by
  have hkept := h.voteKept hrun p
  have hvotes : t.VotesOk := (h.tail hrun).votesOk
  refine ⟨hkept.1, hkept.2, fun args args' hg hg' hterm => ?_, fun args hg hcand => ?_⟩
  · exact hvotes.unique (Or.inl ⟨args, hg, rfl, rfl⟩) (Or.inl ⟨args', hg', hterm.symm, rfl⟩)
  · exact hvotes.unique (Or.inl ⟨args, hg, rfl, rfl⟩) (Or.inr ⟨hcand, rfl⟩)

/-- A peer that voted and crashed has given no other vote in that term. -/
theorem one_vote_per_term_crash : ∃ t : System 3 ℕ, Reach step (fun _ _ => True) init t ∧
    .restarted 1 0 ∈ t.trace ∧ ∀ args, .voteGranted 1 args ∈ t.trace → args.term = 2 →
      args.candidateId = 0 := by
  have hrun : ∃ t : System 3 ℕ, Reach step (fun _ _ => True) init t ∧
      (.restarted 1 0 ∈ t.trace ∧ .voteGranted 1 ⟨2, 0, 0, 0⟩ ∈ t.trace) :=
    Reach.exists_of_exec [.act 0 .electionTimeout, .act 0 (.startElection 0), .deliver 0,
      .act 1 .restart, .act 2 .electionTimeout, .act 2 (.startElection 0), .deliver 2, .deliver 2]
      (by decide +kernel)
  obtain ⟨t, ht, hcrash, hvote⟩ := hrun
  obtain ⟨-, -, hsame, -⟩ := one_vote_per_term (Reach.refl init) ht 1
  exact ⟨t, ht, hcrash, fun args hargs hterm => hsame args _ hargs hvote hterm⟩

end System

end LogicRaft
