import LogicRaft.Cluster.NodeLog
import LogicRaft.Cluster.Commit

/-!
# The leaders' logs of a run

`Recorded s H` relates a state of the cluster to the logs `H` of the leaders of all terms so far:
what the log of every peer is made of, what every request in flight was built from, what the voters
held when they gave their votes, and that everything handed to the service is chosen. The history
`H` is kept by nobody; it grows when a leader is elected and when a leader takes a command. `Rooted
s H` is the part of it that does not speak of the services: it needs less of a run. The lemmas here
say how the relation goes through a step of one peer, from what the step does to that peer's own
log.
-/

namespace LogicRaft

variable {n : ℕ} {α : Type}

/-- Peer `q` has acknowledged position `i` of the log of term `T`: everybody starts with the
placeholder, an answered append request covers its entries, a leader has its own log. -/
def Acked (tr : List (Event n α)) (H : Logs α) (q : Fin n) (T i : ℕ) : Prop :=
  (T = 0 ∧ i = 0) ∨
    (∃ args, .appended q args ∈ tr ∧ args.term = T ∧
      i ≤ args.prevLogIndex + args.entries.length) ∨
    (.elected q T ∈ tr ∧ i < (H.log T).length)

theorem Acked.mono {tr tr' : List (Event n α)} {H H' : Logs α} (hsub : tr ⊆ tr')
    (hext : H.Extends H') {q : Fin n} {T i : ℕ} (h : Acked tr H q T i) : Acked tr' H' q T i := by
  rcases h with hzero | ⟨args, hmem, hargs⟩ | ⟨hmem, hi⟩
  · exact Or.inl hzero
  · exact Or.inr (Or.inl ⟨args, hsub hmem, hargs⟩)
  · exact Or.inr (Or.inr ⟨hsub hmem, Nat.lt_of_lt_of_le hi (hext T).1.length_le⟩)

/-- An acknowledgement is old, or one of the events of the step. -/
theorem acked_append_cases {ev tr : List (Event n α)} {H : Logs α} {q : Fin n} {T i : ℕ}
    (h : Acked (ev ++ tr) H q T i) :
    Acked tr H q T i ∨
      (∃ args, .appended q args ∈ ev ∧ args.term = T ∧
        i ≤ args.prevLogIndex + args.entries.length) ∨
      (.elected q T ∈ ev ∧ i < (H.log T).length) := by
  rcases h with hzero | ⟨args, hmem, hargs⟩ | ⟨hmem, hi⟩
  · exact Or.inl (Or.inl hzero)
  · rcases List.mem_append.mp hmem with hnew | hold
    · exact Or.inr (Or.inl ⟨args, hnew, hargs⟩)
    · exact Or.inl (Or.inr (Or.inl ⟨args, hold, hargs⟩))
  · rcases List.mem_append.mp hmem with hnew | hold
    · exact Or.inr (Or.inr ⟨hnew, hi⟩)
    · exact Or.inl (Or.inr (Or.inr ⟨hold, hi⟩))

/-- Only the logs of the terms that were won by the peer matter. -/
theorem Acked.of_log_eq {tr : List (Event n α)} {H H' : Logs α} {q : Fin n} {T i : ℕ}
    (h : Acked tr H' q T i) (hlog : .elected q T ∈ tr → H'.log T = H.log T) :
    Acked tr H q T i := by
  refine h.imp_right (Or.imp_right fun ⟨hmem, hi⟩ => ⟨hmem, ?_⟩)
  rwa [← hlog hmem]

/-- Events that acknowledge something. -/
def Event.acknowledges : Event n α → Bool
  | .appended .. | .elected .. => true
  | _ => false

/-- Events that promise something: a vote, or a command handed to the service. -/
def Event.promises : Event n α → Bool
  | .voteGranted .. => true
  | .applied _ msg => msg.commandValid
  | _ => false

/-- Only acknowledgements matter. -/
theorem acked_append {ev tr : List (Event n α)} {H : Logs α}
    (hev : ∀ x ∈ ev, x.acknowledges = false) : Acked (ev ++ tr) H = Acked tr H := by
  have hmem : ∀ x : Event n α, x.acknowledges = true → (x ∈ ev ++ tr ↔ x ∈ tr) := by
    intro x hx
    refine ⟨fun h => ?_, List.mem_append_right _⟩
    rcases List.mem_append.mp h with h | h
    · rw [hev x h] at hx
      cases hx
    · exact h
  funext q T i
  simp only [Acked, hmem (.appended q _) rfl, hmem (.elected q _) rfl]

/-- The command of this message is chosen at its index. -/
def MsgOk (H : Logs α) (acked : Fin n → ℕ → ℕ → Prop) (msg : ApplyMsg α) : Prop :=
  msg.commandValid = true →
    ∃ T r, H.ChosenBy acked T msg.commandIndex r ∧ r.command = msg.command

theorem MsgOk.extend {H H' : Logs α} {acked acked' : Fin n → ℕ → ℕ → Prop} {msg : ApplyMsg α}
    (h : MsgOk H acked msg) (hext : H.Extends H') (himp : ∀ q T i, acked q T i → acked' q T i) :
    MsgOk H' acked' msg := by
  intro hvalid
  obtain ⟨T, r, hr, hcommand⟩ := h hvalid
  exact ⟨T, r, hr.extend hext himp, hcommand⟩

/-- What `applicationTicker` has collected and not sent yet is chosen: at the index its message has,
or will get. -/
def TickerOk (H : Logs α) (acked : Fin n → ℕ → ℕ → Prop) (rf : Raft n α) : Prop :=
  ∀ x, rf.ticker.progress = some x →
    (∀ j r, x.built ≤ j → x.entries[j]? = some r → r.commandValid = true →
      ∃ T, H.ChosenBy acked T (rf.lastApplied + 1 + j) r) ∧
    ∀ msg, x.offer = some msg → MsgOk H acked msg

theorem TickerOk.of_none {H : Logs α} {acked : Fin n → ℕ → ℕ → Prop} {rf : Raft n α}
    (h : rf.ticker.progress = none) : TickerOk H acked rf := by
  intro x hx
  rw [h] at hx
  cases hx

theorem TickerOk.congr {H : Logs α} {acked : Fin n → ℕ → ℕ → Prop} {rf rf' : Raft n α}
    (h : TickerOk H acked rf) (hticker : rf'.ticker.progress = rf.ticker.progress)
    (hlast : rf'.lastApplied = rf.lastApplied) : TickerOk H acked rf' := by
  intro x hx
  rw [hticker] at hx
  rw [hlast]
  exact h x hx

theorem TickerOk.extend {H H' : Logs α} {acked acked' : Fin n → ℕ → ℕ → Prop} {rf : Raft n α}
    (h : TickerOk H acked rf) (hext : H.Extends H')
    (himp : ∀ q T i, acked q T i → acked' q T i) : TickerOk H' acked' rf := by
  intro x hx
  obtain ⟨hbatch, hoffer⟩ := h x hx
  refine ⟨fun j r hj hr hvalid => ?_, fun msg hmsg => (hoffer msg hmsg).extend hext himp⟩
  obtain ⟨T, hT⟩ := hbatch j r hj hr hvalid
  exact ⟨T, hT.extend hext himp⟩

namespace System

/-- The end of the log that a vote request names, as long as its candidate stands. -/
def AskOk (s : System n α) (args : RequestVoteArgs n) : Prop :=
  args.term ≤ (s.peers args.candidateId).rf.currentTerm ∧
    ((s.peers args.candidateId).rf.role = .candidate →
      args.term = (s.peers args.candidateId).rf.currentTerm →
      args.lastLogIndex = (s.peers args.candidateId).rf.log.size - 1 ∧
        args.lastLogTerm = (s.peers args.candidateId).rf.log.lastLogTerm)

/-- What the requests in flight carry. An append request comes from the leader of its term. -/
def RequestOk (s : System n α) (H : Logs α) (m : Packet n α) : Prop :=
  match m.payload with
  | .voteRequest _ args => s.AskOk args
  | .appendRequest _ args => EntriesOk H (Acked s.trace H) args ∧ .elected m.src args.term ∈ s.trace
  | .snapshotRequest _ args =>
    ∃ r, H.ChosenBy (Acked s.trace H) args.term args.lastIncludedIndex r ∧
      r.term = args.lastIncludedTerm
  | _ => True

/-- A majority endorsed the log that the winner of term `U` started with, and has seen the term. -/
def BackedIn (s : System n α) (H : Logs α) (U : ℕ) : Prop :=
  0 < H.start U ∧ ∃ r, (H.log U)[H.start U - 1]? = some r ∧ Majority fun q =>
    H.Endorses (Acked s.trace H) q U r.term (H.start U - 1) ∧ U ≤ (s.peers q).rf.currentTerm

/-- `H` holds the logs of all leaders of the run that led to `s`: what it says of the logs, the
requests and the votes. -/
structure Rooted (s : System n α) (H : Logs α) : Prop where
  won : ∀ T, H.log T ≠ [] → T = 0 ∨ ∃ p, .elected p T ∈ s.trace
  backed : ∀ U, 0 < U → H.log U ≠ [] → s.BackedIn H U
  nodes : ∀ p, ∃ src, NodeOk H (Acked s.trace H) p (s.peers p).rf src ∧
    LeaderOk H (s.peers p).rf src
  requests : ∀ m ∈ s.net, s.RequestOk H m
  grants : ∀ q args, .voteGranted q args ∈ s.trace → s.AskOk args ∧ (H.log args.term = [] →
    H.Endorses (Acked s.trace H) q args.term args.lastLogTerm args.lastLogIndex)

/-- The same with the services: what they get is chosen. -/
structure Recorded (s : System n α) (H : Logs α) : Prop extends Rooted s H where
  tickers : ∀ p, TickerOk H (Acked s.trace H) (s.peers p).rf
  applied : ∀ p msg, .applied p msg ∈ s.trace → MsgOk H (Acked s.trace H) msg

/-- The requests that a step sends and the votes that it gives fit the leaders' logs; `s` is the
state after it. -/
structure AsksOk (s : System n α) (H : Logs α) (acked : Fin n → ℕ → ℕ → Prop) (e : Effect n α) :
    Prop where
  sends : ∀ m ∈ e.sends, s.RequestOk H m
  grants : ∀ q args, .voteGranted q args ∈ e.events → s.AskOk args ∧ (H.log args.term = [] →
    H.Endorses acked q args.term args.lastLogTerm args.lastLogIndex)

/-- So does what it hands to the service. -/
structure SaysOk (s : System n α) (H : Logs α) (acked : Fin n → ℕ → ℕ → Prop) (e : Effect n α) :
    Prop extends AsksOk s H acked e where
  applied : ∀ q msg, .applied q msg ∈ e.events → MsgOk H acked msg

section Complete

variable {s : System n α} {H : Logs α}

/-- A step that promises nothing. -/
theorem AsksOk.of_modest {acked : Fin n → ℕ → ℕ → Prop} {e : Effect n α}
    (hsends : ∀ m ∈ e.sends, s.RequestOk H m) (hev : ∀ x ∈ e.events, x.promises = false) :
    s.AsksOk H acked e := by
  refine ⟨hsends, fun q args hmem => ?_⟩
  cases hev _ hmem

/-- A step that sends nothing and promises nothing. -/
theorem AsksOk.of_silence {acked : Fin n → ℕ → ℕ → Prop} {e : Effect n α} (hsends : e.sends = [])
    (hev : ∀ x ∈ e.events, x.promises = false) : s.AsksOk H acked e := by
  refine .of_modest (fun m hm => ?_) hev
  rw [hsends] at hm
  cases hm

/-- Every leader started with all that was committed in earlier terms. -/
theorem Rooted.complete (h : s.Rooted H) {U : ℕ} (hU : H.log U ≠ []) :
    H.Complete (Acked s.trace H) U := by
  refine LeaderLogs.leader_completeness (fun V hV hne => ?_) U hU
  obtain ⟨hpos, r, hr, hmajority⟩ := h.backed V hV hne
  exact ⟨hpos, r, hr, hmajority.mono fun q hq => hq.1⟩

/-- Whatever is handed to the service with one index carries one command. -/
theorem Recorded.applied_unique (h : s.Recorded H) {p q : Fin n} {msg msg' : ApplyMsg α}
    (hp : .applied p msg ∈ s.trace) (hq : .applied q msg' ∈ s.trace)
    (hv : msg.commandValid = true) (hv' : msg'.commandValid = true)
    (hindex : msg.commandIndex = msg'.commandIndex) : msg.command = msg'.command := by
  obtain ⟨T, r, hr, hcommand⟩ := h.applied p msg hp hv
  obtain ⟨T', r', hr', hcommand'⟩ := h.applied q msg' hq hv'
  rw [hindex] at hr
  have heq : r = r' := hr.unique (fun U hU => h.toRooted.complete hU) hr'
  rw [← hcommand, ← hcommand', heq]

end Complete

/-! ## The start of a run -/

variable (α) in
/-- Before any election everybody has the placeholder of term 0. -/
def initialLogs : Logs α := LeaderLogs.initial LogRecord.term { term := 0 } rfl

theorem committed_initial (tr : List (Event n α)) (hn : 0 < n) :
    (initialLogs α).Committed (Acked tr (initialLogs α)) 0 0 := by
  refine ⟨⟨{ term := 0 }, rfl, rfl⟩, Finset.univ, ?_, fun q _ => Or.inl ⟨rfl, rfl⟩⟩
  rw [Finset.card_univ, Fintype.card_fin]
  omega

variable [RaftGob α]

theorem rooted_init : (init : System n α).Rooted (initialLogs α) := by
  refine ⟨?_, ?_, ?_, ?_, ?_⟩
  · intro T hT
    by_contra hne
    exact hT (if_neg fun h => hne (Or.inl h))
  · intro U hpos hne
    exact absurd (if_neg (by omega)) hne
  · intro p
    refine ⟨0, ⟨Nat.zero_le _, List.cons_ne_nil _ _, Nat.zero_le _, ?_, ?_, Nat.zero_lt_one, ?_, ?_,
      ?_⟩, fun hlead => by cases hlead⟩
    · intro k hk hlt
      have hlt' : k < 1 := hlt
      have hk' : 0 < k := hk
      omega
    · rintro T i (⟨rfl, rfl⟩ | ⟨args, hmem, -⟩ | ⟨hmem, -⟩)
      · exact Or.inr ⟨rfl, Nat.zero_lt_one⟩
      · cases hmem
      · cases hmem
    · intro hbase
      exact absurd hbase (Nat.lt_irrefl 0)
    · intro k hk hle
      have hle' : k ≤ 0 := hle
      have hk' : 0 < k := hk
      omega
    · refine ⟨{ term := 0 }, { term := 0 }, rfl, rfl, ⟨0, 0, Nat.zero_le _, ?_, Nat.le_refl 0, rfl⟩,
        rfl⟩
      exact committed_initial _ p.pos
  · intro m hm
    cases hm
  · intro q args hmem
    cases hmem

theorem recorded_init : (init : System n α).Recorded (initialLogs α) := by
  refine ⟨rooted_init, fun p => .of_none rfl, fun p msg hmem => ?_⟩
  cases hmem

/-! ## One step -/

section Step

variable {s : System n α} {H H' : Logs α} {p : Fin n} {c : Cause n α} {e : Effect n α}
  {net : List (Packet n α)}

theorem AskOk.install (hdoes : Does (s.peers p) c e) (hs : (s.peers p).rf.Saved)
    {args : RequestVoteArgs n} (h : s.AskOk args) : (s.install p net e).AskOk args := by
  unfold AskOk at h ⊢
  by_cases hp : args.candidateId = p
  · rw [hp] at h ⊢
    rw [install_peers_self]
    have hkept := (hdoes.voteKept hs).1
    refine ⟨h.1.trans hkept, fun hrole hterm => ?_⟩
    rcases hdoes.candidate hs hrole with ⟨hold, hcur, hsize, hlast⟩ | hcur
    · rw [hsize, hlast]
      exact h.2 hold (hterm.trans hcur)
    · have := h.1
      omega
  · rw [install_peers_ne _ _ _ _ hp]
    exact h

/-- How the relation goes through a step: what has to be shown of the peer that takes it. -/
theorem Rooted.install (h : s.Rooted H) (hs : s.Reachable) (hnet : net ⊆ s.net)
    (hdoes : Does (s.peers p) c e) (hext : H.Extends H')
    (hacks : ∀ q T i, Acked (e.events ++ s.trace) H' q T i →
      Acked s.trace H q T i ∨ (q = p ∧ T = e.peer.rf.currentTerm))
    (hwon : ∀ T, H'.log T ≠ [] → H.log T ≠ [] ∨ .elected p T ∈ e.events)
    (hbacked : ∀ U, H.log U = [] → H'.log U ≠ [] → (s.install p net e).BackedIn H' U)
    (hnode : ∃ src, NodeOk H' (Acked (e.events ++ s.trace) H') p e.peer.rf src ∧
      LeaderOk H' e.peer.rf src)
    (hothers : ∀ q ≠ p, (s.peers q).rf.role = .leader →
      H'.log (s.peers q).rf.currentTerm = H.log (s.peers q).rf.currentTerm)
    (hsaid : (s.install p net e).AsksOk H' (Acked (e.events ++ s.trace) H') e) :
    (s.install p net e).Rooted H' := by
  have himp : ∀ q T i, Acked s.trace H q T i → Acked (e.events ++ s.trace) H' q T i :=
    fun q T i hq => hq.mono (List.subset_append_right _ _) hext
  have hkept := (hdoes.voteKept (hs.saved p)).1
  have hcur : ∀ q, (s.peers q).rf.currentTerm ≤ ((s.install p net e).peers q).rf.currentTerm :=
    forall_install (I := fun q x => (s.peers q).rf.currentTerm ≤ x.rf.currentTerm) hkept
      fun q _ => Nat.le_refl _
  -- a voter of term `U` acknowledges nothing in earlier terms any more
  have hendorses : ∀ {q U lastTerm lastIndex}, U ≤ (s.peers q).rf.currentTerm →
      H.Endorses (Acked s.trace H) q U lastTerm lastIndex →
      H'.Endorses (Acked (e.events ++ s.trace) H') q U lastTerm lastIndex := by
    intro q U lastTerm lastIndex hU hend
    refine hend.extend hext himp fun T i hack hlt => ?_
    rcases hacks q T i hack with hold | ⟨rfl, rfl⟩
    · exact hold
    · omega
  refine ⟨?_, ?_, ?_, ?_, ?_⟩
  · intro T hT
    rcases hwon T hT with hold | hnew
    · rcases h.won T hold with hzero | ⟨q, hq⟩
      · exact Or.inl hzero
      · exact Or.inr ⟨q, List.mem_append_right _ hq⟩
    · exact Or.inr ⟨p, List.mem_append_left _ hnew⟩
  · intro U hpos hU
    by_cases hold : H.log U = []
    · exact hbacked U hold hU
    · obtain ⟨hstart, r, hr, hmajority⟩ := h.backed U hpos hold
      unfold BackedIn
      rw [(hext U).2 hold]
      refine ⟨hstart, r, hext.get hr, hmajority.mono fun q hq => ?_⟩
      exact ⟨hendorses hq.2 hq.1, hq.2.trans (hcur q)⟩
  · intro q
    by_cases hq : q = p
    · subst hq
      rw [install_peers_self]
      exact hnode
    · rw [install_peers_ne _ _ _ _ hq]
      obtain ⟨src, hsrc, hlead⟩ := h.nodes q
      refine ⟨src, hsrc.extend hext himp fun T i hack => ?_, fun hrole => ?_⟩
      · rcases hacks q T i hack with hold | ⟨heq, -⟩
        · exact Or.inl hold
        · exact absurd heq hq
      · obtain ⟨heq, hsize⟩ := hlead hrole
        refine ⟨heq, ?_⟩
        rw [heq, hothers q hq hrole, ← heq, hsize]
  · intro m hm
    rcases List.mem_append.mp hm with hm | hm
    · have hok := h.requests m (hnet hm)
      unfold RequestOk at hok ⊢
      split at hok
      case h_1 => exact hok.install hdoes (hs.saved p)
      case h_2 _ args _ =>
        obtain ⟨⟨⟨r₀, hr₀, hterm⟩, hentries, hstart, hlt, r, hr⟩, hsrc⟩ := hok
        refine ⟨⟨⟨r₀, hext.get hr₀, hterm⟩, fun hj => hext.get (hentries hj), ?_, hlt, r,
          hr.extend hext himp⟩, List.mem_append_right _ hsrc⟩
        rw [(hext args.term).2 (LeaderLogs.ne_nil hr₀)]
        exact hstart
      case h_3 =>
        obtain ⟨r, hr, hterm⟩ := hok
        exact ⟨r, hr.extend hext himp, hterm⟩
      case h_4 => trivial
    · exact hsaid.sends m hm
  · intro q args hmem
    rcases List.mem_append.mp hmem with hnew | hold
    · exact hsaid.grants q args hnew
    · obtain ⟨hask, hend⟩ := h.grants q args hold
      refine ⟨hask.install hdoes (hs.saved p), fun hnil => ?_⟩
      have hU : args.term ≤ (s.peers q).rf.currentTerm :=
        (hs.votesOk.remembered (Or.inl ⟨args, hold, rfl, rfl⟩)).1
      refine hendorses hU (hend ?_)
      by_contra hne
      exact hext.won hne hnil

/-- A step that acknowledges nothing and elects nobody leaves the leaders' logs as they are. -/
theorem Rooted.silent (h : s.Rooted H) (hs : s.Reachable) (hnet : net ⊆ s.net)
    (hdoes : Does (s.peers p) c e) (hev : ∀ x ∈ e.events, x.acknowledges = false)
    (hnode : ∃ src, NodeOk H (Acked s.trace H) p e.peer.rf src ∧ LeaderOk H e.peer.rf src)
    (hsaid : (s.install p net e).AsksOk H (Acked s.trace H) e) :
    (s.install p net e).Rooted H := by
  have hacked : Acked (e.events ++ s.trace) H = Acked s.trace H := acked_append hev
  refine h.install hs hnet hdoes (LeaderLogs.Extends.refl H) ?_ (fun T hT => Or.inl hT)
    (fun U hnil hne => absurd hnil hne) ?_ (fun q _ _ => rfl) ?_
  · intro q T i hack
    rw [hacked] at hack
    exact Or.inl hack
  · rw [hacked]
    exact hnode
  · rw [hacked]
    exact hsaid

/-- A step that keeps the log and does not raise the commit index. -/
theorem Rooted.quiet (h : s.Rooted H) (hs : s.Reachable) (hnet : net ⊆ s.net)
    (hdoes : Does (s.peers p) c e) (hev : ∀ x ∈ e.events, x.acknowledges = false)
    (hlog : e.peer.rf.log = (s.peers p).rf.log)
    (hcommit : e.peer.rf.commitIndex ≤ (s.peers p).rf.commitIndex)
    (hsaid : (s.install p net e).AsksOk H (Acked s.trace H) e) :
    (s.install p net e).Rooted H := by
  obtain ⟨src, hnode, hlead⟩ := h.nodes p
  have hkept := (hdoes.voteKept (hs.saved p)).1
  refine h.silent hs hnet hdoes hev ⟨src, hnode.congr hlog hcommit hkept, fun hrole => ?_⟩ hsaid
  obtain ⟨hcur, -, hold | hwins⟩ := hdoes.leader (hs.saved p) hrole
  · rw [hcur, hlog]
    exact hlead hold
  · obtain ⟨-, -, -, -, hevents, -⟩ := hwins
    have := hev (.elected (s.peers p).rf.me (s.peers p).rf.currentTerm) (by rw [hevents]; simp)
    cases this

omit [RaftGob α] in
/-- How the rest of the relation goes through a step whose logs, requests and votes are in order. -/
theorem Recorded.install (h : s.Recorded H) (hroot : (s.install p net e).Rooted H')
    (hext : H.Extends H') (hticker : TickerOk H (Acked s.trace H) e.peer.rf)
    (hsaid : (s.install p net e).SaysOk H' (Acked (e.events ++ s.trace) H') e) :
    (s.install p net e).Recorded H' := by
  have himp : ∀ q T i, Acked s.trace H q T i → Acked (e.events ++ s.trace) H' q T i :=
    fun q T i hq => hq.mono (List.subset_append_right _ _) hext
  refine ⟨hroot, ?_, fun q msg hmem => ?_⟩
  · exact forall_install (I := fun _ x => TickerOk H' (Acked (e.events ++ s.trace) H') x.rf)
      (hticker.extend hext himp) fun q _ => (h.tickers q).extend hext himp
  · rcases List.mem_append.mp hmem with hnew | hold
    · exact hsaid.applied q msg hnew
    · exact (h.applied q msg hold).extend hext himp

omit [RaftGob α] in
/-- What a step has sent and whom it has voted for is in the state after it. -/
theorem Rooted.saysOk (h : (s.install p net e).Rooted H')
    (happlied : ∀ q msg, .applied q msg ∈ e.events →
      MsgOk H' (Acked (e.events ++ s.trace) H') msg) :
    (s.install p net e).SaysOk H' (Acked (e.events ++ s.trace) H') e where
  sends m hm := h.requests m (List.mem_append_right _ hm)
  grants q args hmem := h.grants q args (List.mem_append_left _ hmem)
  applied := happlied

end Step

end System

end LogicRaft
