import LogicRaft.Cluster.LogSteps
import LogicRaft.Cluster.Leaders
import LogicRaft.Cluster.SharedLog

/-!
# The terms of a log without compaction

As long as nobody calls `Snapshot`, a log starts with the placeholder of term `0` at index `0`, and
the terms after it never decrease and lie between `1` and the current term. Requests carry a piece
of such a log. `firstLogFor` therefore finds a term where it is, and never at position `0`, so a
refused request does not bring `nextIndex` to `0`, no leader ever sends a snapshot, and the base
stays `0`.

That `nextIndex` does not pass the end of the log rests on the leader's log growing only: a positive
reply is counted in the term its request was sent in, and a peer leads a term only once.

All this is about requests that are sent as they were built. One that shares its array with a log
that has changed since then can carry any terms (`altered_request`).
-/

namespace LogicRaft

variable {n : ℕ} {α : Type}

/-- The service calls `Snapshot`. -/
def Action.callsSnapshot : Action n α → Bool
  | .act _ (.snapshot _ _) => true
  | _ => false

/-- Without compaction: the placeholder of term `0` at index `0`, and nondecreasing terms between
`1` and `T` after it. -/
structure Log.Disciplined (l : Log α) (T : ℕ) : Prop where
  base : l.base = 0
  first : l.baseTerm = 0
  sorted : (l.records.map LogRecord.term).Pairwise (· ≤ ·)
  bounds : ∀ k r, 0 < k → l.get k = some r → 1 ≤ r.term ∧ r.term ≤ T

/-- `PrevLogTerm` and the terms of the entries, in this order. -/
def AppendEntriesArgs.terms (args : AppendEntriesArgs n α) : List ℕ :=
  args.prevLogTerm :: args.entries.map LogRecord.term

/-- The request carries a piece of such a log. -/
structure AppendEntriesArgs.Disciplined (args : AppendEntriesArgs n α) : Prop where
  sorted : args.terms.Pairwise (· ≤ ·)
  prev_le : args.prevLogTerm ≤ args.term
  prev_zero : args.prevLogIndex = 0 → args.prevLogTerm = 0
  bounds : ∀ r ∈ args.entries, 1 ≤ r.term ∧ r.term ≤ args.term

/-! ## Logs -/

namespace Log.Disciplined

variable {l : Log α} {T : ℕ}

theorem get_eq (h : l.Disciplined T) (k : ℕ) : l.get k = l.records[k]? := by
  rw [get_of_base_le _ (by rw [h.base]; exact Nat.zero_le k), h.base, Nat.sub_zero]

theorem initial (T : ℕ) : (Log.fresh 0 invalidTerm [] : Log α).Disciplined T where
  base := rfl
  first := rfl
  sorted := List.pairwise_singleton _ _
  bounds k r hk hr := by
    obtain ⟨-, hlt⟩ := bounds_of_get hr
    rw [size_fresh] at hlt
    have hlen : ([] : List (LogRecord α)).length = 0 := rfl
    omega

theorem mono (h : l.Disciplined T) {T' : ℕ} (hT : T ≤ T') : l.Disciplined T' where
  base := h.base
  first := h.first
  sorted := h.sorted
  bounds k r hk hr := ⟨(h.bounds k r hk hr).1, (h.bounds k r hk hr).2.trans hT⟩

theorem zero_term (h : l.Disciplined T) {r : LogRecord α} (hr : l.get 0 = some r) : r.term = 0 := by
  obtain ⟨r', hr', hterm⟩ := l.get_base
  rw [h.base, hr] at hr'
  rw [Option.some.inj hr', hterm, h.first]

theorem term_le (h : l.Disciplined T) {k : ℕ} {r : LogRecord α} (hr : l.get k = some r) :
    r.term ≤ T := by
  rcases Nat.eq_zero_or_pos k with rfl | hk
  · rw [h.zero_term hr]
    exact Nat.zero_le T
  · exact (h.bounds k r hk hr).2

/-- The search for the term of a record after the placeholder ends after the placeholder. -/
theorem firstLogFor_pos (h : l.Disciplined T) {k : ℕ} {r : LogRecord α} (hk : 0 < k)
    (hr : l.get k = some r) : 1 ≤ l.firstLogFor r.term := by
  have hpos := (h.bounds k r hk hr).1
  obtain ⟨m, -, hfirst⟩ := exists_firstOf hr
  have hsorted : l.TermsSorted := h.sorted
  rw [firstLogFor_of_below hfirst (hsorted.below hfirst), h.base, Nat.sub_zero]
  refine Nat.pos_of_ne_zero fun hzero => ?_
  -- the placeholder is of term `0`
  subst hzero
  obtain ⟨x, hx, hterm⟩ := hfirst.here
  have := h.zero_term hx
  omega

/-- A leader's new record. -/
theorem append (h : l.Disciplined T) {lr : LogRecord α} (hpos : 1 ≤ T) (hlr : lr.term = T) :
    (l.append lr).Disciplined T where
  base := h.base
  first := by
    rw [baseTerm_append]
    exact h.first
  sorted := by
    rw [Log.append, List.map_append, List.pairwise_append]
    refine ⟨h.sorted, List.pairwise_singleton _ _, fun x hx y hy => ?_⟩
    obtain ⟨r, hr, rfl⟩ := List.mem_map.mp hx
    obtain ⟨k, hk⟩ := List.getElem?_of_mem hr
    obtain rfl := List.mem_singleton.mp hy
    rw [hlr]
    exact h.term_le (by rw [h.get_eq, hk])
  bounds k r hk hr := by
    rw [get_append] at hr
    split at hr
    · obtain rfl := Option.some.inj hr
      omega
    · exact h.bounds k r hk hr

/-- What the consistency check does for the terms: those kept do not exceed `PrevLogTerm`. -/
theorem term_le_of_mem_take (h : l.Disciplined T) {i : ℕ} {prev r : LogRecord α}
    (hprev : l.get i = some prev) (hr : r ∈ l.records.take (i + 1)) : r.term ≤ prev.term := by
  rw [h.get_eq] at hprev
  have hsorted := h.sorted.sublist ((List.take_sublist (i + 1) l.records).map LogRecord.term)
  rw [List.take_add_one, hprev, Option.toList_some] at hr hsorted
  rw [List.map_append, List.pairwise_append] at hsorted
  rcases List.mem_append.mp hr with hr | hr
  · exact hsorted.2.2 _ (List.mem_map_of_mem hr) _ (List.mem_singleton.mpr rfl)
  · rw [List.mem_singleton.mp hr]

theorem spliceAfter (h : l.Disciplined T) {args : AppendEntriesArgs n α} (hargs : args.Disciplined)
    (hT : T ≤ args.term) {prev : LogRecord α} (hprev : l.get args.prevLogIndex = some prev)
    (hmatch : prev.term = args.prevLogTerm) :
    (l.spliceAfter args.prevLogIndex args.entries).Disciplined args.term where
  base := h.base
  first := by
    rw [baseTerm_spliceAfter]
    exact h.first
  sorted := by
    have hentries := hargs.sorted
    rw [AppendEntriesArgs.terms, List.pairwise_cons] at hentries
    rw [Log.spliceAfter, List.map_append, List.pairwise_append, h.base, Nat.sub_zero]
    refine ⟨h.sorted.sublist ((List.take_sublist _ _).map _), hentries.2, fun x hx y hy => ?_⟩
    obtain ⟨r, hr, rfl⟩ := List.mem_map.mp hx
    calc r.term ≤ prev.term := h.term_le_of_mem_take hprev hr
      _ = args.prevLogTerm := hmatch
      _ ≤ y := hentries.1 y hy
  bounds k r hk hr := by
    obtain ⟨hbase, hsize⟩ := bounds_of_get hprev
    rw [get_spliceAfter _ hbase hsize] at hr
    split at hr
    · exact ⟨(h.bounds k r hk hr).1, (h.bounds k r hk hr).2.trans hT⟩
    · exact hargs.bounds r (List.mem_of_getElem? hr)

end Log.Disciplined

/-! ## Requests and replies -/

namespace Log.Disciplined

variable {rf : Raft n α} {q : Fin n} {args : AppendEntriesArgs n α}

/-- What a leader sends is a piece of its log. -/
theorem request (h : rf.log.Disciplined rf.currentTerm)
    (hsent : rf.replicationRequest q = some (.append args)) : args.Disciplined := by
  obtain ⟨prev, hprev, hterm, hentries, hcur, -⟩ := Raft.replicationRequest_append hsent
  obtain ⟨-, -, hget⟩ := Raft.replicationRequest_entries hsent
  rw [Log.suffixFrom, h.base, Nat.sub_zero] at hentries
  refine ⟨?_, ?_, fun hzero => ?_, fun r hr => ?_⟩
  · have hdrop : rf.log.records.drop args.prevLogIndex = prev :: args.entries := by
      rw [h.get_eq] at hprev
      obtain ⟨hlt, rfl⟩ := List.getElem?_eq_some_iff.mp hprev
      rw [hentries]
      exact List.drop_eq_getElem_cons hlt
    have hsorted := h.sorted.sublist ((List.drop_sublist args.prevLogIndex _).map LogRecord.term)
    rw [hdrop, List.map_cons, ← hterm] at hsorted
    exact hsorted
  · rw [hterm, hcur]
    exact h.term_le hprev
  · rw [hzero] at hprev
    rw [hterm, h.zero_term hprev]
  · obtain ⟨j, hj⟩ := List.getElem?_of_mem hr
    have hread := hget (args.prevLogIndex + 1 + j) (by omega)
    rw [Nat.add_sub_cancel_left, hj] at hread
    rw [hcur]
    exact h.bounds _ r (by omega) hread.symm

variable [RaftGob α]

/-- A refusal shows a higher term, or names an index after the placeholder. -/
theorem refusal (h : rf.log.Disciplined rf.currentTerm) (hargs : args.Disciplined)
    {rf' : Raft n α} {reply : AppendEntriesReply} (hok : rf.appendEntries args = .ok rf' reply)
    (hsuccess : reply.success = false) : args.term < reply.term ∨ 1 ≤ reply.conflictIndex := by
  unfold Raft.appendEntries at hok
  dsimp only at hok
  split at hok
  case isTrue hlt =>
    obtain ⟨-, rfl⟩ := Outcome.ok.inj hok
    exact Or.inl hlt
  case isFalse =>
    rw [Raft.becomeFollowerLocked_log] at hok
    right
    split at hok
    case isTrue =>
      obtain ⟨-, rfl⟩ := Outcome.ok.inj hok
      exact Nat.lt_of_le_of_lt (Nat.zero_le _) rf.log.base_lt_size
    case isFalse =>
      split at hok
      case h_1 => cases hok
      case h_2 prev hprev =>
        split at hok
        case isTrue hne =>
          obtain ⟨-, rfl⟩ := Outcome.ok.inj hok
          refine h.firstLogFor_pos (Nat.pos_of_ne_zero fun hzero => hne ?_) hprev
          rw [hargs.prev_zero hzero, h.zero_term (hzero ▸ hprev)]
        case isFalse =>
          obtain ⟨-, rfl⟩ := Outcome.ok.inj hok
          cases hsuccess

end Log.Disciplined

section Step

variable [RaftGob α] {p : Peer n α} {c : Cause n α} {e : Effect n α}

/-- Where an entry of a leader's `nextIndex` comes from: it was there, it is the end of the log, or
a reply to an append or a snapshot request has set it. -/
theorem Does.nextIndex (h : Does p c e) (hs : p.rf.Saved) (hlead : e.peer.rf.role = .leader)
    (q : Fin n) :
    (p.rf.role = .leader ∧ e.peer.rf.nextIndex q = p.rf.nextIndex q) ∨
      e.peer.rf.nextIndex q = e.peer.rf.log.size ∨
      (∃ m term args reply, c = .packet m ∧ m.payload = .appendReply term args reply ∧
        p.rf.currentTerm = term ∧ p.rf.role = .leader ∧ q = m.src ∧
        ((reply.success = false ∧ reply.term ≤ p.rf.currentTerm ∧
            e.peer.rf.nextIndex q = p.rf.conflictNext q reply) ∨
          e.peer.rf.nextIndex q = args.prevLogIndex + args.entries.length + 1)) ∨
      (∃ m term args reply, c = .packet m ∧ m.payload = .snapshotReply term args reply) := by
  cases h.progressStep hs hlead with
  | kept hrole _ hnext => exact Or.inl ⟨hrole, by rw [hnext]⟩
  | won _ hlog _ hnext => exact Or.inr (Or.inl (by rw [hnext, hlog]))
  | replicated hrole hrf =>
    rw [hrf]
    by_cases hq : q = p.rf.me
    · subst hq
      exact Or.inr (Or.inl (Function.update_self _ _ _))
    · exact Or.inl ⟨hrole, Function.update_of_ne hq _ _⟩
  | @conflicted m _ _ _ hcause hm hreply hterm hrole hsuccess _ hnext =>
    rw [hnext]
    by_cases hq : q = m.src
    · subst hq
      exact Or.inr (Or.inr (Or.inl ⟨m, _, _, _, hcause, hm, hterm, hrole, rfl,
        Or.inl ⟨hsuccess, hreply, Function.update_self _ _ _⟩⟩))
    · exact Or.inl ⟨hrole, Function.update_of_ne hq _ _⟩
  | @matched m _ _ _ hcause hm hterm hrole _ _ hnext =>
    rw [hnext]
    by_cases hq : q = m.src
    · subst hq
      exact Or.inr (Or.inr (Or.inl ⟨m, _, _, _, hcause, hm, hterm, hrole, rfl,
        Or.inr (Function.update_self _ _ _)⟩))
    · exact Or.inl ⟨hrole, Function.update_of_ne hq _ _⟩
  | snapshotAcked hcause hm => exact Or.inr (Or.inr (Or.inr ⟨_, _, _, _, hcause, hm⟩))

end Step

/-! ## Runs -/

namespace System

/-- No service calls `Snapshot`. -/
def Uncompacted (_ : System n α) (a : Action n α) : Prop := a.callsSnapshot = false

instance (s : System n α) (a : Action n α) : Decidable (s.Uncompacted a) :=
  inferInstanceAs (Decidable (_ = false))

/-- The round that built this request: its leader will not win the term again, and as long as it
leads, its log covers the request. -/
structure Round (s : System n α) (p : Fin n) (term : ℕ) (args : AppendEntriesArgs n α) : Prop where
  term_eq : args.term = term
  past : (s.peers p).rf.Past term
  covered : (s.peers p).rf.role = .leader → (s.peers p).rf.currentTerm = term →
    args.prevLogIndex + args.entries.length + 1 ≤ (s.peers p).rf.log.size

/-- What is in flight. -/
def PacketOk (s : System n α) (m : Packet n α) : Prop :=
  match m.payload with
  | .appendRequest term args => args.Disciplined ∧ s.Round m.src term args
  | .appendReply term args reply => s.Round m.dst term args ∧
      (reply.success = false → args.term < reply.term ∨ 1 ≤ reply.conflictIndex)
  | .snapshotRequest .. | .snapshotReply .. => False
  | _ => True

structure TermsOk (s : System n α) : Prop where
  logs : ∀ p, (s.peers p).rf.log.Disciplined (s.peers p).rf.currentTerm
  nexts : ∀ p, (s.peers p).rf.role = .leader → ∀ q,
    1 ≤ (s.peers p).rf.nextIndex q ∧ (s.peers p).rf.nextIndex q ≤ (s.peers p).rf.log.size
  packets : ∀ m ∈ s.net, s.PacketOk m
  installing : ∀ p, (s.peers p).installing = none

variable [RaftGob α] {s : System n α} {a : Action n α} {p : Fin n} {c : Cause n α}
  {e : Effect n α} {net : List (Packet n α)}

theorem Round.install {q : Fin n} {term : ℕ} {args : AppendEntriesArgs n α}
    (h : s.Round q term args) (hs : (s.peers p).rf.Saved) (hdoes : Does (s.peers p) c e) :
    (s.install p net e).Round q term args := by
  by_cases hq : q = p
  · subst hq
    refine ⟨h.term_eq, ?_, fun hlead hterm => ?_⟩
    · rw [install_peers_self]
      exact hdoes.past hs h.past
    · rw [install_peers_self] at hlead hterm ⊢
      obtain ⟨hrole, hcur⟩ := hdoes.leader_of_past hs hlead (hterm ▸ h.past)
      have hsize := (hdoes.logStep hs).size_le hlead
      exact (h.covered hrole (hcur.trans hterm)).trans hsize
  · have hpeer := install_peers_ne s p net e hq
    refine ⟨h.term_eq, ?_, ?_⟩
    · rw [hpeer]
      exact h.past
    · rw [hpeer]
      exact h.covered

theorem PacketOk.install {m : Packet n α} (h : s.PacketOk m) (hs : (s.peers p).rf.Saved)
    (hdoes : Does (s.peers p) c e) : (s.install p net e).PacketOk m := by
  unfold PacketOk at h ⊢
  split at h
  case h_1 => exact ⟨h.1, h.2.install hs hdoes⟩
  case h_2 => exact ⟨h.1.install hs hdoes, h.2⟩
  case h_3 => exact h
  case h_4 => exact h
  case h_5 => trivial

omit [RaftGob α] in
/-- An append request that is delivered. -/
theorem TermsOk.appendRequest (h : s.TermsOk) {m : Packet n α} {term : ℕ}
    {args : AppendEntriesArgs n α} (htarget : s.target a = some (p, .packet m))
    (hm : m.payload = .appendRequest term args) : args.Disciplined ∧ s.Round m.src term args := by
  have hpacket := h.packets m (mem_of_target htarget).1
  rwa [PacketOk, hm] at hpacket

omit [RaftGob α] in
/-- No snapshot request is ever delivered. -/
theorem TermsOk.no_snapshotRequest (h : s.TermsOk) {m : Packet n α} {term : ℕ}
    {args : InstallSnapshotArgs n} (htarget : s.target a = some (p, .packet m)) :
    m.payload ≠ .snapshotRequest term args := by
  intro hm
  have hpacket := h.packets m (mem_of_target htarget).1
  rwa [PacketOk, hm] at hpacket

/-- The log of the peer that takes the step. -/
theorem TermsOk.log_step (h : s.TermsOk) (hs : s.Reachable) (hok : s.Uncompacted a)
    (htarget : s.target a = some (p, c)) (hdoes : Does (s.peers p) c e) :
    e.peer.rf.log.Disciplined e.peer.rf.currentTerm := by
  have hmono := (hdoes.voteKept (hs.saved p)).1
  cases hdoes.logStep (hs.saved p) with
  | kept hlog =>
    rw [hlog]
    exact (h.logs p).mono hmono
  | accepted _ hlog _ hterm =>
    have hpos : 1 ≤ (s.peers p).rf.currentTerm :=
      (Reachable.voteKept (Reach.refl init) hs p).1
    rw [hlog, hterm]
    exact (h.logs p).append hpos rfl
  | appended hcause hcall hterm hprev hmatch hlog _ hcur =>
    subst hcause
    rw [hlog, hcur]
    exact (h.logs p).spliceAfter (h.appendRequest htarget hcall).1 hterm hprev hmatch
  | compacted hcause =>
    subst hcause
    obtain rfl := act_of_target htarget
    cases hok
  | installed hcause hcall =>
    subst hcause
    exact absurd hcall (h.no_snapshotRequest htarget)

/-- `nextIndex` of the peer that takes the step. -/
theorem TermsOk.next_step (h : s.TermsOk) (hs : s.Reachable) (htarget : s.target a = some (p, c))
    (hdoes : Does (s.peers p) c e) (hlead : e.peer.rf.role = .leader) (q : Fin n) :
    1 ≤ e.peer.rf.nextIndex q ∧ e.peer.rf.nextIndex q ≤ e.peer.rf.log.size := by
  have hsize := (hdoes.logStep (hs.saved p)).size_le hlead
  rcases hdoes.nextIndex (hs.saved p) hlead q with ⟨hrole, hnext⟩ | hnext |
    ⟨m, term, args, reply, rfl, hm, hterm, hrole, rfl, hnext⟩ | ⟨m, term, args, reply, rfl, hm⟩
  · rw [hnext]
    exact ⟨(h.nexts p hrole q).1, (h.nexts p hrole q).2.trans hsize⟩
  · rw [hnext]
    exact ⟨Nat.lt_of_le_of_lt (Nat.zero_le _) e.peer.rf.log.base_lt_size, Nat.le_refl _⟩
  · obtain ⟨hmem, hdst⟩ := mem_of_target htarget
    have hpacket := h.packets m hmem
    rw [PacketOk, hm, hdst] at hpacket
    obtain ⟨hround, hrefusal⟩ := hpacket
    obtain ⟨hpos, hle⟩ := h.nexts p hrole m.src
    rcases hnext with ⟨hsuccess, hreply, hnext⟩ | hnext
    · -- a refusal of this term names an index after the placeholder
      have hconflict : 1 ≤ reply.conflictIndex := by
        rcases hrefusal hsuccess with hlt | hconflict
        · rw [hround.term_eq] at hlt
          omega
        · exact hconflict
      rw [hnext]
      have hlast := (s.peers p).rf.conflictNext_le m.src reply
      exact ⟨(s.peers p).rf.conflictNext_pos hpos hconflict, hlast.trans (hle.trans hsize)⟩
    · rw [hnext]
      exact ⟨Nat.le_add_left 1 _, (hround.covered hrole hterm).trans hsize⟩
  · have hpacket := h.packets m (mem_of_target htarget).1
    rw [PacketOk, hm] at hpacket
    exact hpacket.elim

/-- The requests of a leader. -/
theorem TermsOk.packetOk_round (h : s.TermsOk) (hs : s.Reachable)
    (hrole : (s.peers p).rf.role = .leader) {x : Fin n × ReplicationRequest n α}
    (hx : (s.peers p).rf.replicationRequest x.1 = some x.2) :
    s.PacketOk ((s.peers p).replicationCall (s.peers p).rf.currentTerm x) := by
  obtain ⟨q, request⟩ := x
  cases request with
  | append args =>
    obtain ⟨-, -, -, -, hterm, -⟩ := Raft.replicationRequest_append hx
    obtain ⟨-, hsize, -⟩ := Raft.replicationRequest_entries hx
    have hround : s.Round p (s.peers p).rf.currentTerm args := by
      refine ⟨hterm, Or.inr ⟨rfl, ?_⟩, fun _ _ => ?_⟩
      · rw [hrole]
        decide
      · omega
    refine ⟨(h.logs p).request hx, ?_⟩
    rw [Peer.replicationCall, Peer.packet, hs.me p]
    exact hround
  | snapshot args =>
    have hle := Raft.nextIndex_le_of_snapshot hx
    rw [(h.logs p).base] at hle
    exact absurd ((h.nexts p hrole q).1.trans hle) (by decide)

/-- What the step sends. -/
theorem TermsOk.sends (h : s.TermsOk) (hs : s.Reachable) (htarget : s.target a = some (p, c))
    (hdoes : Does (s.peers p) c e) {m : Packet n α} (hm : m ∈ e.sends) :
    (s.install p net e).PacketOk m := by
  have hall := hdoes
  cases hdoes with
  | votesAsked =>
    obtain ⟨q, -, rfl⟩ := List.mem_map.mp hm
    trivial
  | replicated _ _ hterm hrole hreq =>
    obtain ⟨x, hx, rfl⟩ := List.mem_map.mp hm
    subst hterm
    exact (h.packetOk_round hs hrole (hreq x hx).2).install (hs.saved p) hall
  | installDone hinst =>
    rw [h.installing p] at hinst
    cases hinst
  | voteRefused | voted =>
    obtain rfl := List.mem_singleton.mp hm
    trivial
  | @appendRefused call term args reply _ hcall _ hsuccess hok =>
    obtain rfl := List.mem_singleton.mp hm
    obtain ⟨hargs, hround⟩ := h.appendRequest htarget hcall
    exact ⟨hround.install (hs.saved p) hall, fun hno => (h.logs p).refusal hargs hok hno⟩
  | @appended call term args prev _ hcall =>
    obtain rfl := List.mem_singleton.mp hm
    obtain ⟨-, hround⟩ := h.appendRequest htarget hcall
    exact ⟨hround.install (hs.saved p) hall, fun hno => by cases hno⟩
  | snapshotRefused _ hcall => exact absurd hcall (h.no_snapshotRequest htarget)
  | _ => cases hm

theorem TermsOk.installing_step (h : s.TermsOk) (htarget : s.target a = some (p, c))
    (hdoes : Does (s.peers p) c e) : e.peer.installing = none := by
  cases hdoes with
  | crashed | appendPanicked | installDone => rfl
  | installed _ hcall => exact absurd hcall (h.no_snapshotRequest htarget)
  | _ => exact h.installing p

theorem TermsOk.step (h : s.TermsOk) (hs : s.Reachable) (hok : s.Uncompacted a)
    (htarget : s.target a = some (p, c)) (hdoes : Does (s.peers p) c e) :
    (s.install p (s.inFlight a) e).TermsOk where
  logs := forall_install (I := fun _ x => x.rf.log.Disciplined x.rf.currentTerm)
    (h.log_step hs hok htarget hdoes) fun q _ => h.logs q
  nexts := forall_install (I := fun _ x => x.rf.role = .leader → ∀ r, 1 ≤ x.rf.nextIndex r ∧
    x.rf.nextIndex r ≤ x.rf.log.size) (h.next_step hs htarget hdoes) fun q _ => h.nexts q
  packets m hm := by
    rcases List.mem_append.mp hm with hm | hm
    · exact (h.packets m (mem_of_mem_inFlight hm)).install (hs.saved p) hdoes
    · exact h.sends hs htarget hdoes hm
  installing := forall_install (I := fun _ x => x.installing = none)
    (h.installing_step htarget hdoes) fun q _ => h.installing q

theorem termsOk (h : Reach System.step Uncompacted init s) : s.TermsOk := by
  refine invariant ?_ ?_ h
  · refine ⟨fun p => Log.Disciplined.initial _, fun p hlead => ?_, fun m hm => ?_, fun p => rfl⟩
    · cases hlead
    · cases hm
  · intro s a p c e hs hok htarget hdoes hterms
    exact hterms.step hs hok htarget hdoes

/-- In every run in which nobody calls `Snapshot` and no request is altered before it is encoded:
every log starts with a record of term `0` at index `0`, later records have terms between `1` and
the current term, and terms never decrease. The `PrevLogTerm` and the terms of the entries of every
append request in flight do not decrease either, and do not exceed its term. Every leader has `1 ≤
nextIndex ≤ log.size` for every peer. -/
theorem term_discipline {x : Sharing n α (System n α)}
    (h : (host n α).SharesUnaltered Uncompacted init x) :
    (∀ p, let rf := (x.state.peers p).rf
      rf.log.base = 0 ∧ (∃ r, rf.log.get 0 = some r ∧ r.term = 0) ∧
      (∀ k r, 0 < k → rf.log.get k = some r → 1 ≤ r.term ∧ r.term ≤ rf.currentTerm) ∧
      (rf.log.records.map LogRecord.term).Pairwise (· ≤ ·)) ∧
    (∀ m ∈ x.state.net, ∀ term args, m.payload = .appendRequest term args →
      (args.prevLogTerm :: args.entries.map LogRecord.term).Pairwise (· ≤ ·) ∧
      ∀ t ∈ args.prevLogTerm :: args.entries.map LogRecord.term, t ≤ args.term) ∧
    ∀ p, (x.state.peers p).rf.role = .leader → ∀ q,
      1 ≤ (x.state.peers p).rf.nextIndex q ∧
        (x.state.peers p).rf.nextIndex q ≤ (x.state.peers p).rf.log.size := by
  have hterms := termsOk (Host.reach_of_unaltered h)
  refine ⟨fun p => ?_, fun m hm term args hpay => ?_, hterms.nexts⟩
  · have hlog := hterms.logs p
    refine ⟨hlog.base, ?_, hlog.bounds, hlog.sorted⟩
    obtain ⟨r, hr, hterm⟩ := (x.state.peers p).rf.log.get_base
    rw [hlog.base] at hr
    exact ⟨r, hr, hterm.trans hlog.first⟩
  · have hpacket := hterms.packets m hm
    rw [PacketOk, hpay] at hpacket
    obtain ⟨hargs, -⟩ := hpacket
    refine ⟨hargs.sorted, fun t ht => ?_⟩
    rcases List.mem_cons.mp ht with rfl | ht
    · exact hargs.prev_le
    · obtain ⟨r, hr, rfl⟩ := List.mem_map.mp ht
      exact (hargs.bounds r hr).2

/-- A leader that has sent its first command: peer `1` has it, the request to peer `2` is in
flight. -/
theorem term_discipline_first : ∃ x : Sharing 3 ℕ (System 3 ℕ),
    (host 3 ℕ).SharesUnaltered Uncompacted init x ∧
      (x.state.peers 1).rf.log.records.map LogRecord.term = [0, 2] ∧
      ((x.state.peers 1).rf.log.records.map LogRecord.term).Pairwise (· ≤ ·) ∧
      (∃ m ∈ x.state.net, ∃ args, m.payload = .appendRequest 2 args ∧ args.entries ≠ [] ∧
        ∀ t ∈ args.prevLogTerm :: args.entries.map LogRecord.term, t ≤ args.term) ∧
      (x.state.peers 0).rf.role = .leader ∧ (x.state.peers 0).rf.log.size = 2 ∧
      1 ≤ (x.state.peers 0).rf.nextIndex 1 ∧
      (x.state.peers 0).rf.nextIndex 1 ≤ (x.state.peers 0).rf.log.size := by
  have hrun : ∃ s : System 3 ℕ, Reach System.step Uncompacted init s ∧
      ((s.peers 1).rf.log.records.map LogRecord.term = [0, 2] ∧
        ⟨0, 2, 0, .appendRequest 2 ⟨2, 0, 0, 0, [⟨2, true, some 7⟩], 0⟩⟩ ∈ s.net ∧
        (s.peers 0).rf.role = .leader ∧ (s.peers 0).rf.log.size = 2) :=
    Reach.exists_of_exec [.act 0 .electionTimeout, .act 0 (.startElection 0), .deliver 0,
      .deliver 1, .act 0 (.start 7), .act 0 (.replicationTick 0), .deliver 1, .deliver 2]
      (by decide +kernel)
  obtain ⟨s, hs, hterms, hmem, hrole, hsize⟩ := hrun
  obtain ⟨x, hx, rfl⟩ := (host 3 ℕ).exists_unaltered (Reach.refl init) hs
  obtain ⟨hlogs, hrequests, hnexts⟩ := term_discipline hx
  exact ⟨x, hx, hterms, (hlogs 1).2.2.2,
    ⟨_, hmem, _, rfl, List.cons_ne_nil _ _, (hrequests _ hmem 2 _ rfl).2⟩, hrole, hsize,
    hnexts 0 hrole 1⟩

/-- Peer `0` leads term `2` and has built a request with `7` and `8`. Peer `1` is elected in term
`3`, and peer `0` accepts `9` from it, in place of `7` and in the same array. Only then the request
is encoded and sent: it is of term `2`, and its entries have terms `3` and `2`. -/
theorem altered_request : ∃ x : Sharing 3 ℕ (System 3 ℕ),
    (host 3 ℕ).Shares Uncompacted init x ∧ x.calls[2]? = some none ∧
      x.state.net[2]? = some ⟨0, 2, 0, .appendRequest 2
        ⟨2, 0, 0, 0, [⟨3, true, some 9⟩, ⟨2, true, some 8⟩], 0⟩⟩ :=
  Reach.exists_of_exec [.move (.act 0 .electionTimeout) 0, .move (.act 0 (.startElection 0)) 0,
    .move (.deliver 0) 0, .move (.deliver 1) 0, .move (.act 0 (.start 7)) 2,
    .move (.act 0 (.start 8)) 4, .move (.act 0 (.replicationTick 0)) 0,
    .move (.act 1 .electionTimeout) 0, .move (.act 1 (.startElection 0)) 0, .move (.deliver 4) 0,
    .move (.deliver 4) 0, .move (.act 1 (.start 9)) 2, .move (.act 1 (.replicationTick 0)) 0,
    .encode 4, .encode 4, .encode 4, .encode 4, .move (.deliver 4) 0, .encode 2, .encode 2,
    .encode 2, .encode 2, .encode 2, .encode 2, .encode 2] (by decide +kernel)

end System

end LogicRaft
