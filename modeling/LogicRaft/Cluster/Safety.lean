import LogicRaft.Cluster.History
import LogicRaft.Cluster.Progress
import LogicRaft.Cluster.SharedLog

/-!
# State machine safety

Three things the source does with the packets it gets break the agreement on what is applied:

* a candidate wins on the votes of an election that is over (`Peer.staleWin`);
* `AppendEntries` drops everything after the entries of a request, also when nothing conflicts, so a
  delayed request takes back records that were acknowledged and committed (`Peer.losesTail`);
* `InstallSnapshot` moves `lastApplied` while `applicationTicker` is sending a batch, so the rest of
  the batch goes out under wrong indices (`Peer.shiftsBatch`).

In runs without the first two, each step of the cluster carries the leaders' logs along
(`Rooted.exists_step`). Without the third too, what is handed to a service is chosen in them, so any
two commands handed over with the same index are the same (`Safe.command_eq`).

The fourth is the array that a request shares with the log of its sender (`Host.Unaltered`); it is
enough by itself (`two_commands_of_sharing`). `state_machine_safety` is about the runs without all
four.
-/

namespace LogicRaft

variable {n : ℕ} {α : Type}

/-- The peer accepts this request, though it ends before one of the same term that it has accepted
already: it drops what it has acknowledged. -/
def Peer.losesTail (tr : List (Event n α)) (p : Peer n α) (m : Packet n α) : Bool :=
  match m.payload with
  | .appendRequest _ args =>
    match p.rf.log.get args.prevLogIndex with
    | some prev => decide (p.rf.currentTerm ≤ args.term ∧ prev.term = args.prevLogTerm) &&
        tr.any fun ev => match ev with
          | .appended q earlier => decide (q = p.rf.me ∧ earlier.term = args.term ∧
              args.prevLogIndex + args.entries.length <
                earlier.prevLogIndex + earlier.entries.length)
          | _ => false
    | none => false
  | _ => false

/-- The peer installs this snapshot and raises `lastApplied`, and `applicationTicker` has collected
entries whose messages are not built yet. -/
def Peer.shiftsBatch (p : Peer n α) (m : Packet n α) : Bool :=
  match m.payload, p.rf.ticker.progress with
  | .snapshotRequest _ args, some x =>
    decide (p.rf.currentTerm ≤ args.term ∧ p.rf.log.base < args.lastIncludedIndex ∧
      p.rf.lastApplied < args.lastIncludedIndex ∧ x.built < x.entries.length)
  | _, _ => false

namespace System

/-- The step does none of the three. -/
def Safe (s : System n α) (a : Action n α) : Prop :=
  s.NoStaleWin a ∧ s.delivers (Peer.losesTail s.trace) a = false ∧
    s.delivers Peer.shiftsBatch a = false

instance (s : System n α) (a : Action n α) : Decidable (s.Safe a) :=
  inferInstanceAs (Decidable (_ ∧ _ ∧ _))

/-- The step does neither of the two that break the logs. -/
def LogSafe (s : System n α) (a : Action n α) : Prop :=
  s.NoStaleWin a ∧ s.delivers (Peer.losesTail s.trace) a = false

instance (s : System n α) (a : Action n α) : Decidable (s.LogSafe a) :=
  inferInstanceAs (Decidable (_ ∧ _))

theorem Safe.logSafe {s : System n α} {a : Action n α} (h : s.Safe a) : s.LogSafe a :=
  ⟨h.1, h.2.1⟩

variable {s : System n α} {H : Logs α} {a : Action n α} {p : Fin n}

/-- A request that is accepted and loses no tail ends after every one of its term that was accepted
before. -/
theorem le_of_delivers {call : Packet n α} {term : ℕ} {args earlier : AppendEntriesArgs n α}
    {prev : LogRecord α} (htarget : s.target a = some (p, .packet call))
    (hok : s.delivers (Peer.losesTail s.trace) a = false) (hme : (s.peers p).rf.me = p)
    (hcall : call.payload = .appendRequest term args)
    (hterm : (s.peers p).rf.currentTerm ≤ args.term)
    (hprev : (s.peers p).rf.log.get args.prevLogIndex = some prev)
    (hmatch : prev.term = args.prevLogTerm) (hmem : .appended p earlier ∈ s.trace)
    (hsame : earlier.term = args.term) :
    earlier.prevLogIndex + earlier.entries.length ≤ args.prevLogIndex + args.entries.length := by
  rw [delivers_eq htarget, Peer.losesTail, hcall] at hok
  simp only [hprev, hterm, hmatch, and_self, decide_true, Bool.true_and] at hok
  have hnone := List.any_eq_false.mp hok _ hmem
  simp only [hme, hsame, true_and, decide_eq_true_eq] at hnone
  omega

variable [RaftGob α]

section Cases

variable (h : s.Rooted H) (hs : s.Reachable)

include h hs

omit [RaftGob α] hs in
theorem Rooted.entriesOk {call : Packet n α} {term : ℕ} {args : AppendEntriesArgs n α}
    (hmem : call ∈ s.net) (hcall : call.payload = .appendRequest term args) :
    EntriesOk H (Acked s.trace H) args ∧ .elected call.src args.term ∈ s.trace := by
  have hreq := h.requests call hmem
  rwa [RequestOk, hcall] at hreq

/-- A request that loses no tail keeps all that its receiver has acknowledged in its term: the
receiver has accepted no longer one, and it is not the leader itself. -/
theorem Rooted.keepsAcks {call : Packet n α} {term : ℕ} {args : AppendEntriesArgs n α}
    {prev : LogRecord α} (hled : s.Led) (htarget : s.target a = some (p, .packet call))
    (hok : s.delivers (Peer.losesTail s.trace) a = false)
    (hcall : call.payload = .appendRequest term args)
    (hterm : (s.peers p).rf.currentTerm ≤ args.term)
    (hprev : (s.peers p).rf.log.get args.prevLogIndex = some prev)
    (hmatch : prev.term = args.prevLogTerm) : KeepsAcks (Acked s.trace H) p args := by
  obtain ⟨hmem, hdst⟩ := mem_of_target htarget
  rintro i (⟨-, rfl⟩ | ⟨earlier, hearlier, hsame, hi⟩ | ⟨helected, -⟩)
  · omega
  · have := le_of_delivers htarget hok (hs.me p) hcall hterm hprev hmatch hearlier hsame
    omega
  · have hsrc : call.src = p := hled.unique hs.votesOk (h.entriesOk hmem hcall).2 helected
    exact absurd (hsrc.trans hdst.symm) (hs.outward.net call hmem)

/-- `AppendEntries` accepts a request. -/
theorem Rooted.appended {call : Packet n α} {term : ℕ} {args : AppendEntriesArgs n α}
    {prev : LogRecord α} {e : Effect n α} (hled : s.Led)
    (htarget : s.target a = some (p, .packet call))
    (hdoes : Does (s.peers p) (.packet call) e)
    (hok : s.delivers (Peer.losesTail s.trace) a = false)
    (hcall : call.payload = .appendRequest term args)
    (hterm : (s.peers p).rf.currentTerm ≤ args.term)
    (hprev : (s.peers p).rf.log.get args.prevLogIndex = some prev)
    (hmatch : prev.term = args.prevLogTerm)
    (hrf : e.peer.rf = ((s.peers p).rf.becomeFollowerLocked args.term).acceptEntries args)
    (hsends : ∀ m ∈ e.sends, (s.install p (s.inFlight a) e).RequestOk H m)
    (hev : e.events = [.appended p args]) : (s.install p (s.inFlight a) e).Rooted H := by
  obtain ⟨src, hnode, -⟩ := h.nodes p
  have hargs := (h.entriesOk (mem_of_target htarget).1 hcall).1
  have hkeep := h.keepsAcks hs hled htarget hok hcall hterm hprev hmatch
  have hcur : e.peer.rf.currentTerm = args.term := by
    rw [hrf, Raft.acceptEntries_currentTerm, Raft.becomeFollowerLocked_currentTerm,
      Nat.max_eq_right hterm]
  have hacks : ∀ q T i, Acked (e.events ++ s.trace) H q T i → Acked s.trace H q T i ∨
      (q = p ∧ T = args.term ∧ i ≤ args.prevLogIndex + args.entries.length) := by
    intro q T i hack
    rw [hev] at hack
    rcases acked_append_cases hack with hold | ⟨args', hmem', hT, hi⟩ | ⟨hmem', -⟩
    · exact Or.inl hold
    · simp only [List.mem_singleton, Event.appended.injEq] at hmem'
      obtain ⟨rfl, rfl⟩ := hmem'
      exact Or.inr ⟨rfl, hT.symm, hi⟩
    · simp at hmem'
  have himp : ∀ q T i, Acked s.trace H q T i → Acked (e.events ++ s.trace) H q T i :=
    fun q T i hq => hq.mono (List.subset_append_right _ _) (LeaderLogs.Extends.refl H)
  have hend : Acked (e.events ++ s.trace) H p args.term
      (args.prevLogIndex + args.entries.length) := by
    rw [hev]
    exact Or.inr (Or.inl ⟨args, List.mem_cons_self .., rfl, Nat.le_refl _⟩)
  refine h.install hs (s.inFlight_sublist a).subset hdoes (LeaderLogs.Extends.refl H) ?_
    (fun T hT => Or.inl hT) (fun U hnil hne => absurd hnil hne) ⟨args.term, ?_, ?_⟩
    (fun q _ _ => rfl) ?_
  · intro q T i hack
    rcases hacks q T i hack with hold | ⟨hq, hT, -⟩
    · exact Or.inl hold
    · exact Or.inr ⟨hq, by rw [hcur, hT]⟩
  · refine hnode.splice (fun U hU => h.complete hU) hargs hterm hprev hmatch hkeep ?_ hcur ?_ himp
      (fun T i hack => (hacks p T i hack).imp_right And.right) hend
    · rw [hrf, Raft.acceptEntries_log, Raft.becomeFollowerLocked_log]
    · rw [hrf, Raft.acceptEntries_commitIndex, Raft.becomeFollowerLocked_commitIndex]
  · intro hrole
    rw [hrf, Raft.acceptEntries_role, Raft.becomeFollowerLocked_role, if_neg (by omega)] at hrole
    cases hrole
  · exact .of_modest hsends (by rw [hev]; simp [Event.promises])

/-- `InstallSnapshot` accepts a snapshot. -/
theorem Rooted.installed {call : Packet n α} {term : ℕ} {args : InstallSnapshotArgs n}
    {e : Effect n α} (htarget : s.target a = some (p, .packet call))
    (hdoes : Does (s.peers p) (.packet call) e)
    (hcall : call.payload = .snapshotRequest term args)
    (hterm : (s.peers p).rf.currentTerm ≤ args.term)
    (hindex : (s.peers p).rf.log.base < args.lastIncludedIndex)
    (hrf : e.peer.rf = ((s.peers p).rf.becomeFollowerLocked args.term).adoptSnapshot args)
    (hsends : e.sends = []) (hev : e.events = []) :
    (s.install p (s.inFlight a) e).Rooted H := by
  obtain ⟨src, hnode, -⟩ := h.nodes p
  obtain ⟨hmem, -⟩ := mem_of_target htarget
  obtain ⟨r, hr, hrterm⟩ : ∃ r, H.ChosenBy (Acked s.trace H) args.term args.lastIncludedIndex r ∧
      r.term = args.lastIncludedTerm := by
    have hreq := h.requests call hmem
    rwa [RequestOk, hcall] at hreq
  have hcur : e.peer.rf.currentTerm = args.term := by
    rw [hrf]
    exact (Raft.becomeFollowerLocked_currentTerm _ _).trans (Nat.max_eq_right hterm)
  refine h.silent hs (s.inFlight_sublist a).subset hdoes ?_ ⟨src, ?_, ?_⟩ ?_
  · intro x hx
    rw [hev] at hx
    cases hx
  · refine hnode.rebase (Nat.le_of_lt hindex) (hterm.trans_eq hcur.symm) ?_ ?_ (by rwa [hcur])
      hrterm
    · rw [hrf]
      simp only [Raft.adoptSnapshot, Raft.persistLocked, Raft.becomeFollowerLocked_log]
    · rw [hrf]
      simp only [Raft.adoptSnapshot, Raft.persistLocked, Raft.becomeFollowerLocked_commitIndex]
      split <;> omega
  · intro hrole
    rw [hrf] at hrole
    have hrole' : ((s.peers p).rf.becomeFollowerLocked args.term).role = .leader := hrole
    rw [Raft.becomeFollowerLocked_role, if_neg (by omega)] at hrole'
    cases hrole'
  · exact .of_silence hsends (by rw [hev]; simp)

/-- The service compacts the log. -/
theorem Rooted.compacted {index : ℕ} {data : Option Bytes} {last : LogRecord α} {c : Cause n α}
    {e : Effect n α} (hdoes : Does (s.peers p) c e)
    (hcommit : index ≤ (s.peers p).rf.commitIndex) (hbase : (s.peers p).rf.log.base ≤ index)
    (hlast : (s.peers p).rf.log.get index = some last)
    (hrf : e.peer.rf = ({ (s.peers p).rf with
      log := Log.fresh index last.term
        ((s.peers p).rf.log.suffixFrom (index + 1)) } : Raft n α).persistLocked data)
    (hsends : e.sends = []) (hev : e.events = [.compacted (s.peers p).rf.me index last.term data]) :
    (s.install p (s.inFlight a) e).Rooted H := by
  obtain ⟨src, hnode, hlead⟩ := h.nodes p
  obtain ⟨r, hr, hrterm⟩ : ∃ r, H.ChosenBy (Acked s.trace H) (s.peers p).rf.currentTerm index r ∧
      r.term = last.term := by
    rcases Nat.lt_or_eq_of_le hbase with hb | rfl
    · obtain ⟨r, hget, hr⟩ := hnode.chosen index hb hcommit
      rw [hlast] at hget
      exact ⟨r, hr, by rw [Option.some.inj hget]⟩
    · obtain ⟨x, r, hx, -, hr, hterm⟩ := hnode.placeholder
      rw [hlast] at hx
      exact ⟨r, hr, by rw [hterm, Option.some.inj hx]⟩
  have hlt := Log.bounds_of_get hlast
  refine h.silent hs (s.inFlight_sublist a).subset hdoes ?_ ⟨src, ?_, ?_⟩ ?_
  · intro x hx
    rw [hev] at hx
    obtain rfl := List.mem_singleton.mp hx
    rfl
  · refine hnode.rebase hbase ?_ ?_ ?_ ?_ hrterm
    · rw [hrf]
      exact Nat.le_refl _
    · rw [hrf]
      rfl
    · rw [hrf]
      exact (Nat.max_eq_left hcommit).symm
    · rw [hrf]
      exact hr
  · intro hrole
    rw [hrf] at hrole ⊢
    obtain ⟨hsrc, hsize⟩ := hlead hrole
    refine ⟨hsrc, ?_⟩
    apply (Log.size_fresh_suffixFrom _ _ hbase).trans
    omega
  · exact .of_silence hsends (by rw [hev]; simp [Event.promises])

/-- The leader commits. -/
theorem Rooted.committed {m : Packet n α} {term : ℕ} {args : AppendEntriesArgs n α}
    {reply : AppendEntriesReply} {rf : Raft n α} {e : Effect n α} (hled : s.Led)
    (htarget : s.target a = some (p, .packet m)) (hdoes : Does (s.peers p) (.packet m) e)
    (hm : m.payload = .appendReply term args reply)
    (hrf : rf = (s.peers p).rf.recordMatch m.src (args.prevLogIndex + args.entries.length))
    (hmore : (s.peers p).rf.commitIndex < rf.getMajorityIndexLocked)
    (hnew : e.peer.rf = { rf with commitIndex := rf.getMajorityIndexLocked }.signal)
    (hsends : e.sends = []) (hev : e.events = []) :
    (s.install p (s.inFlight a) e).Rooted H := by
  obtain ⟨src, hnode, hlead⟩ := h.nodes p
  have hcommit : e.peer.rf.commitIndex = rf.getMajorityIndexLocked := by
    rw [hnew, Raft.signal_commitIndex]
  obtain ⟨hrole, hcur, ⟨record, hget, hrecord⟩, hmajority⟩ :=
    hs.majority_of_raise htarget hdoes hm (by rw [hcommit]; exact hmore)
  obtain ⟨hsrc, hsize⟩ := hlead hrole
  obtain ⟨-, hlt⟩ := Log.bounds_of_get hget
  have hbase := hs.base_le_commitIndex p
  have hmine : Acked s.trace H p (s.peers p).rf.currentTerm e.peer.rf.commitIndex :=
    Or.inr (Or.inr ⟨hled.leader hrole, by rw [← hsrc]; omega⟩)
  have hcom : H.Committed (Acked s.trace H) (s.peers p).rf.currentTerm e.peer.rf.commitIndex := by
    refine ⟨⟨record, ?_, by rw [hrecord, hcur]⟩, hmajority.mono fun q hq => ?_⟩
    · rw [← hsrc, ← hnode.tail _ (by omega) hlt, hget]
    · rcases hq with rfl | ⟨args', hmem, hT, -, hle⟩
      · exact hmine
      · exact Or.inr (Or.inl ⟨args', hmem, hT.trans hcur.symm, hle⟩)
  refine h.silent hs (s.inFlight_sublist a).subset hdoes ?_ ⟨src, ?_, ?_⟩ ?_
  · intro x hx
    rw [hev] at hx
    cases hx
  · refine hnode.commit hsrc ?_ ?_ hlt hcom hmine
    · rw [hnew, Raft.signal_log, hrf]
      rfl
    · rw [hnew, Raft.signal_currentTerm, hrf]
      rfl
  · intro _
    rw [hnew, Raft.signal_log, Raft.signal_currentTerm, hrf]
    exact ⟨hsrc, hsize⟩
  · exact .of_silence hsends (by rw [hev]; simp)

/-- A leader takes a command: the log of its term grows. -/
theorem Rooted.accepted {command : α} {r : LogRecord α} {c : Cause n α} {e : Effect n α}
    (hled : s.Led) (hdoes : Does (s.peers p) c e) (hrole : (s.peers p).rf.role = .leader)
    (hr : r.term = (s.peers p).rf.currentTerm)
    (hrf : e.peer.rf = ({ (s.peers p).rf with
      log := (s.peers p).rf.log.append r } : Raft n α).persistLocked none)
    (hsends : e.sends = [])
    (hev : e.events = [.accepted (s.peers p).rf.me (s.peers p).rf.log.size
      (s.peers p).rf.currentTerm command]) :
    (s.install p (s.inFlight a) e).Rooted (H.append (s.peers p).rf.currentTerm r hr) := by
  obtain ⟨src, hnode, hlead⟩ := h.nodes p
  obtain ⟨hsrc, hsize⟩ := hlead hrole
  have hext := LeaderLogs.extends_append (H := H) hr
  have hmine := hled.leader hrole
  have hacks : ∀ q T i,
      Acked (e.events ++ s.trace) (H.append (s.peers p).rf.currentTerm r hr) q T i →
      Acked s.trace H q T i ∨
        (q = p ∧ T = (s.peers p).rf.currentTerm ∧ i < (s.peers p).rf.log.size + 1) := by
    rw [acked_append (by rw [hev]; simp [Event.acknowledges])]
    rintro q T i (hzero | hold | ⟨hmem, hi⟩)
    · exact Or.inl (Or.inl hzero)
    · exact Or.inl (Or.inr (Or.inl hold))
    · by_cases hT : T = (s.peers p).rf.currentTerm
      · -- only the leader itself was elected in this term
        rw [hT] at hmem hi
        refine Or.inr ⟨hled.unique hs.votesOk hmem hmine, hT, ?_⟩
        rw [LeaderLogs.append_log_self, List.length_append, ← hsrc, ← hsize] at hi
        exact hi
      · rw [LeaderLogs.append_log_of_ne hr hT] at hi
        exact Or.inl (Or.inr (Or.inr ⟨hmem, hi⟩))
  have himp : ∀ q T i, Acked s.trace H q T i →
      Acked (e.events ++ s.trace) (H.append (s.peers p).rf.currentTerm r hr) q T i :=
    fun q T i hq => hq.mono (List.subset_append_right _ _) hext
  have hwon : ∀ T, (H.append (s.peers p).rf.currentTerm r hr).log T ≠ [] → H.log T ≠ [] := by
    intro T hT
    by_cases hTp : T = (s.peers p).rf.currentTerm
    · rw [hTp, ← hsrc]
      exact hnode.src_won
    · rwa [LeaderLogs.append_log_of_ne hr hTp] at hT
  refine h.install hs (s.inFlight_sublist a).subset hdoes hext ?_ (fun T hT => Or.inl (hwon T hT))
    (fun U hnil hne => absurd hnil (hwon U hne)) ⟨src, ?_, ?_⟩ ?_ ?_
  · intro q T i hack
    rcases hacks q T i hack with hold | ⟨hq, hT, -⟩
    · exact Or.inl hold
    · refine Or.inr ⟨hq, ?_⟩
      rw [hT, hrf]
      rfl
  · refine hnode.push hsrc hsize hr ?_ ?_ ?_ himp fun T i hack => ?_
    · rw [hrf]
      rfl
    · rw [hrf]
      rfl
    · rw [hrf]
      rfl
    · rcases hacks p T i hack with hold | ⟨-, hT, hi⟩
      · exact Or.inl hold
      · exact Or.inr ⟨hT.trans hsrc.symm, hi⟩
  · intro _
    rw [hrf]
    refine ⟨hsrc, (Log.size_append _ _).trans ?_⟩
    rw [hsrc, LeaderLogs.append_log_self, List.length_append, ← hsrc, ← hsize]
    rfl
  · intro q hq hqrole
    refine LeaderLogs.append_log_of_ne hr fun heq => hq ?_
    have hother := hled.leader hqrole
    rw [heq] at hother
    exact hled.unique hs.votesOk hother hmine
  · exact .of_silence hsends (by rw [hev]; simp [Event.promises])

/-- A term that a peer has got to and nobody has won has no log yet. -/
theorem Rooted.log_eq_nil (hnobody : ∀ q, .elected q (s.peers p).rf.currentTerm ∉ s.trace) :
    H.log (s.peers p).rf.currentTerm = [] := by
  by_contra hne
  rcases h.won _ hne with hzero | ⟨q, hq⟩
  · have hpos := (Reachable.voteKept (Reach.refl init) hs p).1
    have hinit : ((init : System n α).peers p).rf.currentTerm = 1 := rfl
    omega
  · exact hnobody q hq

omit [RaftGob α] hs in
/-- Everyone who has voted for a candidate endorses its log. -/
theorem Rooted.endorses_of_ballot (hrole : (s.peers p).rf.role = .candidate)
    (hnil : H.log (s.peers p).rf.currentTerm = []) {q : Fin n}
    (hballot : Ballot s.trace q (s.peers p).rf.currentTerm p) :
    H.Endorses (Acked s.trace H) q (s.peers p).rf.currentTerm (s.peers p).rf.log.lastLogTerm
      ((s.peers p).rf.log.size - 1) := by
  rcases hballot with ⟨args, hmem, hT, hcand⟩ | ⟨-, rfl⟩
  · obtain ⟨⟨-, hask⟩, hend⟩ := h.grants q args hmem
    rw [hcand] at hask
    obtain ⟨hindex, hterm⟩ := hask hrole hT
    rw [← hindex, ← hterm, ← hT]
    exact hend (by rw [hT, hnil])
  · -- the candidate's own vote
    obtain ⟨src, hnode, -⟩ := h.nodes p
    exact hnode.endorses (Nat.le_refl _) hnil (Or.inr ⟨rfl, Nat.le_refl _⟩)

/-- A candidate wins: the log of its term starts. Its records above the base are those of one
earlier term, and those who voted for it endorse it. -/
theorem Rooted.won_step {c : Cause n α} {e : Effect n α} (hled : s.Led)
    (hok : s.NoStaleWin a) (htarget : s.target a = some (p, c)) (hdoes : Does (s.peers p) c e)
    (hwins : Wins (s.peers p) c e) :
    ∃ H', H.Extends H' ∧ (s.install p (s.inFlight a) e).Rooted H' := by
  obtain ⟨src, hnode, -⟩ := h.nodes p
  have hme := hs.me p
  have hmajority := majority_of_wins hwins hs.electionsOk hok htarget
  have hled' : (s.install p (s.inFlight a) e).Led :=
    hled.step hs.electionsOk hme (hs.saved p) hok htarget hdoes
  have hvotes' : (s.install p (s.inFlight a) e).VotesOk := hs.votesOk.step hme (hs.saved p) hdoes
  obtain ⟨hrole, hrf, -, hsends, hev, -⟩ := hwins
  rw [hme] at hev
  rw [Raft.becomeLeaderLocked_of_eq _ hrole] at hrf
  set U := (s.peers p).rf.currentTerm with hUdef
  have hcur : e.peer.rf.currentTerm = U := by rw [hrf]
  have hlog : e.peer.rf.log = (s.peers p).rf.log := by rw [hrf]
  have hnew : .elected p U ∈ (s.install p (s.inFlight a) e).trace := by
    rw [install_trace, hev]
    exact List.mem_cons_self ..
  -- nobody else has won this term
  have hnobody : ∀ q, .elected q U ∉ s.trace := by
    intro q hq
    obtain rfl := hled'.unique hvotes' (List.mem_append_right _ hq) hnew
    exact hled.candidate hrole hq
  have hU : H.log U = [] := h.log_eq_nil hs hnobody
  obtain ⟨t, ht, ⟨last, hlast, hlastTerm⟩, htail⟩ := hnode.exists_origin (Nat.le_refl U) hU
  have hpos := (s.peers p).rf.log.base_lt_size
  have hlen : (s.peers p).rf.log.size ≤ (H.log t).length := by
    have := LeaderLogs.lt_length hlast
    omega
  have hext := LeaderLogs.extends_elect hU ht hlen
  have hlogU : (H.elect hU ht hlen).log U = (H.log t).take (s.peers p).rf.log.size :=
    LeaderLogs.elect_log_self hU ht hlen
  have hacks : ∀ q T i, Acked (e.events ++ s.trace) (H.elect hU ht hlen) q T i →
      Acked s.trace H q T i ∨ (q = p ∧ T = U ∧ i < (s.peers p).rf.log.size) := by
    intro q T i hack
    rw [hev] at hack
    rcases acked_append_cases hack with hold | ⟨args', hmem', -⟩ | ⟨hmem', hi⟩
    · refine Or.inl (hold.of_log_eq fun hmem' => LeaderLogs.elect_log_of_ne hU ht hlen ?_)
      rintro rfl
      exact hnobody q hmem'
    · simp at hmem'
    · simp only [List.mem_singleton, Event.elected.injEq] at hmem'
      obtain ⟨rfl, rfl⟩ := hmem'
      rw [hlogU, List.length_take] at hi
      exact Or.inr ⟨rfl, rfl, by omega⟩
  have himp : ∀ q T i, Acked s.trace H q T i →
      Acked (e.events ++ s.trace) (H.elect hU ht hlen) q T i :=
    fun q T i hq => hq.mono (List.subset_append_right _ _) hext
  have hwon : ∀ T, (H.elect hU ht hlen).log T ≠ [] → T ≠ U → H.log T ≠ [] := by
    intro T hT hTU
    rwa [LeaderLogs.elect_log_of_ne hU ht hlen hTU] at hT
  -- every ballot of this term endorses the winner's log
  have hendorses : ∀ q, Ballot (s.install p (s.inFlight a) e).trace q U p →
      (H.elect hU ht hlen).Endorses (Acked (e.events ++ s.trace) (H.elect hU ht hlen)) q U
        (s.peers p).rf.log.lastLogTerm ((s.peers p).rf.log.size - 1) := by
    intro q hballot
    have hold : Ballot s.trace q U p := by
      rw [install_trace, hev] at hballot
      rcases ballot_append.mp hballot with hnone | hold
      · simp [Ballot] at hnone
      · exact hold
    have hseen : U ≤ (s.peers q).rf.currentTerm := (hs.votesOk.remembered hold).1
    refine (h.endorses_of_ballot hrole hU hold).extend hext himp fun T i hack hlt => ?_
    rcases hacks q T i hack with hold | ⟨-, hT, -⟩
    · exact hold
    · omega
  refine ⟨H.elect hU ht hlen, hext, h.install hs (s.inFlight_sublist a).subset hdoes hext ?_ ?_ ?_
    ⟨U, ?_, ?_⟩ ?_ ?_⟩
  · intro q T i hack
    rcases hacks q T i hack with hold | ⟨hq, hT, -⟩
    · exact Or.inl hold
    · exact Or.inr ⟨hq, hT.trans hcur.symm⟩
  · intro T hT
    by_cases hTU : T = U
    · rw [hTU, hev]
      exact Or.inr (List.mem_cons_self ..)
    · exact Or.inl (hwon T hT hTU)
  · intro V hV hV'
    obtain rfl : V = U := by
      by_contra hne
      exact hwon V hV' hne hV
    unfold BackedIn
    rw [LeaderLogs.elect_start_self, hlogU, List.getElem?_take_of_lt (by omega)]
    refine ⟨by omega, last, hlast, hmajority.mono fun q hq => ⟨?_, (hvotes'.remembered hq).1⟩⟩
    rw [hlastTerm]
    exact hendorses q hq
  · refine hnode.win hU ht hlen htail hlog hcur (by rw [hrf]) himp fun T i hack => ?_
    rcases hacks p T i hack with hold | ⟨-, hself⟩
    · exact Or.inl hold
    · exact Or.inr hself
  · intro _
    rw [hcur, hlog, hlogU, List.length_take]
    exact ⟨rfl, by omega⟩
  · intro q hq hqrole
    refine LeaderLogs.elect_log_of_ne hU ht hlen fun heq => hnobody q ?_
    rw [← heq]
    exact hled.leader hqrole
  · exact .of_silence hsends (by rw [hev]; simp [Event.promises])

/-- A peer grants its vote: its log is not more up to date, so it endorses the candidate's. -/
theorem Rooted.voted {call : Packet n α} {k : ℕ} {args : RequestVoteArgs n} {e : Effect n α}
    (htarget : s.target a = some (p, .packet call)) (hdoes : Does (s.peers p) (.packet call) e)
    (hcall : call.payload = .voteRequest k args)
    (hterm : (s.peers p).rf.currentTerm ≤ args.term)
    (hmore : (s.peers p).rf.isMoreUpToDateLocked args.lastLogTerm args.lastLogIndex = false)
    (hlog : e.peer.rf.log = (s.peers p).rf.log)
    (hcommit : e.peer.rf.commitIndex = (s.peers p).rf.commitIndex)
    (hsends : ∀ m ∈ e.sends, (s.install p (s.inFlight a) e).RequestOk H m)
    (hev : e.events = [.voteGranted p args]) : (s.install p (s.inFlight a) e).Rooted H := by
  obtain ⟨src, hnode, -⟩ := h.nodes p
  have hask : s.AskOk args := by
    have hreq := h.requests call (mem_of_target htarget).1
    rwa [RequestOk, hcall] at hreq
  have hup : (s.peers p).rf.log.lastLogTerm < args.lastLogTerm ∨
      ((s.peers p).rf.log.lastLogTerm = args.lastLogTerm ∧
        (s.peers p).rf.log.size - 1 ≤ args.lastLogIndex) := by
    unfold Raft.isMoreUpToDateLocked at hmore
    dsimp only at hmore
    split at hmore
    case isTrue hne =>
      have := of_decide_eq_false hmore
      omega
    case isFalse heq =>
      have := of_decide_eq_false hmore
      omega
  refine h.quiet hs (s.inFlight_sublist a).subset hdoes ?_ hlog (Nat.le_of_eq hcommit)
    ⟨hsends, ?_⟩
  · intro x hx
    rw [hev] at hx
    obtain rfl := List.mem_singleton.mp hx
    rfl
  · intro q args' hmem
    rw [hev] at hmem
    simp only [List.mem_singleton, Event.voteGranted.injEq] at hmem
    obtain ⟨rfl, rfl⟩ := hmem
    exact ⟨hask.install hdoes (hs.saved q), fun hnil => hnode.endorses hterm hnil hup⟩

/-- A round of the leader's requests. -/
theorem Rooted.requestOk_replicationCall {e : Effect n α} (hled : s.Led)
    (hrole : (s.peers p).rf.role = .leader) (hev : e.events = [])
    {x : Fin n × ReplicationRequest n α}
    (hx : (s.peers p).rf.replicationRequest x.1 = some x.2) (term : ℕ) :
    (s.install p (s.inFlight a) e).RequestOk H ((s.peers p).replicationCall term x) := by
  obtain ⟨src, hnode, hlead⟩ := h.nodes p
  have hcomplete : H.Complete (Acked s.trace H) (s.peers p).rf.currentTerm := by
    apply h.complete
    rw [← (hlead hrole).1]
    exact hnode.src_won
  obtain ⟨q, request⟩ := x
  unfold RequestOk Peer.replicationCall Peer.packet
  rw [install_trace, hev]
  cases request with
  | append args =>
    refine ⟨hnode.entriesOk hlead hrole hcomplete (hs.base_le_commitIndex p) hx, ?_⟩
    obtain ⟨-, -, -, -, hterm, -⟩ := Raft.replicationRequest_append hx
    rw [hterm, hs.me p]
    exact hled.leader hrole
  | snapshot args => exact hnode.snapshotOk hx

/-- Every step that does not break the logs carries the leaders' logs along. -/
theorem Rooted.exists_step {c : Cause n α} {e : Effect n α} (hled : s.Led) (hsafe : s.LogSafe a)
    (htarget : s.target a = some (p, c)) (hdoes : Does (s.peers p) c e) :
    ∃ H', H.Extends H' ∧ (s.install p (s.inFlight a) e).Rooted H' := by
  have hnet := (s.inFlight_sublist a).subset
  have hme := hs.me p
  have hall := hdoes
  obtain ⟨hwin, htail⟩ := hsafe
  have hsame : (s.install p (s.inFlight a) e).Rooted H →
      ∃ H', H.Extends H' ∧ (s.install p (s.inFlight a) e).Rooted H' :=
    fun hroot => ⟨H, LeaderLogs.Extends.refl H, hroot⟩
  -- steps that leave the log and the commit index alone, and say nothing that matters
  have hquiet : (∀ x ∈ e.events, x.acknowledges = false ∧ x.promises = false) →
      e.peer.rf.log = (s.peers p).rf.log →
      e.peer.rf.commitIndex ≤ (s.peers p).rf.commitIndex →
      (∀ m ∈ e.sends, (s.install p (s.inFlight a) e).RequestOk H m) →
      ∃ H', H.Extends H' ∧ (s.install p (s.inFlight a) e).Rooted H' :=
    fun hev hlog hcommit hsends =>
      hsame (h.quiet hs hnet hdoes (fun x hx => (hev x hx).1) hlog hcommit
        (.of_modest hsends fun x hx => (hev x hx).2))
  cases hdoes with
  | crashed =>
    have hrf := Peer.crash_rf (p := s.peers p) rfl (hs.saved p)
    refine hquiet ?_ (by rw [hrf]; rfl) ?_ (fun m hm => by cases hm)
    · simp [Peer.crash, Event.acknowledges, Event.promises]
    · rw [hrf]
      exact hs.base_le_commitIndex p
  | @appendPanicked _ _ args =>
    have hrf := Peer.crash_rf (p := s.peers p) (Raft.becomeFollowerLocked_me _ args.term)
      ((hs.saved p).becomeFollowerLocked _)
    refine hquiet ?_ ?_ ?_ (fun m hm => by cases hm)
    · simp [Peer.crash, Event.acknowledges, Event.promises]
    · rw [hrf]
      exact Raft.becomeFollowerLocked_log _ _
    · rw [hrf]
      refine Nat.le_trans ?_ (hs.base_le_commitIndex p)
      simp only [Raft.recovered, Raft.becomeFollowerLocked_log]
      exact Nat.le_refl _
  | timedOut _ hrole =>
    have hrf := Raft.becomeCandidateLocked_of_ne _ hrole
    exact hquiet (by simp [Event.acknowledges, Event.promises]) (by rw [hrf]; rfl)
      (by rw [hrf]; exact Nat.le_refl _) (fun m hm => by cases hm)
  | votesAsked =>
    apply hquiet (by simp) rfl (Nat.le_refl _)
    intro m hm
    obtain ⟨q, -, rfl⟩ := List.mem_map.mp hm
    have hask : s.AskOk (s.peers p).rf.voteRequest := by
      unfold AskOk
      rw [show (s.peers p).rf.voteRequest.candidateId = p from hme]
      exact ⟨Nat.le_refl _, fun _ _ => ⟨rfl, rfl⟩⟩
    exact hask.install hall (hs.saved p)
  | replicated _ _ _ hrole hreq =>
    apply hquiet (by simp) rfl (Nat.le_refl _)
    intro m hm
    obtain ⟨x, hx, rfl⟩ := List.mem_map.mp hm
    exact h.requestOk_replicationCall hs hled hrole rfl (hreq x hx).2 _
  | accepted _ hrole =>
    exact ⟨_, LeaderLogs.extends_append _, h.accepted hs hled hall hrole rfl rfl rfl rfl⟩
  | compacted _ hcommit hbase hlast =>
    exact hsame (h.compacted hs hall hcommit hbase hlast rfl rfl rfl)
  | collected =>
    exact hquiet (by simp [Event.acknowledges, Event.promises]) rfl (Nat.le_refl _)
      (fun m hm => by cases hm)
  | sent =>
    -- a command is handed over here, which is no matter for the logs
    refine hsame (h.quiet hs hnet hall (by simp [Event.acknowledges]) rfl (Nat.le_refl _) ⟨?_, ?_⟩)
    · intro m hm
      cases hm
    · intro q args hmem
      simp at hmem
  | @installDone msg reply hinst =>
    obtain ⟨term, args, r, rfl, hpay⟩ := hs.installOk p msg reply hinst
    refine hquiet ?_ rfl (Nat.le_refl _) ?_
    · simp [Event.acknowledges, Event.promises, Raft.snapshotMsg]
    · intro m hm
      obtain rfl := List.mem_singleton.mp hm
      simp [RequestOk, hpay]
  | voted _ hcall hterm _ hmore =>
    refine hsame (h.voted hs htarget hall hcall hterm hmore ?_ ?_ ?_ (by rw [hme]))
    · exact Raft.alignTerm_log _ _
    · exact Raft.alignTerm_commitIndex _ _
    · intro m hm
      obtain rfl := List.mem_singleton.mp hm
      trivial
  | appended _ hcall hterm hprev hmatch =>
    refine hsame (h.appended hs hled htarget hall htail hcall hterm hprev hmatch rfl ?_
      (by rw [hme]))
    intro m hm
    obtain rfl := List.mem_singleton.mp hm
    trivial
  | installed _ hcall hterm hindex =>
    exact hsame (h.installed hs htarget hall hcall hterm hindex rfl rfl rfl)
  | won => exact h.won_step hs hled hwin htarget hall (hall.elected (List.mem_cons_self ..)).2.2
  | committed _ _ hm _ _ _ hrf hmore =>
    exact hsame (h.committed hs hled htarget hall hm hrf hmore rfl rfl rfl)
  | voteRefused | appendRefused | snapshotRefused =>
    refine hquiet (by simp) (by simp) (by simp) ?_
    intro m hm
    obtain rfl := List.mem_singleton.mp hm
    trivial
  | steppedDown => exact hquiet (by simp) (by simp) (by simp) (fun m hm => by cases hm)
  | offered | batchDone | waited | ignored | electionLost | replicationStopped | voteCounted
  | conflicted | matched | snapshotAcked =>
    exact hquiet (by simp) rfl (Nat.le_refl _) (fun m hm => by cases hm)

end Cases

/-- Every state of a run whose steps do not break the logs has a history of leaders' logs behind
it. -/
theorem exists_rooted (h : Reach System.step LogSafe init s) : ∃ H, s.Rooted H := by
  refine run_invariant (I := fun s => ∃ H, s.Rooted H) ⟨_, rooted_init⟩ ?_ h
  rintro s a p c e hs hsafe htarget hdoes ⟨H, hroot⟩
  have hled : s.Led := led_of_noStaleWin (hs.mono fun _ _ hok => hok.1)
  obtain ⟨H', -, hroot'⟩ := hroot.exists_step (Reachable.of_reach hs) hled hsafe htarget hdoes
  exact ⟨H', hroot'⟩

/-! ## What the services get -/

section Services

variable (h : s.Recorded H)

include h

omit [RaftGob α] in
/-- `applicationTicker` collects what is committed and not applied. -/
theorem Recorded.collected {entries : List (LogRecord α)}
    (hentries : (s.peers p).rf.collectLocked = some entries) :
    TickerOk H (Acked s.trace H) { (s.peers p).rf with ticker := .sending entries 0 } := by
  obtain ⟨src, hnode, -⟩ := h.nodes p
  obtain ⟨hlen, hget⟩ := Raft.collect_spec _ hentries
  intro x hx
  obtain rfl := Option.some.inj hx
  refine ⟨fun j r _ hr hvalid => ?_, fun msg hmsg => by cases hmsg⟩
  have hj : j < entries.length := (List.getElem?_eq_some_iff.mp hr).1
  exact ⟨_, hnode.chosen_of_get (by dsimp only; omega) (hget j r hr) hvalid⟩

omit [RaftGob α] in
/-- `applicationTicker` builds the next message of its batch. -/
theorem Recorded.offered {entries : List (LogRecord α)} {i : ℕ} {entry : LogRecord α}
    (hticker : (s.peers p).rf.ticker = .sending entries i) (hentry : entries[i]? = some entry) :
    TickerOk H (Acked s.trace H) { (s.peers p).rf with
      ticker := .offering entries i ((s.peers p).rf.applyMsg entry i) } := by
  obtain ⟨hbatch, -⟩ := h.tickers p ⟨entries, i, none⟩ (by rw [hticker]; rfl)
  intro x hx
  obtain rfl := Option.some.inj hx
  refine ⟨fun j r hj => hbatch j r (Nat.le_of_lt hj), fun msg hmsg hvalid => ?_⟩
  obtain rfl := Option.some.inj hmsg
  obtain ⟨T, hT⟩ := hbatch i entry (Nat.le_refl i) hentry hvalid
  exact ⟨T, entry, hT, rfl⟩

/-- `InstallSnapshot` adopts a snapshot: an unsent batch keeps its indices, because `lastApplied`
does not move. -/
theorem Recorded.adopted {call : Packet n α} {term : ℕ} {args : InstallSnapshotArgs n}
    (htarget : s.target a = some (p, .packet call)) (hok : s.delivers Peer.shiftsBatch a = false)
    (hcall : call.payload = .snapshotRequest term args)
    (hterm : (s.peers p).rf.currentTerm ≤ args.term)
    (hindex : (s.peers p).rf.log.base < args.lastIncludedIndex) :
    TickerOk H (Acked s.trace H)
      (((s.peers p).rf.becomeFollowerLocked args.term).adoptSnapshot args) := by
  intro x hx
  simp only [Raft.adoptSnapshot, Raft.persistLocked, Raft.becomeFollowerLocked_ticker,
    Raft.becomeFollowerLocked_lastApplied] at hx ⊢
  obtain ⟨hbatch, hoffer⟩ := h.tickers p x hx
  refine ⟨fun j y hj hy hvalid => ?_, hoffer⟩
  have hlast : ¬ args.lastIncludedIndex > (s.peers p).rf.lastApplied := by
    intro hgt
    rw [delivers_eq htarget, Peer.shiftsBatch, hcall, hx] at hok
    have hlt := (List.getElem?_eq_some_iff.mp hy).1
    simp only [hterm, hindex, true_and, decide_eq_false_iff_not, not_and] at hok
    exact hok hgt (by omega)
  rw [if_neg hlast]
  exact hbatch j y hj hy hvalid

/-- What `applicationTicker` has collected stays chosen. -/
theorem Recorded.ticker_step {c : Cause n α} {e : Effect n α} (hs : s.Reachable)
    (hok : s.delivers Peer.shiftsBatch a = false) (htarget : s.target a = some (p, c))
    (hdoes : Does (s.peers p) c e) : TickerOk H (Acked s.trace H) e.peer.rf := by
  have hold := h.tickers p
  cases hdoes with
  | crashed =>
    refine .of_none ?_
    rw [Peer.crash_rf (p := s.peers p) rfl (hs.saved p)]
    rfl
  | @appendPanicked _ _ args =>
    refine .of_none ?_
    rw [Peer.crash_rf (p := s.peers p) (Raft.becomeFollowerLocked_me _ args.term)
      ((hs.saved p).becomeFollowerLocked _)]
    rfl
  | timedOut _ hrole =>
    rw [Raft.becomeCandidateLocked_of_ne _ hrole]
    exact hold.congr rfl rfl
  | collected _ _ hentries => exact h.collected hentries
  | offered hticker hentry => exact h.offered hticker hentry
  | @sent entries i msg hticker =>
    obtain ⟨hbatch, -⟩ := hold ⟨entries, i, some msg⟩ (by rw [hticker]; rfl)
    intro x hx
    obtain rfl := Option.some.inj hx
    exact ⟨hbatch, fun m hm => by cases hm⟩
  | batchDone | waited => exact .of_none rfl
  | installed _ hcall hterm hindex => exact h.adopted htarget hok hcall hterm hindex
  | won =>
    unfold Raft.becomeLeaderLocked
    split
    · exact hold.congr rfl rfl
    · exact hold.congr rfl rfl
  | committed _ _ _ _ _ _ hrf =>
    rw [hrf]
    exact hold.congr (Raft.signal_progress _) (Raft.signal_lastApplied _)
  | voted =>
    apply hold.congr
    · exact congrArg Ticker.progress (Raft.alignTerm_ticker _ _)
    · exact Raft.alignTerm_lastApplied _ _
  | voteRefused | appendRefused | appended | snapshotRefused | steppedDown =>
    exact hold.congr (by simp) (by simp)
  | accepted | compacted | votesAsked | replicated | installDone | ignored | electionLost
  | replicationStopped | voteCounted | conflicted | matched | snapshotAcked =>
    exact hold.congr rfl rfl

/-- What is handed to the service is chosen. -/
theorem Recorded.applied_step {c : Cause n α} {e : Effect n α} (hs : s.Reachable)
    (hdoes : Does (s.peers p) c e) {q : Fin n} {msg : ApplyMsg α}
    (hmem : .applied q msg ∈ e.events) : MsgOk H (Acked s.trace H) msg := by
  cases hdoes with
  | @sent entries i offer hticker =>
    obtain ⟨-, hoffer⟩ := h.tickers p ⟨entries, i, some offer⟩ (by rw [hticker]; rfl)
    simp only [List.mem_singleton, Event.applied.injEq] at hmem
    obtain ⟨-, rfl⟩ := hmem
    exact hoffer _ rfl
  | @installDone offer reply hinst =>
    -- a snapshot carries no command
    obtain ⟨term, args, r, rfl, -⟩ := hs.installOk p offer reply hinst
    simp only [List.mem_singleton, Event.applied.injEq] at hmem
    obtain ⟨-, rfl⟩ := hmem
    intro hvalid
    cases hvalid
  | _ => simp [Peer.crash] at hmem

/-- Every safe step carries the relation along. -/
theorem Recorded.exists_step {c : Cause n α} {e : Effect n α} (hs : s.Reachable) (hled : s.Led)
    (hsafe : s.Safe a) (htarget : s.target a = some (p, c)) (hdoes : Does (s.peers p) c e) :
    ∃ H', (s.install p (s.inFlight a) e).Recorded H' := by
  obtain ⟨H', hext, hroot⟩ := h.toRooted.exists_step hs hled hsafe.logSafe htarget hdoes
  refine ⟨H', h.install hroot hext (h.ticker_step hs hsafe.2.2 htarget hdoes) (hroot.saysOk ?_)⟩
  intro q msg hmem
  exact (h.applied_step hs hdoes hmem).extend hext fun q T i hq =>
    hq.mono (List.subset_append_right _ _) hext

end Services

/-- Every state of a safe run has a history of leaders' logs behind it. -/
theorem exists_recorded (h : Reach System.step Safe init s) : ∃ H, s.Recorded H := by
  refine run_invariant (I := fun s => ∃ H, s.Recorded H) ⟨_, recorded_init⟩ ?_ h
  rintro s a p c e hs hsafe htarget hdoes ⟨H, hrec⟩
  have hled : s.Led := led_of_noStaleWin (hs.mono fun _ _ hok => hok.1)
  exact hrec.exists_step (Reachable.of_reach hs) hled hsafe htarget hdoes

/-- In a safe run, two commands put on `applyCh` with the same index are the same. -/
theorem Safe.command_eq (h : Reach System.step Safe init s) {p q : Fin n} {msg msg' : ApplyMsg α}
    (hp : .applied p msg ∈ s.trace) (hq : .applied q msg' ∈ s.trace)
    (hvalid : msg.commandValid = true) (hvalid' : msg'.commandValid = true)
    (hindex : msg.commandIndex = msg'.commandIndex) : msg.command = msg'.command := by
  obtain ⟨H, hrec⟩ := exists_recorded h
  exact hrec.applied_unique hp hq hvalid hvalid' hindex

/-- In a run in which no election that is over is won, no request is accepted that ends before one
accepted in the same term, no snapshot moves `lastApplied` under an unsent batch, and no request is
altered before it is encoded, two commands put on `applyCh` with the same index, by any peers at any
times, are the same. -/
theorem state_machine_safety {x : Sharing n α (System n α)}
    (h : (host n α).SharesUnaltered Safe init x) {p q : Fin n} {msg msg' : ApplyMsg α}
    (hp : .applied p msg ∈ x.state.trace) (hq : .applied q msg' ∈ x.state.trace)
    (hvalid : msg.commandValid = true) (hvalid' : msg'.commandValid = true)
    (hindex : msg.commandIndex = msg'.commandIndex) : msg.command = msg'.command :=
  Safe.command_eq (Host.reach_of_unaltered h) hp hq hvalid hvalid' hindex

/-- Peers `0` and `1` apply the first command of a leader. -/
theorem state_machine_safety_first : ∃ (x : Sharing 3 ℕ (System 3 ℕ)) (msg msg' : ApplyMsg ℕ),
    (host 3 ℕ).SharesUnaltered Safe init x ∧ .applied 0 msg ∈ x.state.trace ∧
      .applied 1 msg' ∈ x.state.trace ∧ msg.command = msg'.command := by
  have hrun : ∃ s : System 3 ℕ, Reach System.step Safe init s ∧
      (Event.applied 0 ⟨true, some 7, 1, false, [], 0, 0⟩ ∈ s.trace ∧
        Event.applied 1 ⟨true, some 7, 1, false, [], 0, 0⟩ ∈ s.trace) :=
    Reach.exists_of_exec [.act 0 .tickerStep, .act 1 .tickerStep, .act 0 .electionTimeout,
      .act 0 (.startElection 0), .deliver 0, .deliver 1, .act 0 (.start 7),
      .act 0 (.replicationTick 0), .deliver 1, .deliver 2, .act 0 .tickerStep, .act 0 .tickerStep,
      .act 0 .tickerStep, .act 0 (.replicationTick 0), .deliver 2, .act 1 .tickerStep,
      .act 1 .tickerStep, .act 1 .tickerStep]
      (by decide +kernel)
  obtain ⟨s, hs, hp, hq⟩ := hrun
  obtain ⟨x, hx, rfl⟩ := (host 3 ℕ).exists_unaltered (Reach.refl init) hs
  exact ⟨x, _, _, hx, hp, hq, state_machine_safety hx hp hq rfl rfl rfl⟩

/-- Peer `0` sends a heartbeat to peer `1`, which is delayed, and then the command `7`. Peer `1`
acknowledges `7`, so peer `0` commits and applies it. Now the heartbeat arrives: peer `1` drops `7`
from its log, is elected by peer `2`, and applies `8` under the same index. -/
theorem two_commands : ¬ ∀ (x : Sharing 3 ℕ (System 3 ℕ)) (p q : Fin 3) (msg msg' : ApplyMsg ℕ),
    (host 3 ℕ).Shares (fun _ _ => True) init x → .applied p msg ∈ x.state.trace →
    .applied q msg' ∈ x.state.trace → msg.commandValid = true → msg'.commandValid = true →
    msg.commandIndex = msg'.commandIndex → msg.command = msg'.command := by
  intro h
  have hrun : ∃ s : System 3 ℕ, s.Reachable ∧
      (Event.applied 0 ⟨true, some 7, 1, false, [], 0, 0⟩ ∈ s.trace ∧
        Event.applied 1 ⟨true, some 8, 1, false, [], 0, 0⟩ ∈ s.trace) :=
    Reach.exists_of_exec [.act 0 .tickerStep, .act 1 .tickerStep, .act 0 .electionTimeout,
      .act 0 (.startElection 0), .deliver 0, .deliver 1, .act 0 (.replicationTick 0),
      .act 0 (.start 7), .act 0 (.replicationTick 0), .deliver 3, .deliver 4, .act 0 .tickerStep,
      .act 0 .tickerStep, .act 0 .tickerStep, .deliver 1, .act 1 .electionTimeout,
      .act 1 (.startElection 0), .deliver 5, .deliver 5, .act 1 (.start 8),
      .act 1 (.replicationTick 0), .deliver 6, .deliver 6, .act 1 .tickerStep, .act 1 .tickerStep,
      .act 1 .tickerStep] (by decide +kernel)
  obtain ⟨s, hs, hp, hq⟩ := hrun
  obtain ⟨x, hx, rfl⟩ := (host 3 ℕ).exists_unaltered (Reach.refl init) hs
  exact absurd (h x 0 1 _ _ hx.shares hp hq rfl rfl rfl) (by decide)

/-- It takes no other defect for a request that shares its array. Peer `0` leads term `2`; its
request with `7` and `8` reaches peer `1`. Peer `2` is elected in term `3`, and peer `0` accepts `9`
from it in place of `7`. The request to peer `4` is encoded only now, with `9` and `8`. The record
of `8` matches that of peer `1`, which is elected in term `4` and commits one more command: peer `1`
applies `7` and peer `4` applies `9`, both at index `1`. -/
theorem two_commands_of_sharing : ∃ x : Sharing 7 ℕ (System 7 ℕ),
    (host 7 ℕ).Shares Safe init x ∧
      Event.applied 1 ⟨true, some 7, 1, false, [], 0, 0⟩ ∈ x.state.trace ∧
      Event.applied 4 ⟨true, some 9, 1, false, [], 0, 0⟩ ∈ x.state.trace :=
  Reach.exists_of_exec
    [.move (.act 1 .tickerStep) 0, .move (.act 4 .tickerStep) 0,
     .move (.act 0 .electionTimeout) 0, .move (.act 0 (.startElection 0)) 0, .move (.deliver 1) 0,
     .move (.deliver 5) 0, .move (.deliver 1) 0, .move (.deliver 4) 0, .move (.deliver 2) 0,
     .move (.deliver 3) 0, .move (.act 0 (.start 7)) 2, .move (.act 0 (.start 8)) 4,
     .move (.act 0 (.replicationTick 0)) 0, .encode 3, .encode 3, .encode 3, .encode 3, .encode 3,
     .encode 3, .encode 3, .move (.deliver 3) 0, .move (.act 2 .electionTimeout) 0,
     .move (.act 2 (.startElection 0)) 0, .move (.deliver 11) 0, .move (.deliver 14) 0,
     .move (.deliver 12) 0, .move (.deliver 13) 0, .move (.deliver 12) 0, .move (.deliver 12) 0,
     .move (.act 2 (.start 9)) 2, .move (.act 2 (.replicationTick 0)) 0, .encode 12, .encode 12,
     .encode 12, .encode 12, .move (.deliver 12) 0, .encode 5, .encode 5, .encode 5, .encode 5,
     .encode 5, .encode 5, .encode 5, .move (.deliver 5) 0, .move (.act 1 .electionTimeout) 0,
     .move (.act 1 .electionTimeout) 0, .move (.act 1 (.startElection 1)) 0,
     .move (.deliver 21) 0, .move (.deliver 23) 0, .move (.deliver 20) 0, .move (.deliver 22) 0,
     .move (.deliver 20) 0, .move (.deliver 21) 0, .move (.act 1 (.start 6)) 4,
     .move (.act 1 (.replicationTick 0)) 0, .encode 24, .encode 24, .encode 24, .encode 24,
     .move (.deliver 24) 0, .move (.deliver 26) 0, .encode 23, .encode 23, .encode 23, .encode 23,
     .move (.deliver 23) 0, .move (.deliver 25) 0, .encode 23, .encode 23, .encode 23, .encode 23,
     .move (.deliver 23) 0, .move (.deliver 24) 0, .move (.act 1 (.replicationTick 0)) 0,
     .encode 26, .encode 26, .encode 26, .encode 26, .encode 26, .encode 26, .encode 26,
     .encode 26, .encode 26, .encode 26, .move (.deliver 26) 0, .move (.deliver 29) 0, .encode 27,
     .encode 27, .encode 27, .encode 27, .encode 27, .encode 27, .encode 27, .encode 27,
     .encode 27, .encode 27, .move (.deliver 27) 0, .move (.deliver 28) 0,
     .move (.act 1 .tickerStep) 0, .move (.act 1 .tickerStep) 0, .move (.act 1 .tickerStep) 0,
     .move (.act 1 (.replicationTick 0)) 0, .encode 31, .move (.deliver 31) 0,
     .move (.act 4 .tickerStep) 0, .move (.act 4 .tickerStep) 0, .move (.act 4 .tickerStep) 0]
    (by decide +kernel)

end System

end LogicRaft
