import LogicRaft.Cluster.Persistence

/-!
# What the service is handed (`raft_application.go`, `InstallSnapshot`)

Two goroutines of a peer put messages on `applyCh`: `applicationTicker`, which sends the commands of
a batch without the lock, and `InstallSnapshot`, which sends a snapshot with the lock held. Both the
index of a command message and the final `lastApplied` are computed from the live `lastApplied`, and
`InstallSnapshot` compares its snapshot with `log.Base` only.

As long as snapshots come between batches and not from behind (`InTurn`), nothing is handed over
beyond what `lastApplied` and the batch say (`Bounded`), so a snapshot never rewinds the service. If
the service compacts only what it was handed, they say exactly where the service stands
(`Streaming`), and the commands come in order, each as it was collected (`apply_stream`).
-/

namespace LogicRaft

variable {n : ℕ} {α : Type}

/-- The index of the command or of the snapshot in a message. -/
def ApplyMsg.index? (msg : ApplyMsg α) : Option ℕ :=
  if msg.commandValid then some msg.commandIndex
  else if msg.snapshotValid then some msg.snapshotIndex
  else none

/-- The peer an event belongs to. -/
def Event.peer : Event n α → Fin n
  | .candidacy p _ | .voteGranted p _ | .elected p _ | .accepted p _ _ _ | .appended p _
  | .compacted p _ _ _ | .collected p _ | .applied p _ | .restarted p _ => p

/-! ## The stream of one incarnation -/

/-- The messages that `p` has put on `applyCh` in its incarnation, newest first. -/
def stream (p : Fin n) : List (Event n α) → List (ApplyMsg α)
  | [] => []
  | .applied q msg :: tr => if q = p then msg :: stream p tr else stream p tr
  | .restarted q _ :: tr => if q = p then [] else stream p tr
  | _ :: tr => stream p tr

/-- `log.Base` when the incarnation began. -/
def startBase (p : Fin n) : List (Event n α) → ℕ
  | [] => 0
  | .restarted q base :: tr => if q = p then base else startBase p tr
  | _ :: tr => startBase p tr

/-- The log that `applicationTicker` collected its last batch from. -/
def lastCollected (p : Fin n) : List (Event n α) → Option (Log α)
  | [] => none
  | .collected q log :: tr => if q = p then some log else lastCollected p tr
  | .restarted q _ :: tr => if q = p then none else lastCollected p tr
  | _ :: tr => lastCollected p tr

/-- The indices handed to the service in this incarnation, newest first. -/
def handed (p : Fin n) (tr : List (Event n α)) : List ℕ := (stream p tr).filterMap ApplyMsg.index?

/-- The index of the last command or snapshot the service was handed, or where it started. -/
def lastHanded (p : Fin n) (tr : List (Event n α)) : ℕ := (handed p tr).headD (startBase p tr)

section Frame

variable {p : Fin n} {x : Event n α} {tr : List (Event n α)}

theorem stream_of_ne (h : x.peer ≠ p) : stream p (x :: tr) = stream p tr := by
  cases x with
  | applied | restarted => exact if_neg h
  | _ => rfl

theorem startBase_of_ne (h : x.peer ≠ p) : startBase p (x :: tr) = startBase p tr := by
  cases x with
  | restarted => exact if_neg h
  | _ => rfl

theorem lastCollected_of_ne (h : x.peer ≠ p) : lastCollected p (x :: tr) = lastCollected p tr := by
  cases x with
  | collected | restarted => exact if_neg h
  | _ => rfl

theorem handed_of_ne (h : x.peer ≠ p) : handed p (x :: tr) = handed p tr := by
  rw [handed, stream_of_ne h, handed]

theorem lastHanded_of_ne (h : x.peer ≠ p) : lastHanded p (x :: tr) = lastHanded p tr := by
  rw [lastHanded, handed_of_ne h, startBase_of_ne h, lastHanded]

theorem stream_applied (msg : ApplyMsg α) : stream p (.applied p msg :: tr) = msg :: stream p tr :=
  if_pos rfl

@[simp] theorem handed_restarted (base : ℕ) : handed p (.restarted p base :: tr) = [] := by
  rw [handed, stream, if_pos rfl, List.filterMap_nil]

@[simp] theorem lastHanded_restarted (base : ℕ) :
    lastHanded p (.restarted p base :: tr) = base := by
  rw [lastHanded, handed_restarted, startBase, if_pos rfl, List.headD_nil]

theorem mem_handed_applied {msg : ApplyMsg α} {i : ℕ} (h : i ∈ handed p (.applied p msg :: tr)) :
    msg.index? = some i ∨ i ∈ handed p tr := by
  rw [handed, stream_applied, List.mem_filterMap] at h
  obtain ⟨m, hm, hi⟩ := h
  rcases List.mem_cons.mp hm with rfl | hm
  · exact Or.inl hi
  · exact Or.inr (List.mem_filterMap.mpr ⟨m, hm, hi⟩)

theorem lastHanded_applied {msg : ApplyMsg α} {i : ℕ} (h : msg.index? = some i) :
    lastHanded p (.applied p msg :: tr) = i := by
  rw [lastHanded, handed, stream_applied, List.filterMap_cons_some h, List.headD_cons]

/-- An event that the apply loop has no part in. -/
def Event.quiet : Event n α → Bool
  | .applied .. | .collected .. | .restarted .. => false
  | _ => true

variable {ev : List (Event n α)}

theorem append_of_quiet {β : Type} {f : List (Event n α) → β}
    (hf : ∀ x tr, x.quiet = true → f (x :: tr) = f tr) (h : ∀ x ∈ ev, x.quiet = true) :
    f (ev ++ tr) = f tr := by
  induction ev with
  | nil => rfl
  | cons x ev ih =>
    rw [List.cons_append, hf x _ (h x (List.mem_cons_self ..))]
    exact ih fun y hy => h y (List.mem_cons_of_mem _ hy)

theorem stream_of_quiet (h : ∀ x ∈ ev, x.quiet = true) : stream p (ev ++ tr) = stream p tr := by
  refine append_of_quiet (fun x tr hx => ?_) h
  cases x with
  | applied | collected | restarted => cases hx
  | _ => rfl

theorem startBase_of_quiet (h : ∀ x ∈ ev, x.quiet = true) :
    startBase p (ev ++ tr) = startBase p tr := by
  refine append_of_quiet (fun x tr hx => ?_) h
  cases x with
  | applied | collected | restarted => cases hx
  | _ => rfl

theorem lastCollected_of_quiet (h : ∀ x ∈ ev, x.quiet = true) :
    lastCollected p (ev ++ tr) = lastCollected p tr := by
  refine append_of_quiet (fun x tr hx => ?_) h
  cases x with
  | applied | collected | restarted => cases hx
  | _ => rfl

theorem handed_of_quiet (h : ∀ x ∈ ev, x.quiet = true) : handed p (ev ++ tr) = handed p tr := by
  rw [handed, stream_of_quiet h, handed]

theorem lastHanded_of_quiet (h : ∀ x ∈ ev, x.quiet = true) :
    lastHanded p (ev ++ tr) = lastHanded p tr := by
  rw [lastHanded, handed_of_quiet h, startBase_of_quiet h, lastHanded]

end Frame

@[simp] theorem Raft.snapshotMsg_index? (args : InstallSnapshotArgs n) :
    (Raft.snapshotMsg args : ApplyMsg α).index? = some args.lastIncludedIndex := rfl

/-- A command message has no other index than that of its command. -/
theorem Raft.index?_applyMsg {rf : Raft n α} {entry : LogRecord α} {i k : ℕ}
    (h : (rf.applyMsg entry i).index? = some k) : k = rf.lastApplied + 1 + i := by
  unfold ApplyMsg.index? at h
  split at h
  · exact (Option.some.inj h).symm
  · cases h

variable [RaftGob α] {p : Peer n α} {c : Cause n α} {e : Effect n α}

/-- A peer reports what it does itself. -/
theorem Does.peer_of_mem (h : Does p c e) {x : Event n α} (hx : x ∈ e.events) :
    x.peer = p.rf.me := by
  cases h with
  | crashed | appendPanicked | timedOut | accepted | compacted | collected | sent | installDone
  | voted | appended | won =>
    obtain rfl := List.mem_singleton.mp hx
    rfl
  | _ => cases hx

/-- Who puts a message on `applyCh`. -/
theorem Does.applied (h : Does p c e) {q : Fin n} {msg : ApplyMsg α}
    (hx : .applied q msg ∈ e.events) : e.events = [.applied q msg] ∧
      ((∃ entries i, p.rf.ticker = .offering entries i msg) ∨
        ∃ reply, p.installing = some (msg, reply)) := by
  cases h with
  | sent hticker =>
    obtain ⟨rfl, rfl⟩ := Event.applied.inj (List.mem_singleton.mp hx)
    exact ⟨rfl, Or.inl ⟨_, _, hticker⟩⟩
  | installDone hinst =>
    obtain ⟨rfl, rfl⟩ := Event.applied.inj (List.mem_singleton.mp hx)
    exact ⟨rfl, Or.inr ⟨_, hinst⟩⟩
  | crashed | appendPanicked | timedOut | accepted | compacted | collected | voted | appended
  | won =>
    cases List.mem_singleton.mp hx
  | _ => cases hx

/-- What a step does to the apply loop, to what the loop reads, and to a snapshot being sent. -/
inductive ApplyStep (p : Peer n α) (c : Cause n α) (e : Effect n α) : Prop
  /-- a crash: nothing is applied beyond the base, and nothing is being sent -/
  | restarted (hlast : e.peer.rf.lastApplied = e.peer.rf.log.base)
      (hcommit : e.peer.rf.commitIndex = e.peer.rf.log.base)
      (hprogress : e.peer.rf.ticker.progress = none) (hinst : e.peer.installing = none)
      (hinc : e.peer.incarnation = p.incarnation + 1)
      (hev : e.events = [.restarted p.rf.me e.peer.rf.log.base])
  /-- a step with no part in it; it may commit -/
  | quiet (hlast : e.peer.rf.lastApplied = p.rf.lastApplied)
      (hprogress : e.peer.rf.ticker.progress = p.rf.ticker.progress)
      (hinst : e.peer.installing = p.installing) (hbase : e.peer.rf.log.base = p.rf.log.base)
      (hcommit : p.rf.commitIndex ≤ e.peer.rf.commitIndex)
      (hinc : e.peer.incarnation = p.incarnation) (hev : ∀ x ∈ e.events, x.quiet = true)
  | compacted {index : ℕ} {data : Option Bytes} (hcause : c = .own (.snapshot index data))
      (hfree : p.muFree) (hle : p.rf.log.base ≤ index)
      (hlast : e.peer.rf.lastApplied = p.rf.lastApplied)
      (hprogress : e.peer.rf.ticker.progress = p.rf.ticker.progress)
      (hinst : e.peer.installing = p.installing) (hbase : e.peer.rf.log.base = index)
      (hcommit : e.peer.rf.commitIndex = p.rf.commitIndex)
      (hinc : e.peer.incarnation = p.incarnation) (hev : ∀ x ∈ e.events, x.quiet = true)
  | collected {entries : List (LogRecord α)} (hfree : p.muFree) (hticker : p.rf.ticker = .woken)
      (hentries : p.rf.collectLocked = some entries)
      (heq : e.peer = { p with rf.ticker := .sending entries 0 })
      (hev : e.events = [.collected p.rf.me p.rf.log])
  | offered {entries : List (LogRecord α)} {i : ℕ} {entry : LogRecord α}
      (hticker : p.rf.ticker = .sending entries i) (hentry : entries[i]? = some entry)
      (heq : e.peer = { p with rf.ticker := .offering entries i (p.rf.applyMsg entry i) })
      (hev : e.events = [])
  | sent {entries : List (LogRecord α)} {i : ℕ} {msg : ApplyMsg α}
      (hticker : p.rf.ticker = .offering entries i msg)
      (heq : e.peer = { p with rf.ticker := .sending entries (i + 1) })
      (hev : e.events = [.applied p.rf.me msg])
  | batchDone {entries : List (LogRecord α)} {i : ℕ} (hfree : p.muFree)
      (hticker : p.rf.ticker = .sending entries i) (hdone : entries[i]? = none)
      (heq : e.peer = { p with
        rf.lastApplied := p.rf.lastApplied + entries.length, rf.ticker := .idle })
      (hev : e.events = [])
  | installDone {msg : ApplyMsg α} {reply : Packet n α}
    (hblocked : p.installing = some (msg, reply))
      (heq : e.peer = { p with installing := none }) (hev : e.events = [.applied p.rf.me msg])
  | installed {call : Packet n α} {term : ℕ} {args : InstallSnapshotArgs n}
      (hcause : c = .packet call) (hcall : call.payload = .snapshotRequest term args)
      (hfree : p.muFree) (hterm : p.rf.currentTerm ≤ args.term)
      (hindex : p.rf.log.base < args.lastIncludedIndex)
      (hlast : e.peer.rf.lastApplied = max p.rf.lastApplied args.lastIncludedIndex)
      (hprogress : e.peer.rf.ticker.progress = p.rf.ticker.progress)
      (hinst : ∃ reply, e.peer.installing = some (Raft.snapshotMsg args, reply))
      (hbase : e.peer.rf.log.base = args.lastIncludedIndex)
      (hcommit : e.peer.rf.commitIndex = max p.rf.commitIndex args.lastIncludedIndex)
      (hinc : e.peer.incarnation = p.incarnation) (hev : e.events = [])

theorem ApplyStep.of_crash {rf : Raft n α} (hme : rf.me = p.rf.me) (hs : rf.Saved) :
    ApplyStep p c (p.crash rf) := by
  have hrf := Peer.crash_rf hme hs
  exact .restarted (by rw [hrf]; rfl) (by rw [hrf]; rfl) (by rw [hrf]; rfl) rfl rfl rfl

theorem Does.applyStep (h : Does p c e) (hs : p.rf.Saved) : ApplyStep p c e := by
  cases h with
  | crashed => exact .of_crash rfl hs
  | appendPanicked =>
    exact .of_crash (Raft.becomeFollowerLocked_me _ _) (hs.becomeFollowerLocked _)
  | timedOut _ hrole =>
    have hrf := Raft.becomeCandidateLocked_of_ne _ hrole
    exact .quiet (by rw [hrf]; rfl) (by rw [hrf]; rfl) rfl (by rw [hrf]; rfl)
      (Nat.le_of_eq (by rw [hrf]; rfl)) rfl (by simp [Event.quiet])
  | compacted hfree _ hbase =>
    exact .compacted rfl hfree hbase rfl rfl rfl rfl rfl rfl (by simp [Event.quiet])
  | waited _ hticker =>
    exact .quiet rfl (by rw [hticker]; rfl) rfl rfl (Nat.le_refl _) rfl (by simp)
  | collected hfree hticker hentries => exact .collected hfree hticker hentries rfl rfl
  | offered hticker hentry => exact .offered hticker hentry rfl rfl
  | sent hticker => exact .sent hticker rfl rfl
  | batchDone hfree hticker hdone => exact .batchDone hfree hticker hdone rfl rfl
  | installDone hblocked => exact .installDone hblocked rfl rfl
  | @installed _ _ args hfree hcall hterm hindex =>
    have hmax : ∀ a b : ℕ, (if b > a then b else a) = max a b := by
      intro a b
      split <;> omega
    refine .installed rfl hcall hfree hterm hindex ?_ ?_ ⟨_, rfl⟩ rfl ?_ rfl rfl
    · simp only [Raft.adoptSnapshot, Raft.persistLocked,
        Raft.becomeFollowerLocked_lastApplied, hmax]
    · rw [← Raft.becomeFollowerLocked_ticker p.rf args.term]
      rfl
    · simp only [Raft.adoptSnapshot, Raft.persistLocked,
        Raft.becomeFollowerLocked_commitIndex, hmax]
  | won _ _ _ _ hrole =>
    have hrf := Raft.becomeLeaderLocked_of_eq _ hrole
    exact .quiet (by rw [hrf]) (by rw [hrf]) rfl (by rw [hrf]) (Nat.le_of_eq (by rw [hrf])) rfl
      (by simp [Event.quiet])
  | accepted => exact .quiet rfl rfl rfl rfl (Nat.le_refl _) rfl (by simp [Event.quiet])
  | voteRefused | voted | appendRefused | appended | snapshotRefused | steppedDown =>
    exact .quiet (by simp [Raft.persistLocked]) (by simp [Raft.persistLocked]) rfl
      (by simp [Raft.persistLocked]) (by simp [Raft.persistLocked]) rfl (by simp [Event.quiet])
  | committed _ _ _ _ _ _ hrf hmore =>
    subst hrf
    refine .quiet (by simp [Raft.recordMatch]) (by simp [Raft.recordMatch]) rfl
      (by simp [Raft.recordMatch]) ?_ rfl (by simp)
    rw [Raft.signal_commitIndex]
    exact Nat.le_of_lt hmore
  | _ => exact .quiet rfl rfl rfl rfl (Nat.le_refl _) rfl (by simp)

namespace System

variable {s : System n α}

/-- A property of a peer and of its own events is kept by the steps of the other peers. -/
theorem own_invariant {ok : System n α → Action n α → Prop}
    {I : Fin n → Peer n α → List (Event n α) → Prop}
    (hinit : ∀ p, I p { rf := Raft.make p {} } [])
    (hother : ∀ p peer x tr, x.peer ≠ p → I p peer tr → I p peer (x :: tr))
    (hstep : ∀ s a p c e, Reach System.step ok init s → ok s a → s.target a = some (p, c) →
      Does (s.peers p) c e → I p (s.peers p) s.trace → I p e.peer (e.events ++ s.trace))
    (h : Reach System.step ok init s) (p : Fin n) : I p (s.peers p) s.trace := by
  refine run_invariant (I := fun s => ∀ p, I p (s.peers p) s.trace) hinit ?_ h p
  intro s a p c e hs hok htarget hdoes hI q
  by_cases hq : q = p
  · subst hq
    rw [install_peers_self]
    exact hstep s a q c e hs hok htarget hdoes (hI q)
  · rw [install_peers_ne _ _ _ _ hq, install_trace]
    -- the events are those of `p`, one after the other
    have hothers : ∀ ev : List (Event n α), (∀ x ∈ ev, x.peer ≠ q) →
        I q (s.peers q) (ev ++ s.trace) := by
      intro ev hev
      induction ev with
      | nil => exact hI q
      | cons x ev ih =>
        exact hother q _ x _ (hev x (List.mem_cons_self ..))
          (ih fun y hy => hev y (List.mem_cons_of_mem _ hy))
    refine hothers e.events fun x hx heq => hq ?_
    rw [← heq, hdoes.peer_of_mem hx, (Reachable.of_reach hs).me p]

/-- A message is put on `applyCh` in the last step, or it was there before. -/
theorem suffix_cases {p q : Fin n} {c : Cause n α} {e : Effect n α} {net : List (Packet n α)}
    {msg : ApplyMsg α} {tr : List (Event n α)} (hdoes : Does (s.peers p) c e)
    (h : (.applied q msg :: tr) <:+ (s.install p net e).trace) :
    (.applied q msg :: tr) <:+ s.trace ∨ (e.events = [.applied q msg] ∧ tr = s.trace) := by
  rw [install_trace] at h
  by_cases hmem : .applied q msg ∈ e.events
  · rw [(hdoes.applied hmem).1] at h ⊢
    rcases List.suffix_cons_iff.mp h with heq | hold
    · exact Or.inr ⟨rfl, (List.cons.inj heq).2⟩
    · exact Or.inl hold
  · left
    generalize e.events = ev at h hmem
    induction ev with
    | nil => exact h
    | cons x ev ih =>
      rcases List.suffix_cons_iff.mp h with heq | hold
      · exact absurd (List.mem_cons.mpr (Or.inl (List.cons.inj heq).1)) hmem
      · exact ih hold fun hx => hmem (List.mem_cons_of_mem _ hx)

end System

/-! ## Nothing is handed over beyond what is applied -/

omit [RaftGob α] in
/-- How far the service is: what is applied, and what is sent of the batch. -/
def Raft.position (rf : Raft n α) : ℕ :=
  rf.lastApplied + rf.ticker.progress.elim 0 Progress.sent

omit [RaftGob α] in
/-- The peer installs this snapshot while a batch is in progress, or from behind. -/
def Peer.outOfTurn (p : Peer n α) (m : Packet n α) : Bool :=
  match m.payload with
  | .snapshotRequest _ args =>
    decide (p.rf.currentTerm ≤ args.term ∧ p.rf.log.base < args.lastIncludedIndex ∧
      (p.rf.ticker.progress.isSome ∨ args.lastIncludedIndex < p.rf.lastApplied))
  | _ => false

omit [RaftGob α] in
/-- A snapshot in turn meets no batch, and is not behind. -/
theorem Peer.of_inTurn {call : Packet n α} {term : ℕ} {args : InstallSnapshotArgs n}
    (h : p.outOfTurn call = false) (hcall : call.payload = .snapshotRequest term args)
    (hterm : p.rf.currentTerm ≤ args.term) (hindex : p.rf.log.base < args.lastIncludedIndex) :
    p.rf.ticker.progress = none ∧ p.rf.lastApplied ≤ args.lastIncludedIndex := by
  simpa only [Peer.outOfTurn, hcall, hterm, hindex, true_and, decide_eq_false_iff_not, not_or,
    Option.not_isSome_iff_eq_none, Nat.not_lt] using h

omit [RaftGob α] in
/-- The step does not install a snapshot out of turn. -/
def System.InTurn (s : System n α) (a : Action n α) : Prop := s.delivers Peer.outOfTurn a = false

instance (s : System n α) (a : Action n α) : Decidable (s.InTurn a) :=
  inferInstanceAs (Decidable (_ = _))

omit [RaftGob α] in
/-- What `q` has handed over is bounded by its position; the message being sent is built from the
batch, and a snapshot being sent is where the position is. -/
structure Bounded (q : Fin n) (peer : Peer n α) (tr : List (Event n α)) : Prop where
  handed_le : ∀ i ∈ handed q tr, i ≤ peer.rf.position
  batch : ∀ x, peer.rf.ticker.progress = some x → x.built ≤ x.entries.length ∧
    ∀ msg, x.offer = some msg →
      ∃ entry, x.entries[x.sent]? = some entry ∧ msg = peer.rf.applyMsg entry x.sent
  installing : ∀ msg reply, peer.installing = some (msg, reply) →
    peer.rf.ticker.progress = none ∧ msg.index? = some peer.rf.lastApplied

namespace Bounded

variable {q : Fin n} {tr tr' : List (Event n α)} {p' : Peer n α}

omit [RaftGob α] in
theorem fresh (hhanded : handed q tr = []) (hprogress : p.rf.ticker.progress = none)
    (hinst : p.installing = none) : Bounded q p tr := by
  refine ⟨fun i hi => ?_, fun x hx => ?_, fun msg reply h => ?_⟩
  · rw [hhanded] at hi
    cases hi
  · rw [hprogress] at hx
    cases hx
  · rw [hinst] at h
    cases h

omit [RaftGob α] in
theorem congr (h : Bounded q p tr) (hhanded : handed q tr' = handed q tr)
    (hlast : p'.rf.lastApplied = p.rf.lastApplied)
    (hprogress : p'.rf.ticker.progress = p.rf.ticker.progress)
    (hinst : p'.installing = p.installing) : Bounded q p' tr' := by
  have hposition : p'.rf.position = p.rf.position := by
    rw [Raft.position, hlast, hprogress, Raft.position]
  refine ⟨?_, ?_, ?_⟩
  · rw [hhanded, hposition]
    exact h.handed_le
  · rw [hprogress]
    simp only [Raft.applyMsg, hlast]
    exact h.batch
  · rw [hinst, hprogress, hlast]
    exact h.installing

/-- One step of the peer. -/
theorem step (h : Bounded q p tr) (hme : p.rf.me = q) (hsaved : p.rf.Saved)
    (hok : ∀ m, c = .packet m → p.outOfTurn m = false) (hdoes : Does p c e) :
    Bounded q e.peer (e.events ++ tr) := by
  subst hme
  cases hdoes.applyStep hsaved with
  | restarted _ _ hprogress hinst _ hev =>
    rw [hev]
    exact fresh (handed_restarted _) hprogress hinst
  | quiet hlast hprogress hinst _ _ _ hev =>
    exact h.congr (handed_of_quiet hev) hlast hprogress hinst
  | compacted _ _ _ hlast hprogress hinst _ _ _ hev =>
    exact h.congr (handed_of_quiet hev) hlast hprogress hinst
  | collected hfree hticker _ heq hev =>
    -- a new batch: nothing of it is sent
    rw [heq, hev]
    refine ⟨fun i hi => ?_, fun x hx => ?_, fun msg reply hinst => ?_⟩
    · apply (h.handed_le i hi).trans
      rw [Raft.position, hticker]
      exact Nat.le_refl _
    · obtain rfl := Option.some.inj hx
      exact ⟨Nat.zero_le _, fun msg hmsg => by cases hmsg⟩
    · rw [show p.installing = none from hfree] at hinst
      cases hinst
  | @offered entries i entry hticker hentry heq hev =>
    rw [heq, hev]
    refine ⟨fun k hk => ?_, fun x hx => ?_, fun msg reply hinst => ?_⟩
    · have hle := h.handed_le k hk
      rwa [Raft.position, hticker] at hle
    · obtain rfl := Option.some.inj hx
      refine ⟨(List.getElem?_eq_some_iff.mp hentry).1, fun msg hmsg => ⟨entry, hentry, ?_⟩⟩
      exact (Option.some.inj hmsg).symm
    · have hnone := (h.installing msg reply hinst).1
      rw [hticker] at hnone
      cases hnone
  | @sent entries i msg hticker heq hev =>
    rw [heq, hev]
    obtain ⟨hbuilt, hoffer⟩ := h.batch ⟨entries, i, some msg⟩ (by rw [hticker]; rfl)
    obtain ⟨entry, -, hmsg⟩ := hoffer msg rfl
    obtain rfl : msg = p.rf.applyMsg entry i := hmsg
    refine ⟨fun k hk => ?_, fun x hx => ?_, fun msg reply hinst => ?_⟩
    · show k ≤ p.rf.lastApplied + (i + 1)
      rcases mem_handed_applied hk with hnew | hold
      · rw [Raft.index?_applyMsg hnew]
        omega
      · have hle := h.handed_le k hold
        rw [Raft.position, hticker] at hle
        exact hle.trans (by simp only [Ticker.progress, Option.elim_some]; omega)
    · obtain rfl := Option.some.inj hx
      exact ⟨hbuilt, fun msg hmsg => by cases hmsg⟩
    · have hnone := (h.installing msg reply hinst).1
      rw [hticker] at hnone
      cases hnone
  | @batchDone entries i hfree hticker hdone heq hev =>
    rw [heq, hev]
    obtain ⟨hbuilt, -⟩ := h.batch ⟨entries, i, none⟩ (by rw [hticker]; rfl)
    refine ⟨fun k hk => ?_, fun x hx => ?_, fun msg reply hinst => ?_⟩
    · have hle := h.handed_le k hk
      rw [Raft.position, hticker] at hle
      exact hle.trans (Nat.add_le_add_left hbuilt _)
    · cases hx
    · rw [show p.installing = none from hfree] at hinst
      cases hinst
  | @installDone msg reply hinst heq hev =>
    rw [heq, hev]
    obtain ⟨hnone, hindex⟩ := h.installing msg reply hinst
    refine ⟨fun k hk => ?_, fun x hx => ?_, fun msg reply hinst => by cases hinst⟩
    · rcases mem_handed_applied hk with hnew | hold
      · rw [hindex] at hnew
        rw [← Option.some.inj hnew]
        exact Nat.le_add_right _ _
      · exact h.handed_le k hold
    · exact h.batch x hx
  | @installed call term args hcause hcall _ hterm hindex hlast hprogress hinst _ _ _ hev =>
    obtain ⟨hnone, hle⟩ := Peer.of_inTurn (hok call hcause) hcall hterm hindex
    rw [Nat.max_eq_right hle] at hlast
    rw [hnone] at hprogress
    rw [hev]
    refine ⟨fun k hk => ?_, fun x hx => ?_, fun msg reply hx => ⟨hprogress, ?_⟩⟩
    · have hold := h.handed_le k hk
      rw [Raft.position, hnone] at hold
      rw [Raft.position, hprogress, hlast]
      exact hold.trans hle
    · rw [hprogress] at hx
      cases hx
    · obtain ⟨reply', hinst⟩ := hinst
      rw [hinst] at hx
      obtain ⟨rfl, -⟩ := Prod.mk.inj (Option.some.inj hx)
      rw [hlast]
      rfl

end Bounded

/-! ## The log holds commands above its base -/

omit [RaftGob α] in
/-- Every record above the base is a command. -/
def Log.Commands (log : Log α) : Prop :=
  ∀ k r, log.base < k → log.get k = some r → r.commandValid = true

omit [RaftGob α] in
/-- Every entry of an append request is a command. -/
def Packet.Commands (m : Packet n α) : Prop :=
  ∀ term args, m.payload = .appendRequest term args → ∀ r ∈ args.entries, r.commandValid = true

omit [RaftGob α] in
theorem Log.Commands.fresh_suffixFrom {log : Log α} (h : log.Commands) {i : ℕ} (t : ℕ)
    (hb : log.base ≤ i) : (Log.fresh i t (log.suffixFrom (i + 1))).Commands := by
  intro k r hk hget
  have hk' : i < k := hk
  rw [Log.get_fresh_suffixFrom log t hb hk'] at hget
  exact h k r (by omega) hget

omit [RaftGob α] in
theorem Log.Commands.append {log : Log α} (h : log.Commands) {lr : LogRecord α}
    (hlr : lr.commandValid = true) : (log.append lr).Commands := by
  intro k r hk hget
  rw [Log.get_append] at hget
  split at hget
  · rwa [← Option.some.inj hget]
  · exact h k r hk hget

theorem Does.commands (h : Does p c e) (hsaved : p.rf.Saved) (hlog : p.rf.log.Commands)
    (hreq : ∀ m, c = .packet m → m.Commands) : e.peer.rf.log.Commands := by
  cases h with
  | crashed => rwa [Peer.crash_rf rfl hsaved]
  | @appendPanicked _ _ args =>
    rw [Peer.crash_rf (Raft.becomeFollowerLocked_me _ _) (hsaved.becomeFollowerLocked _)]
    show (p.rf.becomeFollowerLocked args.term).log.Commands
    rwa [Raft.becomeFollowerLocked_log]
  | timedOut _ hrole => rwa [Raft.becomeCandidateLocked_of_ne _ hrole]
  | accepted => exact hlog.append rfl
  | compacted _ _ hbase => exact hlog.fresh_suffixFrom _ hbase
  | installed _ _ _ hindex =>
    simp only [Raft.adoptSnapshot, Raft.persistLocked, Raft.becomeFollowerLocked_log]
    exact hlog.fresh_suffixFrom _ (Nat.le_of_lt hindex)
  | @appended call term args prev _ hcall _ hprev =>
    obtain ⟨hb, hlt⟩ := Log.bounds_of_get hprev
    intro k r hk hget
    rw [Raft.acceptEntries_log, Raft.becomeFollowerLocked_log] at hk hget
    rw [Log.get_spliceAfter _ hb hlt] at hget
    split at hget
    · exact hlog k r hk hget
    · exact hreq call rfl term args hcall r (List.mem_of_getElem? hget)
  | won _ _ _ _ hrole => rwa [Raft.becomeLeaderLocked_of_eq _ hrole]
  | voteRefused | voted | appendRefused | snapshotRefused | steppedDown =>
    simpa [Raft.persistLocked] using hlog
  | committed _ _ _ _ _ _ hrf =>
    subst hrf
    simpa [Raft.recordMatch] using hlog
  | _ => exact hlog

/-- The entries of a request come from above the base of the sender's log. -/
theorem Does.commands_sends (h : Does p c e) (hlog : p.rf.log.Commands) (hinst : p.InstallOk) :
    ∀ m ∈ e.sends, m.Commands := by
  intro m hm term args hpayload
  cases h with
  | votesAsked =>
    obtain ⟨q, -, rfl⟩ := List.mem_map.mp hm
    cases hpayload
  | replicated _ _ _ _ hreq =>
    obtain ⟨⟨q, request⟩, hx, rfl⟩ := List.mem_map.mp hm
    cases request with
    | snapshot args' => cases hpayload
    | append args' =>
      obtain ⟨-, rfl⟩ := Payload.appendRequest.inj hpayload
      intro r hr
      obtain ⟨prev, hprev, -, hentries, -⟩ := Raft.replicationRequest_append (hreq _ hx).2
      obtain ⟨hb, -⟩ := Log.bounds_of_get hprev
      rw [hentries] at hr
      obtain ⟨j, hj⟩ := List.mem_iff_getElem?.mp hr
      rw [Log.getElem?_suffixFrom _ (by omega)] at hj
      exact hlog _ r (by omega) hj
  | @installDone msg reply hi =>
    obtain ⟨term', args', r, -, hreply⟩ := hinst msg reply hi
    obtain rfl := List.mem_singleton.mp hm
    rw [hreply] at hpayload
    cases hpayload
  | voteRefused | voted | appendRefused | appended | snapshotRefused =>
    obtain rfl := List.mem_singleton.mp hm
    cases hpayload
  | _ => cases hm

namespace System

variable {s : System n α}

/-- Logs hold commands above their base, and requests carry commands. -/
structure CommandsOk (s : System n α) : Prop where
  logs : ∀ p, (s.peers p).rf.log.Commands
  requests : ∀ m ∈ s.net, m.Commands

theorem Reachable.commandsOk (h : s.Reachable) : s.CommandsOk := by
  refine invariant ⟨?_, fun m hm => by cases hm⟩ ?_ h
  · intro p k r hk hget
    obtain ⟨-, hlt⟩ := Log.bounds_of_get hget
    exact absurd hlt (Nat.not_lt.mpr hk)
  · intro s a p c e hs _ htarget hdoes hI
    refine ⟨forall_install (I := fun _ x => x.rf.log.Commands) ?_ fun q _ => hI.logs q,
      fun m hm => ?_⟩
    · apply hdoes.commands (hs.saved p) (hI.logs p)
      intro m hm
      subst hm
      exact hI.requests m (mem_of_target htarget).1
    · rcases List.mem_append.mp hm with hold | hnew
      · exact hI.requests m ((s.inFlight_sublist a).subset hold)
      · exact hdoes.commands_sends (hI.logs p) (hs.installOk p) m hnew

end System

/-! ## The service is where the position says -/

omit [RaftGob α] in
/-- The service of `q` stands at the position of the peer, and a batch holds the commands the log
had when it was collected. -/
structure Streaming (q : Fin n) (peer : Peer n α) (tr : List (Event n α)) : Prop where
  position : peer.installing = none → lastHanded q tr = peer.rf.position
  base_le : peer.rf.log.base ≤ peer.rf.position
  applied_le : peer.rf.lastApplied ≤ peer.rf.commitIndex
  batch : ∀ x, peer.rf.ticker.progress = some x →
    peer.rf.lastApplied + x.entries.length ≤ peer.rf.commitIndex ∧
      ∃ log, lastCollected q tr = some log ∧ ∀ j r, x.entries[j]? = some r →
        r.commandValid = true ∧ log.get (peer.rf.lastApplied + 1 + j) = some r

namespace Streaming

variable {q : Fin n} {tr tr' : List (Event n α)} {p' : Peer n α}

omit [RaftGob α] in
/-- Without a batch only the numbers matter. -/
theorem idle (hposition : p.installing = none → lastHanded q tr = p.rf.lastApplied)
    (hbase : p.rf.log.base ≤ p.rf.lastApplied) (hcommit : p.rf.lastApplied ≤ p.rf.commitIndex)
    (hprogress : p.rf.ticker.progress = none) : Streaming q p tr := by
  have hpos : p.rf.position = p.rf.lastApplied := by
    rw [Raft.position, hprogress]
    rfl
  refine ⟨by rwa [hpos], by rwa [hpos], hcommit, fun x hx => ?_⟩
  rw [hprogress] at hx
  cases hx

omit [RaftGob α] in
theorem congr (h : Streaming q p tr) (hlastHanded : lastHanded q tr' = lastHanded q tr)
    (hcollected : lastCollected q tr' = lastCollected q tr)
    (hlast : p'.rf.lastApplied = p.rf.lastApplied)
    (hprogress : p'.rf.ticker.progress = p.rf.ticker.progress)
    (hinst : p'.installing = p.installing) (hbase : p'.rf.log.base ≤ p'.rf.position)
    (hcommit : p.rf.commitIndex ≤ p'.rf.commitIndex) : Streaming q p' tr' := by
  have hposition : p'.rf.position = p.rf.position := by
    rw [Raft.position, hlast, hprogress, Raft.position]
  refine ⟨?_, hbase, ?_, fun x hx => ?_⟩
  · rw [hlastHanded, hposition, hinst]
    exact h.position
  · rw [hlast]
    exact h.applied_le.trans hcommit
  · rw [hprogress] at hx
    rw [hlast, hcollected]
    obtain ⟨hlen, hlog⟩ := h.batch x hx
    exact ⟨hlen.trans hcommit, hlog⟩

omit [RaftGob α] in
/-- `applicationTicker` collects a batch. -/
theorem collect (h : Streaming q p tr) (hlog : p.rf.log.Commands)
    {entries : List (LogRecord α)} (hticker : p.rf.ticker = .woken)
    (hentries : p.rf.collectLocked = some entries) :
    Streaming q { p with rf.ticker := .sending entries 0 } (.collected q p.rf.log :: tr) := by
  obtain ⟨hlen, hget⟩ := Raft.collect_spec _ hentries
  have hpos : p.rf.position = p.rf.lastApplied := by
    rw [Raft.position, hticker]
    rfl
  have hbase := h.base_le
  have hle := h.applied_le
  rw [hpos] at hbase
  refine ⟨fun hinst => (h.position hinst).trans hpos, hbase, hle, fun x hx => ?_⟩
  obtain rfl := Option.some.inj hx
  refine ⟨by dsimp only; omega, p.rf.log, if_pos rfl, fun j r hr => ⟨?_, hget j r hr⟩⟩
  exact hlog _ r (by omega) (hget j r hr)

omit [RaftGob α] in
/-- `applicationTicker` sends a message. -/
theorem send (h : Streaming q p tr) (hbound : Bounded q p tr) {entries : List (LogRecord α)} {i : ℕ}
    {msg : ApplyMsg α} (hticker : p.rf.ticker = .offering entries i msg) :
    Streaming q { p with rf.ticker := .sending entries (i + 1) } (.applied q msg :: tr) := by
  obtain ⟨-, hoffer⟩ := hbound.batch ⟨entries, i, some msg⟩ (by rw [hticker]; rfl)
  obtain ⟨hlen, log, hlog, hget⟩ := h.batch ⟨entries, i, some msg⟩ (by rw [hticker]; rfl)
  obtain ⟨entry, hentry, hmsg⟩ := hoffer msg rfl
  have hindex : msg.index? = some (p.rf.lastApplied + 1 + i) := by
    rw [hmsg, ApplyMsg.index?, Raft.applyMsg, (hget i entry hentry).1]
    rfl
  have hbase := h.base_le
  rw [Raft.position, hticker] at hbase
  refine ⟨fun _ => ?_, ?_, h.applied_le, fun x hx => ?_⟩
  · rw [lastHanded_applied hindex]
    show _ = p.rf.lastApplied + (i + 1)
    omega
  · exact hbase.trans (Nat.add_le_add_left (Nat.le_succ i) _)
  · obtain rfl := Option.some.inj hx
    exact ⟨hlen, log, hlog, hget⟩

omit [RaftGob α] in
/-- `applicationTicker` finishes a batch. -/
theorem finish (h : Streaming q p tr) (hbound : Bounded q p tr) {entries : List (LogRecord α)}
    {i : ℕ} (hticker : p.rf.ticker = .sending entries i) (hdone : entries[i]? = none) :
    Streaming q { p with
      rf.lastApplied := p.rf.lastApplied + entries.length, rf.ticker := .idle } tr := by
  obtain ⟨hbuilt, -⟩ := hbound.batch ⟨entries, i, none⟩ (by rw [hticker]; rfl)
  obtain ⟨hlen, -⟩ := h.batch ⟨entries, i, none⟩ (by rw [hticker]; rfl)
  have hall : entries.length = i := Nat.le_antisymm (List.getElem?_eq_none_iff.mp hdone) hbuilt
  have hpos : p.rf.position = p.rf.lastApplied + entries.length := by
    rw [Raft.position, hticker, hall]
    rfl
  have hbase := h.base_le
  rw [hpos] at hbase
  exact idle (fun hinst => (h.position hinst).trans hpos) hbase hlen rfl

/-- One step of the peer. -/
theorem step (h : Streaming q p tr) (hbound : Bounded q p tr) (hme : p.rf.me = q)
    (hsaved : p.rf.Saved) (hlog : p.rf.log.Commands)
    (hturn : ∀ m, c = .packet m → p.outOfTurn m = false)
    (hservice : ∀ index data, c = .own (.snapshot index data) → index ≤ lastHanded q tr)
    (hdoes : Does p c e) : Streaming q e.peer (e.events ++ tr) := by
  subst hme
  cases hdoes.applyStep hsaved with
  | restarted hlast hcommit hprogress _ _ hev =>
    rw [hev]
    exact idle (fun _ => (lastHanded_restarted _).trans hlast.symm) (by rw [hlast])
      (by rw [hlast, hcommit]) hprogress
  | quiet hlast hprogress hinst hbase hcommit _ hev =>
    refine h.congr (lastHanded_of_quiet hev) (lastCollected_of_quiet hev) hlast hprogress hinst ?_
      hcommit
    rw [hbase, Raft.position, hlast, hprogress]
    exact h.base_le
  | @compacted index data hcause hfree _ hlast hprogress hinst hbase hcommit _ hev =>
    refine h.congr (lastHanded_of_quiet hev) (lastCollected_of_quiet hev) hlast hprogress hinst ?_
      (Nat.le_of_eq hcommit.symm)
    have hle := hservice index data hcause
    rw [h.position hfree] at hle
    rw [hbase, Raft.position, hlast, hprogress]
    exact hle
  | collected _ hticker hentries heq hev =>
    rw [heq, hev]
    exact h.collect hlog hticker hentries
  | @offered entries i entry hticker _ heq hev =>
    rw [heq, hev]
    obtain hbatch := h.batch ⟨entries, i, none⟩ (by rw [hticker]; rfl)
    have hpos : p.rf.position = p.rf.lastApplied + i := by
      rw [Raft.position, hticker]
      rfl
    have hbase := h.base_le
    rw [hpos] at hbase
    refine ⟨fun hinst => (h.position hinst).trans hpos, hbase, h.applied_le, fun x hx => ?_⟩
    obtain rfl := Option.some.inj hx
    exact hbatch
  | sent hticker heq hev =>
    rw [heq, hev]
    exact h.send hbound hticker
  | batchDone _ hticker hdone heq hev =>
    rw [heq, hev]
    exact h.finish hbound hticker hdone
  | @installDone msg reply hinst heq hev =>
    rw [heq, hev]
    obtain ⟨hnone, hindex⟩ := hbound.installing msg reply hinst
    have hbase := h.base_le
    rw [Raft.position, hnone] at hbase
    exact idle (fun _ => lastHanded_applied hindex) hbase h.applied_le hnone
  | @installed call term args hcause hcall _ hterm hindex hlast hprogress hinst hbase hcommit =>
    obtain ⟨hnone, hle⟩ := Peer.of_inTurn (hturn call hcause) hcall hterm hindex
    obtain ⟨reply, hinst⟩ := hinst
    rw [Nat.max_eq_right hle] at hlast
    apply idle
    · intro hfree
      rw [hinst] at hfree
      cases hfree
    · rw [hbase, hlast]
    · rw [hlast, hcommit]
      exact Nat.le_max_right _ _
    · rw [hprogress, hnone]

end Streaming

namespace System

variable {s : System n α}

omit [RaftGob α] in
/-- The service compacts only what it was handed. -/
def ServiceOk (s : System n α) : Action n α → Prop
  | .act p (.snapshot index _) => index ≤ lastHanded p s.trace
  | _ => True

instance (s : System n α) (a : Action n α) : Decidable (s.ServiceOk a) := by
  unfold ServiceOk
  split <;> infer_instance

omit [RaftGob α] in
/-- Snapshots are installed in turn, and the service compacts only what it was handed. -/
def Calm (s : System n α) (a : Action n α) : Prop := s.InTurn a ∧ s.ServiceOk a

instance (s : System n α) (a : Action n α) : Decidable (s.Calm a) :=
  inferInstanceAs (Decidable (_ ∧ _))

omit [RaftGob α] in
theorem InTurn.outOfTurn {a : Action n α} {p : Fin n} {c : Cause n α} (h : s.InTurn a)
    (htarget : s.target a = some (p, c)) (m : Packet n α) (hm : c = .packet m) :
    (s.peers p).outOfTurn m = false := by
  subst hm
  rwa [InTurn, delivers_eq htarget] at h

theorem bounded (h : Reach System.step InTurn init s) (p : Fin n) :
    Bounded p (s.peers p) s.trace := by
  refine own_invariant (fun p => .fresh rfl rfl rfl) ?_ ?_ h p
  · intro p peer x tr hx hI
    exact hI.congr (handed_of_ne hx) rfl rfl rfl
  · intro s a p c e hrun hok htarget hdoes hI
    have hs := Reachable.of_reach hrun
    exact hI.step (hs.me p) (hs.saved p) (hok.outOfTurn htarget) hdoes

theorem streaming (h : Reach System.step Calm init s) (p : Fin n) :
    Streaming p (s.peers p) s.trace := by
  refine own_invariant ?_ ?_ ?_ h p
  · intro p
    exact .idle (fun _ => rfl) (Nat.le_refl _) (Nat.le_refl _) rfl
  · intro p peer x tr hx hI
    exact hI.congr (lastHanded_of_ne hx) (lastCollected_of_ne hx) rfl rfl rfl hI.base_le
      (Nat.le_refl _)
  · rintro s a p c e hrun ⟨hturn, hservice⟩ htarget hdoes hI
    have hs := Reachable.of_reach hrun
    have hbound := bounded (hrun.mono fun _ _ hok => hok.1) p
    refine hI.step hbound (hs.me p) (hs.saved p) (hs.commandsOk.logs p) (hturn.outOfTurn htarget)
      ?_ hdoes
    rintro index data rfl
    cases a with
    | act q input =>
      obtain ⟨rfl, hinput⟩ := Prod.mk.inj (Option.some.inj htarget)
      obtain rfl := Cause.own.inj hinput
      exact hservice
    | deliver k =>
      obtain ⟨m, -, hm⟩ := Option.map_eq_some_iff.mp htarget
      cases (Prod.mk.inj hm).2

/-! ## The stream -/

omit [RaftGob α] in
/-- Every command handed over was in the log, at its index, when its batch was collected. -/
def CarriesCollected (s : System n α) : Prop :=
  ∀ p msg tr, (.applied p msg :: tr) <:+ s.trace → msg.commandValid = true →
    ∃ log r, lastCollected p tr = some log ∧ log.get msg.commandIndex = some r ∧
      r.command = msg.command

omit [RaftGob α] in
/-- Every command handed over comes right after what was handed over before. -/
def InOrder (s : System n α) : Prop :=
  ∀ p msg tr, (.applied p msg :: tr) <:+ s.trace → msg.commandValid = true →
    msg.commandIndex = lastHanded p tr + 1

omit [RaftGob α] in
/-- Whenever `rf.mu` is free, nothing is applied that is not committed. -/
def AppliedCommitted (s : System n α) : Prop :=
  ∀ p, (s.peers p).muFree → (s.peers p).rf.lastApplied ≤ (s.peers p).rf.commitIndex

omit [RaftGob α] in
/-- The message `applicationTicker` is sending comes next and carries what was collected. -/
theorem next_of_offering {p : Fin n} (hbound : Bounded p (s.peers p) s.trace)
    (hstream : Streaming p (s.peers p) s.trace) {entries : List (LogRecord α)} {i : ℕ}
    {msg : ApplyMsg α} (hticker : (s.peers p).rf.ticker = .offering entries i msg) :
    (∃ log r, lastCollected p s.trace = some log ∧ log.get msg.commandIndex = some r ∧
      r.command = msg.command) ∧ msg.commandIndex = lastHanded p s.trace + 1 := by
  have hprogress : (s.peers p).rf.ticker.progress = some ⟨entries, i, some msg⟩ := by
    rw [hticker]
    rfl
  obtain ⟨entry, hentry, hmsg⟩ := (hbound.batch _ hprogress).2 msg rfl
  obtain ⟨-, log, hlog, hget⟩ := hstream.batch _ hprogress
  -- a snapshot is not being sent at the same time
  have hinst : (s.peers p).installing = none := by
    by_contra hne
    obtain ⟨⟨m, reply⟩, hm⟩ := Option.ne_none_iff_exists'.mp hne
    rw [(hbound.installing m reply hm).1] at hprogress
    cases hprogress
  have hposition := hstream.position hinst
  rw [Raft.position, hprogress] at hposition
  have hindex : msg.commandIndex = (s.peers p).rf.lastApplied + 1 + i := by
    rw [hmsg]
    rfl
  refine ⟨⟨log, entry, hlog, ?_, by rw [hmsg]; rfl⟩, ?_⟩
  · rw [hindex]
    exact (hget i entry hentry).2
  · rw [hindex, hposition]
    show _ = (s.peers p).rf.lastApplied + i + 1
    omega

/-- In a run in which snapshots are installed between batches and not from behind, and the service
compacts only what it was handed, every command on `applyCh` carries what was in the log at its
index when it was collected, comes right after the previous message, and nothing uncommitted is
applied. -/
theorem apply_stream (h : Reach System.step Calm init s) :
    s.CarriesCollected ∧ s.InOrder ∧ s.AppliedCommitted := by
  have hmsgs : ∀ p msg tr, (.applied p msg :: tr) <:+ s.trace → msg.commandValid = true →
      (∃ log r, lastCollected p tr = some log ∧ log.get msg.commandIndex = some r ∧
        r.command = msg.command) ∧ msg.commandIndex = lastHanded p tr + 1 := by
    refine run_invariant (I := fun s => ∀ p msg tr, (.applied p msg :: tr) <:+ s.trace →
      msg.commandValid = true → (∃ log r, lastCollected p tr = some log ∧
        log.get msg.commandIndex = some r ∧ r.command = msg.command) ∧
        msg.commandIndex = lastHanded p tr + 1) ?_ ?_ h
    · intro p msg tr htr
      cases List.suffix_nil.mp htr
    · intro s a p c e hrun _ _ hdoes hI q msg tr htr hvalid
      rcases suffix_cases hdoes htr with hold | ⟨hev, rfl⟩
      · exact hI q msg tr hold hvalid
      · have hmem : .applied q msg ∈ e.events := by rw [hev]; exact List.mem_cons_self ..
        obtain rfl : q = p :=
          (hdoes.peer_of_mem hmem).trans ((Reachable.of_reach hrun).me p)
        rcases (hdoes.applied hmem).2 with ⟨entries, i, hticker⟩ | ⟨reply, hinst⟩
        · exact next_of_offering (bounded (hrun.mono fun _ _ hok => hok.1) q) (streaming hrun q)
            hticker
        · -- a snapshot is not a command
          obtain ⟨term, args, r, rfl, -⟩ := (Reachable.of_reach hrun).installOk q msg reply hinst
          cases hvalid
  refine ⟨fun p msg tr htr hvalid => (hmsgs p msg tr htr hvalid).1,
    fun p msg tr htr hvalid => (hmsgs p msg tr htr hvalid).2, fun p _ => ?_⟩
  exact (streaming h p).applied_le

/-- Peer `1` installs a snapshot of the first two commands and then applies the third. -/
theorem apply_stream_after_snapshot : ∃ s : System 3 ℕ, Reach System.step Calm init s ∧
    s.trace.head? = some (.applied 1 ⟨true, some 9, 3, false, [], 0, 0⟩) ∧
    lastHanded 1 s.trace.tail = 2 ∧ s.CarriesCollected ∧ s.InOrder ∧ s.AppliedCommitted := by
  have hrun : ∃ s : System 3 ℕ, Reach System.step Calm init s ∧
      (s.trace.head? = some (.applied 1 ⟨true, some 9, 3, false, [], 0, 0⟩) ∧
        lastHanded 1 s.trace.tail = 2) :=
    Reach.exists_of_exec [.act 0 .tickerStep, .act 1 .tickerStep, .act 0 .electionTimeout,
      .act 0 (.startElection 0), .deliver 0, .deliver 1, .act 0 (.start 7), .act 0 (.start 8),
      .act 0 (.replicationTick 0), .deliver 2, .deliver 2, .act 0 .tickerStep, .act 0 .tickerStep,
      .act 0 .tickerStep, .act 0 .tickerStep, .act 0 .tickerStep, .act 0 .tickerStep,
      .act 0 (.snapshot 2 (some [1])), .act 0 (.start 9), .act 0 (.replicationTick 0), .deliver 2,
      .act 1 .finishInstall, .deliver 2, .deliver 2, .deliver 2, .act 0 (.replicationTick 0),
      .deliver 2, .act 1 .tickerStep, .act 1 .tickerStep, .act 1 .tickerStep] (by decide +kernel)
  obtain ⟨s, hs, hhead, hlast⟩ := hrun
  exact ⟨s, hs, hhead, hlast, apply_stream hs⟩

/-- Peer `1` has collected the commands `7` and `8` and sent `7` when a snapshot at index 2 arrives.
`lastApplied` becomes 2, so `8` is sent as the command at index 4, and when the batch is done
`lastApplied` is 4 while `commitIndex` is 2. All three properties fail, though the service compacts
only what it was handed. -/
theorem shifted_stream : ∃ s : System 3 ℕ, Reach System.step ServiceOk init s ∧
    ¬ s.CarriesCollected ∧ ¬ s.InOrder ∧ ¬ s.AppliedCommitted := by
  have hrun : ∃ s : System 3 ℕ, Reach System.step ServiceOk init s ∧
      (s.trace.head? = some (.applied 1 ⟨true, some 8, 4, false, [], 0, 0⟩) ∧
        lastHanded 1 s.trace.tail = 2 ∧
        ((lastCollected 1 s.trace.tail).bind fun log => log.get 4) = none ∧
        (s.peers 1).muFree ∧ (s.peers 1).rf.commitIndex < (s.peers 1).rf.lastApplied) :=
    Reach.exists_of_exec [.act 0 .tickerStep, .act 1 .tickerStep, .act 0 .electionTimeout,
      .act 0 (.startElection 0), .deliver 0, .deliver 1, .act 0 (.start 7), .act 0 (.start 8),
      .act 0 (.replicationTick 0), .deliver 2, .deliver 2, .act 0 .tickerStep, .act 0 .tickerStep,
      .act 0 .tickerStep, .act 0 .tickerStep, .act 0 .tickerStep, .act 0 .tickerStep,
      .act 0 (.replicationTick 0), .act 0 (.snapshot 2 (some [1])), .act 0 (.replicationTick 0),
      .deliver 2, .act 1 .tickerStep, .act 1 .tickerStep, .act 1 .tickerStep, .deliver 3,
      .act 1 .finishInstall, .act 1 .tickerStep, .act 1 .tickerStep, .act 1 .tickerStep]
      (by decide +kernel)
  obtain ⟨s, hs, hhead, hlast, hget, hfree, happlied⟩ := hrun
  obtain ⟨tr, htr⟩ := List.head?_eq_some_iff.mp hhead
  have hsuffix : (.applied 1 ⟨true, some 8, 4, false, [], 0, 0⟩ :: tr) <:+ s.trace :=
    htr ▸ List.suffix_refl _
  rw [htr, List.tail_cons] at hlast hget
  refine ⟨s, hs, fun h => ?_, fun h => ?_, fun h => ?_⟩
  · obtain ⟨log, r, hlog, hr, -⟩ := h 1 _ tr hsuffix rfl
    rw [hlog] at hget
    rw [show log.get 4 = none from hget] at hr
    cases hr
  · have hnext := h 1 _ tr hsuffix rfl
    rw [hlast] at hnext
    cases hnext
  · exact absurd (h 1 hfree) (Nat.not_le.mpr happlied)

end System

end LogicRaft
