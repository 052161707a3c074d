import LogicRaft.Cluster.LogSteps

/-!
# The snapshot belongs to the base

`Snapshot` and `InstallSnapshot` save the log with its new base together with the snapshot; every
other save passes nil and keeps the snapshot bytes. So whenever a log has a base above `0`, the
bytes beside it are the ones some service passed to `Snapshot` for exactly this index, and so are
the bytes of every `InstallSnapshot` request for an index above `0` (`paired`).

A leader that has compacted nothing has no snapshot to send. It sends one nevertheless, for index
`0` and with no bytes, when a `nextIndex` has become `0` (`request_for_nothing`). In runs without
such a round every request has its bytes (`snapshot_paired`).
-/

namespace LogicRaft

variable {n : ℕ} {α : Type}

/-- If this is a call of `Snapshot`, it comes with data. -/
def Action.carriesData : Action n α → Bool
  | .act _ (.snapshot _ data) => decide (data.getD [] ≠ [])
  | _ => true

namespace System

/-- Services call `Snapshot` with data. -/
def CarriesData (_ : System n α) (a : Action n α) : Prop := a.carriesData = true

instance (s : System n α) (a : Action n α) : Decidable (s.CarriesData a) :=
  inferInstanceAs (Decidable (_ = true))

/-- No round of a leader that has compacted nothing has a `nextIndex` of `0`, which makes it send a
snapshot. -/
def HasPrev (s : System n α) : Action n α → Prop
  | .act p (.replicationTick k) =>
    ∀ term ∈ (s.peers p).replicationTickers[k]?, ¬ (s.peers p).rf.contextLostLocked .leader term →
      (s.peers p).rf.log.base = 0 → ∀ q ≠ (s.peers p).rf.me, (s.peers p).rf.nextIndex q ≠ 0
  | _ => True

instance (s : System n α) (a : Action n α) : Decidable (s.HasPrev a) :=
  match a with
  | .act p (.replicationTick k) =>
    inferInstanceAs (Decidable (∀ term ∈ (s.peers p).replicationTickers[k]?, _))
  | .act _ .electionTimeout | .act _ (.startElection _) | .act _ (.start _) | .act _ (.snapshot ..)
  | .act _ .tickerStep | .act _ .finishInstall | .act _ .restart | .deliver _ => .isTrue trivial

variable [RaftGob α]

/-- On the way to `s` some service has passed `data` to `Snapshot` for exactly `index`, at a peer
whose record there had this term. -/
def Supplied (s : System n α) (index term : ℕ) (data : Bytes) : Prop :=
  ∃ s₀ s₁ q last, Reach System.step CarriesData init s₀ ∧
    (s₀.peers q).rf.log.get index = some last ∧ last.term = term ∧
    s₀.CarriesData (.act q (.snapshot index (some data))) ∧
    s₀.step (.act q (.snapshot index (some data))) = some s₁ ∧
    Reach System.step CarriesData s₁ s

variable {s t : System n α} {a : Action n α} {p : Fin n} {c : Cause n α} {e : Effect n α}

theorem Supplied.step {index term : ℕ} {data : Bytes} (h : s.Supplied index term data)
    (hok : s.CarriesData a) (hstep : s.step a = some t) : t.Supplied index term data := by
  obtain ⟨s₀, s₁, q, last, hs₀, hlast, hterm, hok₀, hcall, hrun⟩ := h
  exact ⟨s₀, s₁, q, last, hs₀, hlast, hterm, hok₀, hcall, hrun.trans (Reach.single hok hstep)⟩

theorem Supplied.ne_nil {index term : ℕ} {data : Bytes} (h : s.Supplied index term data) :
    data ≠ [] := by
  obtain ⟨s₀, s₁, q, last, -, -, -, hok, -⟩ := h
  exact of_decide_eq_true hok

/-- Every base above `0` and every snapshot request for an index above `0` has its bytes. -/
structure Paired (s : System n α) : Prop where
  peers : ∀ p, 0 < (s.peers p).rf.log.base → s.Supplied (s.peers p).rf.log.base
    (s.peers p).rf.log.baseTerm (s.peers p).rf.persister.snapshot
  requests : ∀ m ∈ s.net, ∀ term args, m.payload = .snapshotRequest term args →
    0 < args.lastIncludedIndex →
      s.Supplied args.lastIncludedIndex args.lastIncludedTerm args.data

/-- The base of the peer that takes the step. -/
theorem Paired.peer_step (h : s.Paired) (hs : Reach System.step CarriesData init s)
    (hok : s.CarriesData a) (hstep : s.step a = some t) (htarget : s.target a = some (p, c))
    (hdoes : Does (s.peers p) c e) (hpos : 0 < e.peer.rf.log.base) :
    t.Supplied e.peer.rf.log.base e.peer.rf.log.baseTerm e.peer.rf.persister.snapshot := by
  cases hdoes.logStep ((Reachable.of_reach hs).saved p) with
  | kept hlog hsnapshot =>
    rw [hlog] at hpos ⊢
    rw [hsnapshot]
    exact (h.peers p hpos).step hok hstep
  | accepted _ hlog hsnapshot =>
    rw [hlog, Log.base_append] at hpos
    rw [hlog, hsnapshot, Log.base_append, Log.baseTerm_append]
    exact (h.peers p hpos).step hok hstep
  | appended _ _ _ _ _ hlog hsnapshot =>
    rw [hlog, Log.base_spliceAfter] at hpos
    rw [hlog, hsnapshot, Log.base_spliceAfter, Log.baseTerm_spliceAfter]
    exact (h.peers p hpos).step hok hstep
  | @compacted index data last hcause _ hlast hlog hsnapshot =>
    subst hcause
    obtain rfl := act_of_target htarget
    cases data with
    | none => cases hok
    | some bytes =>
      rw [hlog, hsnapshot, Log.base_fresh, Log.baseTerm_fresh]
      exact ⟨s, t, p, last, hs, hlast, rfl, hok, hstep, Reach.refl _⟩
  | @installed call term args hcause hcall hindex hlog hsnapshot =>
    subst hcause
    have hrequest := h.requests call (mem_of_target htarget).1 term args hcall (by omega)
    rw [hlog, hsnapshot, Log.base_fresh, Log.baseTerm_fresh, if_neg hrequest.ne_nil]
    exact hrequest.step hok hstep

theorem Paired.step (h : s.Paired) (hs : Reach System.step CarriesData init s)
    (hok : s.CarriesData a) (hstep : s.step a = some t) : t.Paired := by
  obtain ⟨p, c, e, htarget, hdoes, rfl⟩ := step_cases hstep
  refine ⟨?_, fun m hm term args hpay hpos => ?_⟩
  · refine forall_install (I := fun q x => 0 < x.rf.log.base → System.Supplied _ x.rf.log.base
      x.rf.log.baseTerm x.rf.persister.snapshot) ?_ fun q _ hpos => ?_
    · exact h.peer_step hs hok hstep htarget hdoes
    · exact (h.peers q hpos).step hok hstep
  · rcases List.mem_append.mp hm with hm | hm
    · exact (h.requests m (mem_of_mem_inFlight hm) term args hpay hpos).step hok hstep
    · obtain ⟨-, -, -, -, ⟨q, request⟩, -, hrequest, rfl⟩ :=
        hdoes.round_of_mem ((Reachable.of_reach hs).installOk p) hm (by rw [hpay]; rfl)
      cases request with
      | append args' => cases hpay
      | snapshot args' =>
        obtain ⟨-, rfl⟩ := Payload.snapshotRequest.inj hpay
        obtain ⟨-, hindex, hterm, hdata⟩ := Raft.replicationRequest_snapshot hrequest
        rw [hindex] at hpos
        rw [hindex, hterm, hdata]
        exact (h.peers p hpos).step hok hstep

theorem paired (h : Reach System.step CarriesData init s) : s.Paired := by
  refine h.invariant_along ?_ ⟨fun p hpos => absurd hpos (Nat.lt_irrefl 0), fun m hm => ?_⟩
  · intro s a t hs hpaired hok hstep
    exact hpaired.step hs hok hstep
  · cases hm

/-- In a run without such rounds no request is for index `0`. -/
theorem requests_pos (h : Reach System.step HasPrev init s) : ∀ m ∈ s.net, ∀ term args,
    m.payload = .snapshotRequest term args → 0 < args.lastIncludedIndex := by
  refine run_invariant (I := fun s => ∀ m ∈ s.net, ∀ term args,
    m.payload = .snapshotRequest term args → 0 < args.lastIncludedIndex) nofun ?_ h
  intro s a p c e hrun hok htarget hdoes hI m hm term args hpay
  rcases List.mem_append.mp hm with hm | hm
  · exact hI m (mem_of_mem_inFlight hm) term args hpay
  · obtain ⟨⟨k, hcause, hk⟩, hrole, -, -, ⟨q, request⟩, hq, hrequest, rfl⟩ :=
      hdoes.round_of_mem ((Reachable.of_reach hrun).installOk p) hm (by rw [hpay]; rfl)
    cases request with
    | append args' => cases hpay
    | snapshot args' =>
      obtain ⟨-, rfl⟩ := Payload.snapshotRequest.inj hpay
      obtain ⟨-, hindex, -⟩ := Raft.replicationRequest_snapshot hrequest
      have hle : (s.peers p).rf.nextIndex q ≤ _ := Raft.nextIndex_le_of_snapshot hrequest
      subst hcause
      rw [act_of_target htarget] at hok
      by_contra hzero
      have hbase : (s.peers p).rf.log.base = 0 := by omega
      exact hok _ hk (not_not.mpr ⟨rfl, hrole⟩) hbase q hq (by omega)

/-- Every snapshot that is saved, on its way to a peer or on its way to a service has property `P`
together with its index. -/
structure SnapshotsOk (P : ℕ → Bytes → Prop) (s : System n α) : Prop where
  saved : ∀ p, P (s.peers p).rf.log.base (s.peers p).rf.persister.snapshot
  requests : ∀ m ∈ s.net, ∀ term args, m.payload = .snapshotRequest term args →
    P args.lastIncludedIndex args.data
  installing : ∀ p msg reply, (s.peers p).installing = some (msg, reply) →
    0 < msg.snapshotIndex ∧ P msg.snapshotIndex msg.snapshot

namespace SnapshotsOk

variable {P Q : ℕ → Bytes → Prop}

omit [RaftGob α] in
theorem mono (h : s.SnapshotsOk P) (hPQ : ∀ i data, P i data → Q i data) : s.SnapshotsOk Q := by
  refine ⟨fun p => hPQ _ _ (h.saved p), fun m hm term args hpay => ?_, fun p msg reply hinst => ?_⟩
  · exact hPQ _ _ (h.requests m hm term args hpay)
  · obtain ⟨hpos, hP⟩ := h.installing p msg reply hinst
    exact ⟨hpos, hPQ _ _ hP⟩

section Step

variable (h : s.SnapshotsOk P) (hs : s.Reachable) (htarget : s.target a = some (p, c))
  (hdoes : Does (s.peers p) c e)

include h hs htarget hdoes

/-- What the peer that takes the step has saved. -/
theorem saved_step (hempty : ∀ i, P i [] → i = 0)
    (hcall : ∀ index data, c = .own (.snapshot index data) → ∃ bytes, data = some bytes ∧
      P index bytes) : P e.peer.rf.log.base e.peer.rf.persister.snapshot := by
  have hold := h.saved p
  cases hdoes.logStep (hs.saved p) with
  | kept hlog hsnapshot => rwa [hlog, hsnapshot]
  | accepted _ hlog hsnapshot => rwa [hlog, hsnapshot, Log.base_append]
  | appended _ _ _ _ _ hlog hsnapshot => rwa [hlog, hsnapshot, Log.base_spliceAfter]
  | compacted hcause _ _ hlog hsnapshot =>
    obtain ⟨bytes, rfl, hP⟩ := hcall _ _ hcause
    rwa [hlog, hsnapshot, Log.base_fresh]
  | @installed call term args hcause hpay hindex hlog hsnapshot =>
    subst hcause
    have hrequest := h.requests call (mem_of_target htarget).1 term args hpay
    have hne : args.data ≠ [] := by
      intro hnil
      rw [hnil] at hrequest
      have := hempty _ hrequest
      omega
    rwa [hlog, hsnapshot, Log.base_fresh, if_neg hne]

omit hs in
/-- What the peer that takes the step is handing to its service. -/
theorem installing_step {msg : ApplyMsg α} {reply : Packet n α}
    (hinst : e.peer.installing = some (msg, reply)) :
    0 < msg.snapshotIndex ∧ P msg.snapshotIndex msg.snapshot := by
  cases hdoes with
  | @installed call term args _ hcall _ hindex =>
    obtain ⟨rfl, -⟩ := Prod.mk.inj (Option.some.inj hinst)
    exact ⟨Nat.zero_lt_of_lt hindex, h.requests call (mem_of_target htarget).1 term args hcall⟩
  | crashed | appendPanicked | installDone => cases hinst
  | _ => exact h.installing p msg reply hinst

/-- Every step passes snapshots on as they are; new ones come from calls of `Snapshot`. -/
theorem step (hempty : ∀ i, P i [] → i = 0)
    (hcall : ∀ index data, c = .own (.snapshot index data) → ∃ bytes, data = some bytes ∧
      P index bytes) : (s.install p (s.inFlight a) e).SnapshotsOk P := by
  refine ⟨?_, fun m hm term args hpay => ?_, ?_⟩
  · exact forall_install (I := fun _ x => P x.rf.log.base x.rf.persister.snapshot)
      (h.saved_step hs htarget hdoes hempty hcall) fun q _ => h.saved q
  · rcases List.mem_append.mp hm with hm | hm
    · exact h.requests m (mem_of_mem_inFlight hm) term args hpay
    · obtain ⟨-, -, -, -, ⟨q, request⟩, -, hrequest, rfl⟩ :=
        hdoes.round_of_mem (hs.installOk p) hm (by rw [hpay]; rfl)
      cases request with
      | append args' => cases hpay
      | snapshot args' =>
        obtain ⟨-, rfl⟩ := Payload.snapshotRequest.inj hpay
        obtain ⟨-, hindex, -, hdata⟩ := Raft.replicationRequest_snapshot hrequest
        rw [hindex, hdata]
        exact h.saved p
  · exact forall_install (I := fun _ x => ∀ msg reply, x.installing = some (msg, reply) →
      0 < msg.snapshotIndex ∧ P msg.snapshotIndex msg.snapshot)
      (fun msg reply hinst => h.installing_step htarget hdoes hinst)
      fun q _ => h.installing q

end Step

end SnapshotsOk

end System

end LogicRaft
