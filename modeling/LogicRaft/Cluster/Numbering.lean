import LogicRaft.Cluster.ApplyStream
import LogicRaft.Cluster.Commit

/-!
# The numbers of the apply loop

`applicationTicker` numbers the commands of a batch from the live `lastApplied`, which an
`InstallSnapshot` in the middle of the batch moves up. Both `lastApplied` and what is sent of the
batch only go up within an incarnation, so the `CommandIndex` values on `applyCh` strictly increase,
whatever else happens in between (`Numbered`, with no condition on the run).

Where `log.Base` stands depends on the service. If it compacts only at indices it has received as a
`CommandIndex`, the base stays at or below the position of the peer, `lastApplied` plus what is sent
of the batch. Between batches this is `lastApplied`: the base may pass `lastApplied` while a batch
is sent, but not when the next one is collected (`applier_above_base`).
-/

namespace LogicRaft

variable {n : ℕ} {α : Type}

/-- The `CommandIndex` of the command messages on `applyCh` in this incarnation, newest first. -/
def commandIndices (p : Fin n) (tr : List (Event n α)) : List ℕ :=
  (stream p tr).filterMap fun msg => if msg.snapshotValid then none else some msg.commandIndex

section Frame

variable {p : Fin n} {x : Event n α} {tr ev : List (Event n α)} {msg : ApplyMsg α}

theorem commandIndices_of_ne (h : x.peer ≠ p) :
    commandIndices p (x :: tr) = commandIndices p tr := by
  rw [commandIndices, stream_of_ne h, commandIndices]

/-- What other peers report does not matter. -/
theorem commandIndices_of_others (h : ∀ x ∈ ev, x.peer ≠ p) :
    commandIndices p (ev ++ tr) = commandIndices p tr := by
  induction ev with
  | nil => rfl
  | cons x ev ih =>
    rw [List.cons_append, commandIndices_of_ne (h x (List.mem_cons_self ..))]
    exact ih fun y hy => h y (List.mem_cons_of_mem _ hy)

theorem commandIndices_of_quiet (h : ∀ x ∈ ev, x.quiet = true) :
    commandIndices p (ev ++ tr) = commandIndices p tr := by
  rw [commandIndices, stream_of_quiet h, commandIndices]

@[simp] theorem commandIndices_restarted (base : ℕ) :
    commandIndices p (.restarted p base :: tr) = [] := by
  rw [commandIndices, stream, if_pos rfl, List.filterMap_nil]

theorem commandIndices_command (h : msg.snapshotValid = false) :
    commandIndices p (.applied p msg :: tr) = msg.commandIndex :: commandIndices p tr := by
  rw [commandIndices, stream_applied, List.filterMap_cons_some (by rw [h]; rfl), commandIndices]

theorem commandIndices_snapshot (h : msg.snapshotValid = true) :
    commandIndices p (.applied p msg :: tr) = commandIndices p tr := by
  rw [commandIndices, stream_applied, List.filterMap_cons_none (by rw [h]; rfl), commandIndices]

end Frame

/-! ## Positions only go up -/

/-- The numbers handed over so far decrease from the newest on and are bounded by the position; the
command being sent comes after them. -/
structure Numbered (q : Fin n) (peer : Peer n α) (tr : List (Event n α)) : Prop where
  decreasing : (commandIndices q tr).Pairwise (· > ·)
  le_position : ∀ i ∈ commandIndices q tr, i ≤ peer.rf.position
  batch : ∀ x, peer.rf.ticker.progress = some x → x.built ≤ x.entries.length ∧
    ∀ msg, x.offer = some msg → msg.snapshotValid = false ∧
      (∀ i ∈ commandIndices q tr, i < msg.commandIndex) ∧
      msg.commandIndex ≤ peer.rf.lastApplied + x.sent + 1
  installing : ∀ msg reply, peer.installing = some (msg, reply) → msg.snapshotValid = true

namespace Numbered

variable {q : Fin n} {p p' : Peer n α} {tr tr' : List (Event n α)}

theorem fresh (hindices : commandIndices q tr = []) (hprogress : p.rf.ticker.progress = none)
    (hinst : p.installing = none) : Numbered q p tr := by
  refine ⟨?_, fun i hi => ?_, fun x hx => ?_, fun msg reply hx => ?_⟩
  · rw [hindices]
    exact List.Pairwise.nil
  · rw [hindices] at hi
    cases hi
  · rw [hprogress] at hx
    cases hx
  · rw [hinst] at hx
    cases hx

/-- Moving `lastApplied` up in the middle of a batch keeps the numbers in order. -/
theorem mono (h : Numbered q p tr) (hindices : commandIndices q tr' = commandIndices q tr)
    (hlast : p.rf.lastApplied ≤ p'.rf.lastApplied)
    (hprogress : p'.rf.ticker.progress = p.rf.ticker.progress)
    (hinst : ∀ msg reply, p'.installing = some (msg, reply) → msg.snapshotValid = true) :
    Numbered q p' tr' := by
  refine ⟨?_, fun i hi => ?_, fun x hx => ?_, hinst⟩
  · rw [hindices]
    exact h.decreasing
  · rw [hindices] at hi
    have hle := h.le_position i hi
    rw [Raft.position] at hle ⊢
    rw [hprogress]
    omega
  · rw [hprogress] at hx
    rw [hindices]
    obtain ⟨hbuilt, hoffer⟩ := h.batch x hx
    refine ⟨hbuilt, fun msg hmsg => ?_⟩
    obtain ⟨hvalid, hlt, hle⟩ := hoffer msg hmsg
    exact ⟨hvalid, hlt, by omega⟩

/-- One step of the peer. -/
theorem step {c : Cause n α} {e : Effect n α} (h : Numbered q p tr) (hme : p.rf.me = q)
    (hstep : ApplyStep p c e) : Numbered q e.peer (e.events ++ tr) := by
  subst hme
  cases hstep with
  | restarted _ _ hprogress hinst _ hev =>
    rw [hev]
    exact fresh (commandIndices_restarted _) hprogress hinst
  | quiet hlast hprogress hinst _ _ _ hev =>
    exact h.mono (commandIndices_of_quiet hev) (Nat.le_of_eq hlast.symm) hprogress
      (by rw [hinst]; exact h.installing)
  | compacted _ _ _ hlast hprogress hinst _ _ _ hev =>
    exact h.mono (commandIndices_of_quiet hev) (Nat.le_of_eq hlast.symm) hprogress
      (by rw [hinst]; exact h.installing)
  | collected _ hticker _ heq hev =>
    rw [heq, hev]
    refine ⟨h.decreasing, fun i hi => ?_, fun x hx => ?_, h.installing⟩
    · apply (h.le_position i hi).trans
      rw [Raft.position, hticker]
      exact Nat.le_refl _
    · obtain rfl := Option.some.inj hx
      exact ⟨Nat.zero_le _, fun msg hmsg => (by cases hmsg)⟩
  | @offered entries k entry hticker hentry heq hev =>
    rw [heq, hev]
    have hle : ∀ i ∈ commandIndices p.rf.me tr, i ≤ p.rf.lastApplied + k := by
      intro i hi
      have hle := h.le_position i hi
      rwa [Raft.position, hticker] at hle
    refine ⟨h.decreasing, hle, fun x hx => ?_, h.installing⟩
    obtain rfl := Option.some.inj hx
    refine ⟨(List.getElem?_eq_some_iff.mp hentry).1, fun msg hmsg => ?_⟩
    obtain rfl := Option.some.inj hmsg
    refine ⟨rfl, fun i hi => ?_, ?_⟩
    · show i < p.rf.lastApplied + 1 + k
      have := hle i hi
      omega
    · show p.rf.lastApplied + 1 + k ≤ p.rf.lastApplied + k + 1
      omega
  | @sent entries k msg hticker heq hev =>
    rw [heq, hev]
    obtain ⟨hbuilt, hoffer⟩ := h.batch ⟨entries, k, some msg⟩ (by rw [hticker]; rfl)
    obtain ⟨hvalid, hlt, hle⟩ := hoffer msg rfl
    have hindices : commandIndices p.rf.me (.applied p.rf.me msg :: tr) =
        msg.commandIndex :: commandIndices p.rf.me tr := commandIndices_command hvalid
    have hold : ∀ i ∈ commandIndices p.rf.me tr, i ≤ p.rf.lastApplied + k := by
      intro i hi
      have hle := h.le_position i hi
      rwa [Raft.position, hticker] at hle
    refine ⟨?_, fun i hi => ?_, fun x hx => ?_, h.installing⟩
    · rw [List.singleton_append, hindices, List.pairwise_cons]
      exact ⟨hlt, h.decreasing⟩
    · show i ≤ p.rf.lastApplied + (k + 1)
      rw [List.singleton_append, hindices] at hi
      rcases List.mem_cons.mp hi with rfl | hi
      · exact hle
      · have := hold i hi
        omega
    · obtain rfl := Option.some.inj hx
      exact ⟨hbuilt, fun msg hmsg => (by cases hmsg)⟩
  | @batchDone entries k _ hticker _ heq hev =>
    rw [heq, hev]
    obtain ⟨hbuilt, -⟩ := h.batch ⟨entries, k, none⟩ (by rw [hticker]; rfl)
    refine ⟨h.decreasing, fun i hi => ?_, fun x hx => (by cases hx), h.installing⟩
    have hle := h.le_position i hi
    rw [Raft.position, hticker] at hle
    exact hle.trans (Nat.add_le_add_left hbuilt _)
  | installDone hblocked heq hev =>
    rw [heq, hev]
    exact h.mono (commandIndices_snapshot (h.installing _ _ hblocked)) (Nat.le_refl _) rfl
      (fun msg reply hx => (by cases hx))
  | @installed _ _ args _ _ _ _ _ hlast hprogress hinst _ _ _ hev =>
    rw [hev]
    refine h.mono rfl (hlast ▸ Nat.le_max_left _ _) hprogress fun msg reply hx => ?_
    obtain ⟨reply', hinst⟩ := hinst
    rw [hinst] at hx
    obtain ⟨rfl, -⟩ := Prod.mk.inj (Option.some.inj hx)
    rfl

end Numbered

/-- What never decreases within an incarnation. -/
theorem ApplyStep.mono {p : Peer n α} {c : Cause n α} {e : Effect n α} (h : ApplyStep p c e) :
    e.peer.incarnation = p.incarnation + 1 ∨
      (e.peer.incarnation = p.incarnation ∧ p.rf.log.base ≤ e.peer.rf.log.base ∧
        p.rf.commitIndex ≤ e.peer.rf.commitIndex ∧ p.rf.lastApplied ≤ e.peer.rf.lastApplied) := by
  cases h with
  | restarted _ _ _ _ hinc => exact Or.inl hinc
  | quiet hlast _ _ hbase hcommit hinc =>
    exact Or.inr ⟨hinc, Nat.le_of_eq hbase.symm, hcommit, Nat.le_of_eq hlast.symm⟩
  | compacted _ _ hle hlast _ _ hbase hcommit hinc =>
    exact Or.inr ⟨hinc, hbase ▸ hle, Nat.le_of_eq hcommit.symm, Nat.le_of_eq hlast.symm⟩
  | batchDone _ _ _ heq =>
    rw [heq]
    exact Or.inr ⟨rfl, Nat.le_refl _, Nat.le_refl _, Nat.le_add_right _ _⟩
  | installed _ _ _ _ hindex hlast _ _ hbase hcommit hinc =>
    exact Or.inr ⟨hinc, hbase ▸ Nat.le_of_lt hindex, hcommit ▸ Nat.le_max_left _ _,
      hlast ▸ Nat.le_max_left _ _⟩
  | collected _ _ _ heq | offered _ _ heq | sent _ heq | installDone _ heq =>
    rw [heq]
    exact Or.inr ⟨rfl, Nat.le_refl _, Nat.le_refl _, Nat.le_refl _⟩

/-! ## The base stays behind -/

/-- The base is not ahead of the position, and a batch consists of records that stood above the base
of the log it was collected from. -/
structure AboveBase (q : Fin n) (peer : Peer n α) (tr : List (Event n α)) : Prop where
  base_le : peer.rf.log.base ≤ peer.rf.position
  batch : ∀ x, peer.rf.ticker.progress = some x → ∃ log, lastCollected q tr = some log ∧
    ∀ (j : ℕ) (r : LogRecord α), x.entries[j]? = some r → ∃ k, log.base < k ∧ log.get k = some r

namespace AboveBase

variable {q : Fin n} {p p' : Peer n α} {tr tr' : List (Event n α)}

/-- Without a batch only the numbers matter. -/
theorem idle (hbase : p.rf.log.base ≤ p.rf.lastApplied) (hprogress : p.rf.ticker.progress = none) :
    AboveBase q p tr := by
  refine ⟨hbase.trans (Nat.le_add_right _ _), fun x hx => ?_⟩
  rw [hprogress] at hx
  cases hx

theorem congr (h : AboveBase q p tr) (hcollected : lastCollected q tr' = lastCollected q tr)
    (hprogress : p'.rf.ticker.progress = p.rf.ticker.progress)
    (hbase : p'.rf.log.base ≤ p'.rf.position) : AboveBase q p' tr' := by
  refine ⟨hbase, fun x hx => ?_⟩
  rw [hcollected]
  exact h.batch x (hprogress ▸ hx)

/-- Between batches the base is at most what is applied. -/
theorem base_le_lastApplied (h : AboveBase q p tr) (hprogress : p.rf.ticker.progress = none) :
    p.rf.log.base ≤ p.rf.lastApplied := by
  have hbase := h.base_le
  rwa [Raft.position, hprogress] at hbase

/-- One step of the peer. -/
theorem step {c : Cause n α} {e : Effect n α} (h : AboveBase q p tr) (hnum : Numbered q p tr)
    (hme : p.rf.me = q)
    (hservice : ∀ index data, c = .own (.snapshot index data) → index ∈ commandIndices q tr)
    (hstep : ApplyStep p c e) : AboveBase q e.peer (e.events ++ tr) := by
  subst hme
  have hbase := h.base_le
  cases hstep with
  | restarted hlast _ hprogress => exact idle (Nat.le_of_eq hlast.symm) hprogress
  | quiet hlast hprogress _ hsame _ _ hev =>
    refine h.congr (lastCollected_of_quiet hev) hprogress ?_
    rw [hsame, Raft.position, hlast, hprogress]
    exact hbase
  | compacted hcause _ _ hlast hprogress _ hnew _ _ hev =>
    refine h.congr (lastCollected_of_quiet hev) hprogress ?_
    rw [hnew, Raft.position, hlast, hprogress]
    exact hnum.le_position _ (hservice _ _ hcause)
  | @collected entries _ hticker hentries heq hev =>
    -- the batch is read from `lastApplied + 1` on, which is above the base
    have hle := h.base_le_lastApplied (by rw [hticker]; rfl)
    rw [heq, hev]
    refine ⟨hle.trans (Nat.le_add_right _ _), fun x hx => ⟨p.rf.log, if_pos rfl, fun j r hr => ?_⟩⟩
    obtain rfl := Option.some.inj hx
    exact ⟨_, by omega, (Raft.collect_spec _ hentries).2 j r hr⟩
  | @offered entries k entry hticker _ heq hev =>
    have hbatch := h.batch ⟨entries, k, none⟩ (by rw [hticker]; rfl)
    rw [Raft.position, hticker] at hbase
    rw [heq, hev]
    refine ⟨hbase, fun x hx => ?_⟩
    obtain rfl := Option.some.inj hx
    exact hbatch
  | @sent entries k msg hticker heq hev =>
    have hbatch := h.batch ⟨entries, k, some msg⟩ (by rw [hticker]; rfl)
    rw [Raft.position, hticker] at hbase
    rw [heq, hev]
    refine ⟨hbase.trans (Nat.add_le_add_left (Nat.le_succ k) _), fun x hx => ?_⟩
    obtain rfl := Option.some.inj hx
    exact hbatch
  | @batchDone entries k _ hticker _ heq hev =>
    obtain ⟨hbuilt, -⟩ := hnum.batch ⟨entries, k, none⟩ (by rw [hticker]; rfl)
    rw [Raft.position, hticker] at hbase
    rw [heq, hev]
    exact idle (hbase.trans (Nat.add_le_add_left hbuilt _)) rfl
  | installDone _ heq hev =>
    rw [heq, hev]
    exact h.congr rfl rfl hbase
  | installed _ _ _ _ _ hlast hprogress _ hnew _ _ hev =>
    rw [hev]
    refine h.congr rfl hprogress ?_
    rw [hnew, Raft.position, hlast]
    exact (Nat.le_max_right _ _).trans (Nat.le_add_right _ _)

end AboveBase

variable [RaftGob α]

namespace System

variable {s u : System n α}

/-- Within an incarnation the numbers on `applyCh` strictly increase. -/
theorem Reachable.numbered (h : s.Reachable) (p : Fin n) : Numbered p (s.peers p) s.trace := by
  refine own_invariant (fun p => .fresh rfl rfl rfl) ?_ ?_ h p
  · intro p peer x tr hx hI
    exact hI.mono (commandIndices_of_ne hx) (Nat.le_refl _) rfl hI.installing
  · intro s a p c e hrun _ _ hdoes hI
    have hs := Reachable.of_reach hrun
    exact hI.step (hs.me p) (hdoes.applyStep (hs.saved p))

omit [RaftGob α] in
/-- The peer whose service calls `Snapshot` in a step, and the index of the call. -/
def snapshotCall? : Action n α → Option (Fin n × ℕ)
  | .act q (.snapshot index _) => some (q, index)
  | _ => none

omit [RaftGob α] in
/-- The service of `p` compacts only at indices it has received as a `CommandIndex`. -/
def CompactsReceived (p : Fin n) (s : System n α) (a : Action n α) : Prop :=
  ∀ x ∈ snapshotCall? a, x.1 = p → x.2 ∈ commandIndices p s.trace

instance (p : Fin n) (s : System n α) (a : Action n α) : Decidable (s.CompactsReceived p a) :=
  inferInstanceAs (Decidable (∀ x ∈ snapshotCall? a, x.1 = p → x.2 ∈ commandIndices p s.trace))

theorem aboveBase {p : Fin n} (h : Reach System.step (CompactsReceived p) init s) :
    AboveBase p (s.peers p) s.trace := by
  refine own_invariant (I := fun q peer tr => q = p → AboveBase q peer tr)
    (fun q _ => .idle (Nat.le_refl _) rfl) ?_ ?_ h p rfl
  · intro q peer x tr hx hI hq
    exact (hI hq).congr (lastCollected_of_ne hx) rfl (hI hq).base_le
  · intro s a q c e hrun hok htarget hdoes hI hq
    subst hq
    have hs := Reachable.of_reach hrun
    refine (hI rfl).step (hs.numbered q) (hs.me q) ?_ (hdoes.applyStep (hs.saved q))
    rintro index data rfl
    rw [act_of_target htarget] at hok
    exact hok (q, index) rfl rfl

/-- Within an incarnation `log.Base`, `commitIndex` and `lastApplied` do not decrease. -/
theorem mono_of_incarnation {p : Fin n} (hs : s.Reachable)
    (hrun : Reach System.step (fun _ _ => True) s u) :
    (s.peers p).incarnation ≤ (u.peers p).incarnation ∧
      ((u.peers p).incarnation = (s.peers p).incarnation →
        (s.peers p).rf.log.base ≤ (u.peers p).rf.log.base ∧
        (s.peers p).rf.commitIndex ≤ (u.peers p).rf.commitIndex ∧
        (s.peers p).rf.lastApplied ≤ (u.peers p).rf.lastApplied) := by
  refine hrun.relation (I := Reachable) (R := fun s u =>
    (s.peers p).incarnation ≤ (u.peers p).incarnation ∧
      ((u.peers p).incarnation = (s.peers p).incarnation →
        (s.peers p).rf.log.base ≤ (u.peers p).rf.log.base ∧
        (s.peers p).rf.commitIndex ≤ (u.peers p).rf.commitIndex ∧
        (s.peers p).rf.lastApplied ≤ (u.peers p).rf.lastApplied)) ?_ ?_ ?_ hs
  · intro s
    exact ⟨Nat.le_refl _, fun _ => ⟨Nat.le_refl _, Nat.le_refl _, Nat.le_refl _⟩⟩
  · rintro s t u ⟨hle, hst⟩ ⟨hle', htu⟩
    refine ⟨hle.trans hle', fun heq => ?_⟩
    obtain ⟨hb, hc, hl⟩ := hst (by omega)
    obtain ⟨hb', hc', hl'⟩ := htu (by omega)
    exact ⟨hb.trans hb', hc.trans hc', hl.trans hl'⟩
  · intro s a t hs _ hstep
    refine ⟨hs.next hstep, ?_⟩
    obtain ⟨q, c, e, -, hdoes, rfl⟩ := step_cases hstep
    by_cases hq : p = q
    · subst hq
      rw [install_peers_self]
      rcases (hdoes.applyStep (hs.saved p)).mono with hinc | ⟨hinc, hmono⟩
      · exact ⟨by omega, fun heq => (by omega)⟩
      · exact ⟨Nat.le_of_eq hinc.symm, fun _ => hmono⟩
    · rw [install_peers_ne _ _ _ _ hq]
      exact ⟨Nat.le_refl _, fun _ => ⟨Nat.le_refl _, Nat.le_refl _, Nat.le_refl _⟩⟩

/-- A run in which the service of `p` compacts only at indices it has received as a `CommandIndex`.
Within an incarnation `log.Base`, `commitIndex` and `lastApplied` do not decrease, and the base is
at most `commitIndex`. When `applicationTicker` is about to collect, the base is at most
`lastApplied`, so every index it reads is above the base; the records it sends stood above the base
of the log they were collected from. -/
theorem applier_above_base {p : Fin n} (hs : Reach System.step (CompactsReceived p) init s)
    (hrun : Reach System.step (CompactsReceived p) s u) :
    ((u.peers p).incarnation = (s.peers p).incarnation →
        (s.peers p).rf.log.base ≤ (u.peers p).rf.log.base ∧
        (s.peers p).rf.commitIndex ≤ (u.peers p).rf.commitIndex ∧
        (s.peers p).rf.lastApplied ≤ (u.peers p).rf.lastApplied) ∧
      (u.peers p).rf.log.base ≤ (u.peers p).rf.commitIndex ∧
      ((u.peers p).rf.ticker = .woken →
        (u.peers p).rf.log.base ≤ (u.peers p).rf.lastApplied ∧
        ∀ k, (u.peers p).rf.lastApplied < k → k ≤ (u.peers p).rf.commitIndex →
          (u.peers p).rf.log.base < k) ∧
      ∀ x, (u.peers p).rf.ticker.progress = some x → ∃ log, lastCollected p u.trace = some log ∧
        ∀ (j : ℕ) (r : LogRecord α), x.entries[j]? = some r →
          ∃ k, log.base < k ∧ log.get k = some r := by
  have hreach := Reachable.of_reach hs
  have hu := aboveBase (hs.trans hrun)
  refine ⟨(mono_of_incarnation hreach (hrun.mono fun _ _ _ => trivial)).2,
    (Reachable.of_reach (hs.trans hrun)).base_le_commitIndex p, fun hticker => ?_, hu.batch⟩
  have hbase := hu.base_le_lastApplied (by rw [hticker]; rfl)
  exact ⟨hbase, fun k hk _ => Nat.lt_of_le_of_lt hbase hk⟩

/-- Two commands are committed at a leader; the service compacts at the first one while the second
is still to be sent. -/
def compactMidBatch : List (Action 3 ℕ) :=
  [.act 0 .tickerStep, .act 0 .electionTimeout, .act 0 (.startElection 0), .deliver 0, .deliver 1,
    .act 0 (.start 7), .act 0 (.start 8), .act 0 (.replicationTick 0), .deliver 1, .deliver 2,
    .act 0 .tickerStep, .act 0 .tickerStep, .act 0 .tickerStep, .act 0 (.snapshot 1 (some [1]))]

/-- The batch is finished and a third command is committed. -/
def nextBatch : List (Action 3 ℕ) :=
  [.act 0 .tickerStep, .act 0 .tickerStep, .act 0 .tickerStep, .act 0 .tickerStep,
    .act 0 (.start 9), .act 0 (.replicationTick 0), .deliver 2, .deliver 3]

/-- The base is ahead of `lastApplied` in the middle of the batch, and behind it again when the next
one is collected. -/
theorem applier_above_base_mid_batch : ∃ s u : System 3 ℕ,
    (s.peers 0).rf.lastApplied < (s.peers 0).rf.log.base ∧ (u.peers 0).rf.ticker = .woken ∧
    (u.peers 0).rf.log.base ≤ (u.peers 0).rf.lastApplied ∧
    (u.peers 0).rf.log.base ≤ (u.peers 0).rf.commitIndex := by
  have hrun : ∃ s : System 3 ℕ, Reach System.step (CompactsReceived 0) init s ∧
      ((s.peers 0).rf.lastApplied < (s.peers 0).rf.log.base ∧
        (exec System.step (CompactsReceived 0) nextBatch s).any (fun u =>
          decide ((u.peers 0).rf.ticker = .woken)) = true) :=
    Reach.exists_of_exec compactMidBatch (by decide +kernel)
  obtain ⟨s, hs, hahead, hrest⟩ := hrun
  obtain ⟨u, hu, hwoken⟩ := Reach.exists_of_exec _ hrest
  obtain ⟨-, hcommit, hcollect, -⟩ := applier_above_base hs hu
  exact ⟨s, u, hahead, hwoken, (hcollect hwoken).1, hcommit⟩

end System

end LogicRaft
