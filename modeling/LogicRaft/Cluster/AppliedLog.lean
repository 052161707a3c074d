import LogicRaft.Cluster.ApplyStream
import LogicRaft.Cluster.LogSteps
import LogicRaft.Cluster.Safety
import LogicRaft.Common.GrowingLists

/-!
# The one sequence that is applied

`appliedLog` reads off the trace what the services of the cluster have been handed: the first peer
that hands over index `i` adds the record it had collected for it. In runs that do not break the
logs and in which snapshots come in turn (`Orderly`) and requests are sent as they were built, this
is one sequence for all: whatever any peer hands over as command `i` is entry `i` of it, and no
snapshot reaches beyond its end (`applied_sequence`). Every entry is a command that some leader took
from its service, at that index and in the term of the entry, and no index is given twice in one
term.

The leaders' logs behind a run are used in the proofs only: what the services need to know is said
here in terms of `appliedLog`, the accepted commands in the trace, and the state of a peer.
-/

namespace LogicRaft

variable {n : ℕ} {α : Type}

/-- The records handed over as commands so far, by index. -/
def appliedLog : List (Event n α) → List (LogRecord α)
  | [] => []
  | .applied p msg :: tr =>
    if msg.commandValid = true ∧ msg.commandIndex = (appliedLog tr).length + 1 then
      appliedLog tr ++ ((lastCollected p tr).bind fun log => log.get msg.commandIndex).toList
    else appliedLog tr
  | _ :: tr => appliedLog tr

/-- The indices that leaders have given to commands of their services, each with its term. -/
def givenIndices (tr : List (Event n α)) : List (ℕ × ℕ) :=
  tr.filterMap fun x => match x with
    | .accepted _ index term _ => some (index, term)
    | _ => none

/-- Some peer has accepted the command of record `r` from its service, in the term of the record and
at index `i`. -/
def AcceptedAt (tr : List (Event n α)) (i : ℕ) (r : LogRecord α) : Prop :=
  ∃ q command, .accepted q i r.term command ∈ tr ∧ r.command = some command

theorem AcceptedAt.mono {tr tr' : List (Event n α)} {i : ℕ} {r : LogRecord α}
    (h : AcceptedAt tr i r) (hsub : tr ⊆ tr') : AcceptedAt tr' i r := by
  obtain ⟨q, command, hmem, hcommand⟩ := h
  exact ⟨q, command, hsub hmem, hcommand⟩

section Sequence

variable {tr : List (Event n α)} {p : Fin n} {msg : ApplyMsg α}

theorem appliedLog_of_next {log : Log α} {r : LogRecord α} (hvalid : msg.commandValid = true)
    (hindex : msg.commandIndex = (appliedLog tr).length + 1) (hlog : lastCollected p tr = some log)
    (hget : log.get msg.commandIndex = some r) :
    appliedLog (.applied p msg :: tr) = appliedLog tr ++ [r] := by
  rw [appliedLog, if_pos ⟨hvalid, hindex⟩, hlog, Option.bind_some, hget, Option.toList_some]

theorem appliedLog_of_known (hindex : msg.commandIndex ≤ (appliedLog tr).length) :
    appliedLog (.applied p msg :: tr) = appliedLog tr := by
  rw [appliedLog, if_neg (by omega)]

theorem appliedLog_of_invalid (hvalid : msg.commandValid = false) :
    appliedLog (.applied p msg :: tr) = appliedLog tr := by
  rw [appliedLog, if_neg (by simp [hvalid])]

/-- The sequence only grows. -/
theorem appliedLog_grows (ev tr : List (Event n α)) : appliedLog tr <+: appliedLog (ev ++ tr) := by
  induction ev with
  | nil => exact List.prefix_rfl
  | cons x ev ih =>
    refine ih.trans ?_
    cases x with
    | applied q msg =>
      rw [List.cons_append, appliedLog]
      split
      · exact List.prefix_append _ _
      · exact List.prefix_rfl
    | _ => exact List.prefix_rfl

theorem appliedLog_get (ev : List (Event n α)) {k : ℕ} {r : LogRecord α}
    (h : (appliedLog tr)[k]? = some r) : (appliedLog (ev ++ tr))[k]? = some r :=
  getElem?_of_grown (appliedLog_grows ev tr) h

theorem appliedLog_of_others {ev : List (Event n α)} (h : ∀ q msg, .applied q msg ∉ ev) :
    appliedLog (ev ++ tr) = appliedLog tr := by
  induction ev with
  | nil => rfl
  | cons x ev ih =>
    have hrest := ih fun q msg hmem => h q msg (List.mem_cons_of_mem _ hmem)
    cases x with
    | applied q msg => exact absurd (List.mem_cons_self ..) (h q msg)
    | _ => exact hrest

end Sequence

/-- What other peers report does not matter to a service. -/
theorem lastHanded_of_others {q : Fin n} {ev tr : List (Event n α)} (h : ∀ x ∈ ev, x.peer ≠ q) :
    lastHanded q (ev ++ tr) = lastHanded q tr := by
  induction ev with
  | nil => rfl
  | cons x ev ih =>
    rw [List.cons_append, lastHanded_of_ne (h x (List.mem_cons_self ..))]
    exact ih fun y hy => h y (List.mem_cons_of_mem _ hy)

/-! ## Records come from services -/

/-- Only `Start` accepts a command, at a leader and at the end of its log. -/
theorem Does.accepted_spec [RaftGob α] {p : Peer n α} {c : Cause n α} {e : Effect n α}
    (h : Does p c e) {q : Fin n} {index term : ℕ} {command : α}
    (hx : .accepted q index term command ∈ e.events) :
    c = .own (.start command) ∧ p.muFree ∧ p.rf.role = .leader ∧ index = p.rf.log.size ∧
      term = p.rf.currentTerm ∧ e.events = [.accepted q index term command] := by
  cases h with
  | accepted hfree hrole =>
    obtain ⟨rfl, rfl, rfl, rfl⟩ := Event.accepted.inj (List.mem_singleton.mp hx)
    exact ⟨rfl, hfree, hrole, rfl, rfl, rfl⟩
  | _ => simp [Peer.crash] at hx

namespace System

variable [RaftGob α] {s : System n α} {a : Action n α} {p : Fin n} {c : Cause n α} {e : Effect n α}

/-- Every record above a base and every entry in flight was accepted at its index. -/
structure AllAccepted (s : System n α) : Prop where
  logs : ∀ p k r, (s.peers p).rf.log.base < k → (s.peers p).rf.log.get k = some r →
    AcceptedAt s.trace k r
  requests : ∀ m ∈ s.net, ∀ term args, m.payload = .appendRequest term args →
    ∀ j r, args.entries[j]? = some r → AcceptedAt s.trace (args.prevLogIndex + 1 + j) r

/-- The log of the peer that takes the step. -/
theorem AllAccepted.log_step (h : s.AllAccepted) (hs : s.Reachable)
    (htarget : s.target a = some (p, c)) (hdoes : Does (s.peers p) c e) {k : ℕ} {r : LogRecord α}
    (hk : e.peer.rf.log.base < k) (hget : e.peer.rf.log.get k = some r) :
    AcceptedAt (e.events ++ s.trace) k r := by
  have hold : ∀ {k r}, (s.peers p).rf.log.base < k → (s.peers p).rf.log.get k = some r →
      AcceptedAt (e.events ++ s.trace) k r :=
    fun hk hget => (h.logs p _ _ hk hget).mono (List.subset_append_right _ _)
  cases hdoes.logStep (hs.saved p) with
  | kept hlog =>
    rw [hlog] at hk hget
    exact hold hk hget
  | @accepted command _ hlog _ _ hev =>
    rw [hlog, Log.base_append] at hk
    rw [hlog, Log.get_append] at hget
    split at hget
    case isTrue heq =>
      obtain rfl := Option.some.inj hget
      rw [hev, heq]
      exact ⟨_, command, List.mem_append_left _ (List.mem_cons_self ..), rfl⟩
    case isFalse => exact hold hk hget
  | @appended call term args prev hcause hcall _ hprev _ hlog =>
    subst hcause
    obtain ⟨hb, hlt⟩ := Log.bounds_of_get hprev
    rw [hlog, Log.base_spliceAfter] at hk
    rw [hlog, Log.get_spliceAfter _ hb hlt] at hget
    split at hget
    case isTrue => exact hold hk hget
    case isFalse hgt =>
      have hentry := h.requests call (mem_of_target htarget).1 term args hcall _ r hget
      rw [show args.prevLogIndex + 1 + (k - (args.prevLogIndex + 1)) = k by omega] at hentry
      exact hentry.mono (List.subset_append_right _ _)
  | @compacted index data last _ hbase _ hlog =>
    rw [hlog, Log.base_fresh] at hk
    rw [hlog, Log.get_fresh_suffixFrom _ _ hbase hk] at hget
    exact hold (by omega) hget
  | @installed call term args _ _ hindex hlog =>
    rw [hlog, Log.base_fresh] at hk
    rw [hlog, Log.get_fresh_suffixFrom _ _ (Nat.le_of_lt hindex) hk] at hget
    exact hold (by omega) hget

theorem Reachable.allAccepted (h : s.Reachable) : s.AllAccepted := by
  refine invariant ⟨fun p k r hk hget => ?_, fun m hm => by cases hm⟩ ?_ h
  · obtain ⟨-, hlt⟩ := Log.bounds_of_get hget
    exact absurd hlt (Nat.not_lt.mpr hk)
  · intro s a p c e hs _ htarget hdoes hI
    refine ⟨forall_install (I := fun q x => ∀ k r, x.rf.log.base < k → x.rf.log.get k = some r →
      AcceptedAt (e.events ++ s.trace) k r) ?_ ?_, fun m hm term args hpay j r hr => ?_⟩
    · intro k r hk hget
      exact hI.log_step hs htarget hdoes hk hget
    · intro q _ k r hk hget
      exact (hI.logs q k r hk hget).mono (List.subset_append_right _ _)
    · rcases List.mem_append.mp hm with hold | hnew
      · exact (hI.requests m (mem_of_mem_inFlight hold) term args hpay j r hr).mono
          (List.subset_append_right _ _)
      · -- a new request carries the end of the sender's log
        obtain ⟨-, -, -, -, ⟨q, request⟩, -, hrequest, rfl⟩ :=
          hdoes.round_of_mem (hs.installOk p) hnew (by rw [hpay]; rfl)
        cases request with
        | snapshot args' => cases hpay
        | append args' =>
          obtain ⟨-, rfl⟩ := Payload.appendRequest.inj hpay
          obtain ⟨hbase, -, hentries⟩ := Raft.replicationRequest_entries hrequest
          have hget := hentries (args'.prevLogIndex + 1 + j) (by omega)
          rw [Nat.add_sub_cancel_left, hr] at hget
          exact (hI.logs p _ r (by omega) hget.symm).mono (List.subset_append_right _ _)

end System

/-! ## Runs in order -/

namespace System

/-- The step breaks no log, installs no snapshot out of turn, and the service compacts only what it
was handed. -/
def Orderly (s : System n α) (a : Action n α) : Prop := s.LogSafe a ∧ s.Calm a

instance (s : System n α) (a : Action n α) : Decidable (s.Orderly a) :=
  inferInstanceAs (Decidable (_ ∧ _))

variable {s : System n α} {a : Action n α} {p : Fin n}

/-- A snapshot in turn does not meet a batch that it could shift. -/
theorem Orderly.safe (h : s.Orderly a) : s.Safe a := by
  refine ⟨h.1.1, h.1.2, ?_⟩
  have hturn := h.2.1
  unfold InTurn at hturn
  unfold delivers at hturn ⊢
  split at hturn
  case h_1 q m _ =>
    unfold Peer.shiftsBatch
    split
    case h_1 term args x hpay hprogress =>
      rw [decide_eq_false_iff_not]
      rintro ⟨hterm, hindex, -⟩
      rw [(Peer.of_inTurn hturn hpay hterm hindex).1] at hprogress
      cases hprogress
    case h_2 => rfl
  case h_2 => rfl

variable [RaftGob α]

section Facts

variable (h : Reach System.step Orderly init s)

include h

theorem Orderly.streaming (p : Fin n) : Streaming p (s.peers p) s.trace :=
  System.streaming (h.mono fun _ _ hok => hok.2) p

theorem Orderly.bounded (p : Fin n) : Bounded p (s.peers p) s.trace :=
  System.bounded (h.mono fun _ _ hok => hok.2.1) p

/-- While no snapshot is being handed over, nothing beyond the commit index has been. -/
theorem Orderly.lastHanded_le (hfree : (s.peers p).muFree) :
    lastHanded p s.trace ≤ (s.peers p).rf.commitIndex := by
  have hstream := Orderly.streaming h p
  have hbound := Orderly.bounded h p
  rw [hstream.position hfree, Raft.position]
  cases hprogress : (s.peers p).rf.ticker.progress with
  | none => exact hstream.applied_le
  | some x =>
    have hlen := (hstream.batch x hprogress).1
    have hbuilt := (hbound.batch x hprogress).1
    have hsent : x.sent ≤ x.built := by
      unfold Progress.built
      split <;> omega
    show (s.peers p).rf.lastApplied + x.sent ≤ _
    omega

end Facts

/-- What the events of a step add to the sequence: nothing, or it hands over the command that is
being sent. -/
theorem appliedLog_step {c : Cause n α} {e : Effect n α} (hs : s.Reachable)
    (hdoes : Does (s.peers p) c e) :
    appliedLog (e.events ++ s.trace) = appliedLog s.trace ∨
      ∃ entries i msg, (s.peers p).rf.ticker = .offering entries i msg ∧
        e.events = [.applied p msg] := by
  by_cases hmem : ∃ q msg, .applied q msg ∈ e.events
  · obtain ⟨q, msg, hmem⟩ := hmem
    obtain rfl : q = p := (hdoes.peer_of_mem hmem).trans (hs.me p)
    obtain ⟨hev, ⟨entries, i, hticker⟩ | ⟨reply, hinst⟩⟩ := hdoes.applied hmem
    · exact Or.inr ⟨entries, i, msg, hticker, hev⟩
    · obtain ⟨term, args, r, rfl, -⟩ := hs.installOk q msg reply hinst
      left
      rw [hev]
      exact appliedLog_of_invalid rfl
  · left
    exact appliedLog_of_others fun q msg hq => hmem ⟨q, msg, hq⟩

/-- The command that is being sent comes next at its peer; it is the record that was collected. -/
theorem offering_spec (h : Reach System.step Orderly init s) {entries : List (LogRecord α)} {i : ℕ}
    {msg : ApplyMsg α} (hticker : (s.peers p).rf.ticker = .offering entries i msg) :
    ∃ log r, entries[i]? = some r ∧ lastCollected p s.trace = some log ∧
      log.get msg.commandIndex = some r ∧ r.command = msg.command ∧ msg.commandValid = true ∧
      msg.commandIndex = lastHanded p s.trace + 1 ∧
      msg.commandIndex = (s.peers p).rf.lastApplied + 1 + i := by
  have hprogress : (s.peers p).rf.ticker.progress = some ⟨entries, i, some msg⟩ := by
    rw [hticker]
    rfl
  obtain ⟨entry, hentry, hmsg⟩ := ((Orderly.bounded h p).batch _ hprogress).2 msg rfl
  obtain ⟨-, log, hlog, hget⟩ := (Orderly.streaming h p).batch _ hprogress
  obtain ⟨-, hnext⟩ := next_of_offering (Orderly.bounded h p) (Orderly.streaming h p) hticker
  obtain ⟨hvalid, hentry'⟩ := hget i entry hentry
  have hindex : msg.commandIndex = (s.peers p).rf.lastApplied + 1 + i := by
    rw [hmsg]
    rfl
  refine ⟨log, entry, hentry, hlog, ?_, ?_, ?_, hnext, hindex⟩
  · rw [hindex]
    exact hentry'
  · rw [hmsg]
    rfl
  · rw [hmsg]
    exact hvalid

/-- A service is never ahead of its peer. -/
theorem Orderly.lastHanded_le_position (h : Reach System.step Orderly init s) (p : Fin n) :
    lastHanded p s.trace ≤ (s.peers p).rf.position := by
  refine own_invariant (I := fun p peer tr => lastHanded p tr ≤ peer.rf.position)
    (fun p => Nat.le_refl 0) ?_ ?_ h p
  · intro p peer x tr hx hI
    rwa [lastHanded_of_ne hx]
  · intro s a p c e h hok htarget hdoes hI
    have hs := Reachable.of_reach h
    have hbound := Orderly.bounded h p
    cases hdoes.applyStep (hs.saved p) with
    | restarted hlast _ hprogress _ _ hev =>
      rw [hev, hs.me p, List.singleton_append, lastHanded_restarted, Raft.position,
        hprogress, hlast]
      exact Nat.le_refl _
    | quiet hlast hprogress _ _ _ _ hev | compacted _ _ _ hlast hprogress _ _ _ _ hev =>
      rw [lastHanded_of_quiet hev, Raft.position, hlast, hprogress]
      exact hI
    | collected _ hticker _ heq hev =>
      rw [Raft.position, hticker] at hI
      rw [hev, heq]
      exact hI
    | offered hticker _ heq hev =>
      rw [Raft.position, hticker] at hI
      rw [hev, heq]
      exact hI
    | @sent entries i msg hticker heq hev =>
      obtain ⟨-, -, -, -, -, -, hvalid, -, hindex⟩ := offering_spec h hticker
      have hnext : msg.index? = some msg.commandIndex := if_pos hvalid
      rw [hev, hs.me p, List.singleton_append, lastHanded_applied hnext, heq, hindex]
      show _ ≤ (s.peers p).rf.lastApplied + (i + 1)
      omega
    | @batchDone entries i _ hticker hdone heq hev =>
      obtain ⟨hbuilt, -⟩ := hbound.batch ⟨entries, i, none⟩ (by rw [hticker]; rfl)
      rw [Raft.position, hticker] at hI
      rw [hev, heq]
      exact hI.trans (Nat.add_le_add_left hbuilt _)
    | @installDone msg reply hblocked heq hev =>
      obtain ⟨hprogress, hindex⟩ := hbound.installing msg reply hblocked
      rw [hev, hs.me p, List.singleton_append, lastHanded_applied hindex, heq]
      exact Nat.le_add_right _ _
    | installed _ _ _ _ _ hlast hprogress _ _ _ _ hev =>
      rw [hev, Raft.position, hlast, hprogress]
      exact hI.trans (Nat.add_le_add_right (Nat.le_max_left _ _) _)

/-- Within an incarnation a service is never handed anything from behind. -/
theorem Orderly.lastHanded_mono (h : Reach System.step Orderly init s) {c : Cause n α}
    {e : Effect n α} (hdoes : Does (s.peers p) c e)
    (hinc : e.peer.incarnation = (s.peers p).incarnation) :
    lastHanded p s.trace ≤ lastHanded p (e.events ++ s.trace) := by
  have hs := Reachable.of_reach h
  cases hdoes.applyStep (hs.saved p) with
  | restarted _ _ _ _ hnew => omega
  | quiet _ _ _ _ _ _ hev | compacted _ _ _ _ _ _ _ _ _ hev => rw [lastHanded_of_quiet hev]
  | collected _ _ _ _ hev =>
    rw [hev]
    exact Nat.le_refl _
  | offered _ _ _ hev | batchDone _ _ _ _ hev | installed _ _ _ _ _ _ _ _ _ _ _ hev =>
    rw [hev]
    exact Nat.le_refl _
  | @sent entries i msg hticker _ hev =>
    obtain ⟨-, -, -, -, -, -, hvalid, hnext, -⟩ := offering_spec h hticker
    have hindex : msg.index? = some msg.commandIndex := if_pos hvalid
    rw [hev, hs.me p, List.singleton_append, lastHanded_applied hindex]
    omega
  | @installDone msg reply hblocked _ hev =>
    obtain ⟨hprogress, hindex⟩ := (Orderly.bounded h p).installing msg reply hblocked
    have hposition := Orderly.lastHanded_le_position h p
    rw [Raft.position, hprogress] at hposition
    rw [hev, hs.me p, List.singleton_append, lastHanded_applied hindex]
    exact hposition

/-! ## Nothing reaches beyond the sequence -/

/-- Services, bases and snapshots on their way stand at positions of the sequence. -/
structure Within (s : System n α) : Prop where
  handed : ∀ p, lastHanded p s.trace ≤ (appliedLog s.trace).length
  bases : ∀ p, (s.peers p).rf.log.base ≤ (appliedLog s.trace).length
  requests : ∀ m ∈ s.net, ∀ term args, m.payload = .snapshotRequest term args →
    args.lastIncludedIndex ≤ (appliedLog s.trace).length
  installing : ∀ p msg reply, (s.peers p).installing = some (msg, reply) →
    msg.snapshotIndex ≤ (appliedLog s.trace).length

section Step

variable {c : Cause n α} {e : Effect n α} (h : Reach System.step Orderly init s)
  (hdoes : Does (s.peers p) c e)

include h hdoes

/-- The service of the peer that takes the step. -/
theorem Within.handed_step (hw : s.Within)
    (hbase : e.peer.rf.log.base ≤ (appliedLog (e.events ++ s.trace)).length) :
    lastHanded p (e.events ++ s.trace) ≤ (appliedLog (e.events ++ s.trace)).length := by
  have hs := Reachable.of_reach h
  have hlen := (appliedLog_grows e.events s.trace).length_le
  have hold := hw.handed p
  cases hdoes.applyStep (hs.saved p) with
  | restarted _ _ _ _ _ hev =>
    rw [hev, hs.me p] at hbase ⊢
    rwa [List.singleton_append, lastHanded_restarted]
  | quiet _ _ _ _ _ _ hev | compacted _ _ _ _ _ _ _ _ _ hev =>
    rw [lastHanded_of_quiet hev]
    omega
  | collected _ _ _ _ hev =>
    rw [hev] at hlen ⊢
    exact hold.trans hlen
  | offered _ _ _ hev | batchDone _ _ _ _ hev | installed _ _ _ _ _ _ _ _ _ _ _ hev =>
    rw [hev]
    exact hold
  | @sent entries i msg hticker _ hev =>
    obtain ⟨log, r, -, hlog, hget, -, hvalid, hnext, -⟩ := offering_spec h hticker
    have hindex : msg.index? = some msg.commandIndex := if_pos hvalid
    rw [hev, hs.me p, List.singleton_append, lastHanded_applied hindex]
    by_cases hnew : msg.commandIndex = (appliedLog s.trace).length + 1
    · rw [appliedLog_of_next hvalid hnew hlog hget, List.length_append, List.length_singleton]
      omega
    · rw [appliedLog_of_known (by omega)]
      omega
  | @installDone msg reply hblocked _ hev =>
    have hle := hw.installing p msg reply hblocked
    obtain ⟨term, args, r, rfl, -⟩ := hs.installOk p msg reply hblocked
    rw [hev, hs.me p, List.singleton_append, lastHanded_applied (Raft.snapshotMsg_index? args),
      appliedLog_of_invalid rfl]
    exact hle

/-- The base of the peer that takes the step. -/
theorem Within.base_step (hw : s.Within) (hok : s.Orderly a) (htarget : s.target a = some (p, c)) :
    e.peer.rf.log.base ≤ (appliedLog (e.events ++ s.trace)).length := by
  have hs := Reachable.of_reach h
  have hlen := (appliedLog_grows e.events s.trace).length_le
  have hold := hw.bases p
  cases hdoes.logStep (hs.saved p) with
  | kept hlog =>
    rw [hlog]
    omega
  | accepted _ hlog =>
    rw [hlog, Log.base_append]
    omega
  | appended _ _ _ _ _ hlog =>
    rw [hlog, Log.base_spliceAfter]
    omega
  | @compacted index data last hcause _ _ hlog =>
    subst hcause
    obtain rfl := act_of_target htarget
    have hhanded : index ≤ lastHanded p s.trace := hok.2.2
    have := hw.handed p
    rw [hlog, Log.base_fresh]
    omega
  | @installed call term args hcause hcall _ hlog =>
    subst hcause
    have := hw.requests call (mem_of_target htarget).1 term args hcall
    rw [hlog, Log.base_fresh]
    omega

/-- A snapshot that the peer hands over after the step. -/
theorem Within.installing_step (hw : s.Within) (htarget : s.target a = some (p, c))
    {msg : ApplyMsg α} {reply : Packet n α} (hinst : e.peer.installing = some (msg, reply)) :
    msg.snapshotIndex ≤ (appliedLog s.trace).length := by
  have hs := Reachable.of_reach h
  cases hdoes.applyStep (hs.saved p) with
  | restarted _ _ _ hnone =>
    rw [hnone] at hinst
    cases hinst
  | quiet _ _ hsame | compacted _ _ _ _ _ hsame =>
    rw [hsame] at hinst
    exact hw.installing p msg reply hinst
  | collected _ _ _ heq | offered _ _ heq | sent _ heq | batchDone _ _ _ heq =>
    rw [heq] at hinst
    exact hw.installing p msg reply hinst
  | installDone _ heq =>
    rw [heq] at hinst
    cases hinst
  | @installed call term args hcause hcall _ _ _ _ _ hmsg =>
    subst hcause
    obtain ⟨reply', hmsg⟩ := hmsg
    obtain ⟨rfl, -⟩ := Prod.mk.inj (Option.some.inj (hinst.symm.trans hmsg))
    exact hw.requests call (mem_of_target htarget).1 term args hcall

end Step

theorem Orderly.within (h : Reach System.step Orderly init s) : s.Within := by
  refine run_invariant ⟨fun _ => Nat.le_refl 0, fun _ => Nat.le_refl 0, ?_, ?_⟩ ?_ h
  · intro m hm
    cases hm
  · intro p msg reply hinst
    cases hinst
  · intro s a p c e h hok htarget hdoes hw
    have hs := Reachable.of_reach h
    have hlen := (appliedLog_grows e.events s.trace).length_le
    have hbase := hw.base_step h hdoes hok htarget
    refine ⟨fun q => ?_, ?_, fun m hm term args hpay => ?_, ?_⟩
    · by_cases hq : q = p
      · subst hq
        exact hw.handed_step h hdoes hbase
      · -- the events are those of `p`
        rw [install_trace, lastHanded_of_others fun x hx heq => hq ?_]
        · exact (hw.handed q).trans hlen
        · rw [← heq, hdoes.peer_of_mem hx, hs.me p]
    · exact forall_install
        (I := fun _ x => x.rf.log.base ≤ (appliedLog (e.events ++ s.trace)).length)
        hbase fun q _ => (hw.bases q).trans hlen
    · rcases List.mem_append.mp hm with hold | hnew
      · exact (hw.requests m (mem_of_mem_inFlight hold) term args hpay).trans hlen
      · obtain ⟨-, -, -, -, ⟨q, request⟩, -, hrequest, rfl⟩ :=
          hdoes.round_of_mem (hs.installOk p) hnew (by rw [hpay]; rfl)
        cases request with
        | append args' => cases hpay
        | snapshot args' =>
          obtain ⟨-, rfl⟩ := Payload.snapshotRequest.inj hpay
          rw [(Raft.replicationRequest_snapshot hrequest).2.1]
          exact (hw.bases p).trans hlen
    · refine forall_install (I := fun _ x => ∀ msg reply, x.installing = some (msg, reply) →
        msg.snapshotIndex ≤ (appliedLog (e.events ++ s.trace)).length) ?_ ?_
      · intro msg reply hinst
        exact (hw.installing_step h hdoes htarget hinst).trans hlen
      · intro q _ msg reply hinst
        exact (hw.installing q msg reply hinst).trans hlen

/-! ## The sequence is chosen -/

/-- Record `r` was accepted at index `i`, and is chosen there. -/
def Settled (s : System n α) (H : Logs α) (i : ℕ) (r : LogRecord α) : Prop :=
  AcceptedAt s.trace i r ∧ ∃ T, H.ChosenBy (Acked s.trace H) T i r

omit [RaftGob α] in
theorem Settled.install {H H' : Logs α} {net : List (Packet n α)} {e : Effect n α} {i : ℕ}
    {r : LogRecord α} (h : s.Settled H i r) (hext : H.Extends H') :
    (s.install p net e).Settled H' i r := by
  obtain ⟨haccepted, T, hT⟩ := h
  refine ⟨haccepted.mono (List.subset_append_right _ _), T, hT.extend hext fun q T i hq => ?_⟩
  exact hq.mono (List.subset_append_right _ _) hext

/-- `H` holds the leaders' logs of the run, with every accepted command in them; what is being
handed over and what has been is settled. -/
structure Sequenced (s : System n α) (H : Logs α) : Prop where
  recorded : s.Recorded H
  starts : ∀ q i T command, .accepted q i T command ∈ s.trace →
    ∃ r, (H.log T)[i]? = some r ∧ r.term = T ∧ r.command = some command
  batches : ∀ p x, (s.peers p).rf.ticker.progress = some x → ∀ j r, x.entries[j]? = some r →
    s.Settled H ((s.peers p).rf.lastApplied + 1 + j) r
  applied : ∀ k r, (appliedLog s.trace)[k]? = some r → s.Settled H (k + 1) r

section Step

variable {H : Logs α} {c : Cause n α} {e : Effect n α} (hseq : s.Sequenced H)
  (h : Reach System.step Orderly init s) (hok : s.Orderly a) (htarget : s.target a = some (p, c))
  (hdoes : Does (s.peers p) c e)

include hseq h hok htarget hdoes

/-- The leaders' logs grow along a step. -/
theorem Sequenced.exists_extends :
    ∃ H', H.Extends H' ∧ (s.install p (s.inFlight a) e).Recorded H' := by
  have hs := Reachable.of_reach h
  have hled : s.Led := led_of_noStaleWin (h.mono fun _ _ hok => hok.1.1)
  obtain ⟨H', hext, hroot⟩ := hseq.recorded.toRooted.exists_step hs hled hok.1 htarget hdoes
  have hticker := hseq.recorded.ticker_step hs hok.safe.2.2 htarget hdoes
  refine ⟨H', hext, hseq.recorded.install hroot hext hticker (hroot.saysOk fun q msg hmem => ?_)⟩
  exact (hseq.recorded.applied_step hs hdoes hmem).extend hext fun q T i hq =>
    hq.mono (List.subset_append_right _ _) hext

omit h hok htarget in
/-- A command that is accepted is at the end of the log of its leader. -/
theorem Sequenced.starts_step {H' : Logs α} {net : List (Packet n α)} (hext : H.Extends H')
    (hrec : (s.install p net e).Recorded H') {q : Fin n} {i T : ℕ} {command : α}
    (hmem : .accepted q i T command ∈ e.events ++ s.trace) :
    ∃ r, (H'.log T)[i]? = some r ∧ r.term = T ∧ r.command = some command := by
  rcases List.mem_append.mp hmem with hnew | hold
  · obtain ⟨src, hnode, hlead⟩ := hrec.nodes p
    rw [install_peers_self] at hnode hlead
    cases hdoes with
    | @accepted command' hfree hrole =>
      obtain ⟨-, rfl, rfl, rfl⟩ := Event.accepted.inj (List.mem_singleton.mp hnew)
      obtain ⟨hsrc, -⟩ := hlead hrole
      have hsrc' : src = (s.peers p).rf.currentTerm := hsrc
      have hbase := (s.peers p).rf.log.base_lt_size
      have htail := hnode.tail (s.peers p).rf.log.size hbase (by
        show _ < Log.size (Log.append _ _)
        rw [Log.size_append]
        omega)
      rw [hsrc'] at htail
      have hget := (Log.get_append (s.peers p).rf.log
        { term := (s.peers p).rf.currentTerm, commandValid := true, command := some command }
        (s.peers p).rf.log.size).trans (if_pos rfl)
      exact ⟨_, htail.symm.trans hget, rfl, rfl⟩
    | _ => simp [Peer.crash] at hnew
  · obtain ⟨r, hr, hterm, hcommand⟩ := hseq.starts q i T command hold
    exact ⟨r, hext.get hr, hterm, hcommand⟩

/-- A batch is settled when it is collected, and `lastApplied` stays while it is sent. -/
theorem Sequenced.batches_step {x : Progress α} (hx : e.peer.rf.ticker.progress = some x) {j : ℕ}
    {r : LogRecord α} (hr : x.entries[j]? = some r) :
    s.Settled H (e.peer.rf.lastApplied + 1 + j) r := by
  have hs := Reachable.of_reach h
  have hold := hseq.batches p
  cases hdoes.applyStep (hs.saved p) with
  | restarted _ _ hnone =>
    rw [hnone] at hx
    cases hx
  | quiet hlast hsame | compacted _ _ _ hlast hsame =>
    rw [hsame] at hx
    rw [hlast]
    exact hold x hx j r hr
  | @collected entries _ hticker hentries heq =>
    rw [heq] at hx ⊢
    obtain rfl := Option.some.inj hx
    obtain ⟨src, hnode, -⟩ := hseq.recorded.nodes p
    obtain ⟨hlen, hget⟩ := Raft.collect_spec _ hentries
    have hj : j < entries.length := (List.getElem?_eq_some_iff.mp hr).1
    have hbase := (Orderly.streaming h p).base_le
    rw [Raft.position, hticker] at hbase
    have hbase' : (s.peers p).rf.log.base ≤ (s.peers p).rf.lastApplied := hbase
    have hvalid := hs.commandsOk.logs p _ r (by omega) (hget j r hr)
    have haccepted := hs.allAccepted.logs p _ r (by omega) (hget j r hr)
    exact ⟨haccepted, _, hnode.chosen_of_get (by dsimp only at hj ⊢; omega) (hget j r hr) hvalid⟩
  | @offered entries i entry hticker _ heq =>
    rw [heq] at hx ⊢
    obtain rfl := Option.some.inj hx
    exact hold ⟨entries, i, none⟩ (by rw [hticker]; rfl) j r hr
  | @sent entries i msg hticker heq =>
    rw [heq] at hx ⊢
    obtain rfl := Option.some.inj hx
    exact hold ⟨entries, i, some msg⟩ (by rw [hticker]; rfl) j r hr
  | batchDone _ _ _ heq =>
    rw [heq] at hx
    cases hx
  | installDone _ heq =>
    rw [heq] at hx ⊢
    exact hold x hx j r hr
  | @installed call term args hcause hcall _ hterm hindex _ hsame =>
    rw [hsame] at hx
    subst hcause
    rw [(Peer.of_inTurn (hok.2.1.outOfTurn htarget call rfl) hcall hterm hindex).1] at hx
    cases hx

omit hok htarget in
/-- The next entry of the sequence was collected, so it is settled. -/
theorem Sequenced.applied_step {k : ℕ} {r : LogRecord α}
    (hr : (appliedLog (e.events ++ s.trace))[k]? = some r) : s.Settled H (k + 1) r := by
  rcases appliedLog_step (Reachable.of_reach h) hdoes with hsame | ⟨entries, i, msg, hticker, hev⟩
  · rw [hsame] at hr
    exact hseq.applied k r hr
  · obtain ⟨log, entry, hentry, hlog, hget, -, hvalid, hnext, hindex⟩ := offering_spec h hticker
    rw [hev, List.singleton_append] at hr
    by_cases hnew : msg.commandIndex = (appliedLog s.trace).length + 1
    · rw [appliedLog_of_next hvalid hnew hlog hget, List.getElem?_append] at hr
      split at hr
      case isTrue => exact hseq.applied k r hr
      case isFalse hge =>
        obtain ⟨hlt, hentry'⟩ := List.getElem?_eq_some_iff.mp hr
        rw [List.length_singleton] at hlt
        obtain rfl : entry = r := by simpa using hentry'
        have hsettled := hseq.batches p ⟨entries, i, some msg⟩ (by rw [hticker]; rfl) i entry hentry
        rwa [show (s.peers p).rf.lastApplied + 1 + i = k + 1 by omega] at hsettled
    · have hle := (Orderly.within h).handed p
      rw [appliedLog_of_known (by omega)] at hr
      exact hseq.applied k r hr

end Step

theorem exists_sequenced (h : Reach System.step Orderly init s) : ∃ H, s.Sequenced H := by
  refine run_invariant (I := fun s => ∃ H, s.Sequenced H) ⟨_, recorded_init, ?_, ?_, ?_⟩ ?_ h
  · intro q i T command hmem
    cases hmem
  · intro p x hx
    cases hx
  · intro k r hr
    cases hr
  · rintro s a p c e h hok htarget hdoes ⟨H, hseq⟩
    obtain ⟨H', hext, hrec⟩ := hseq.exists_extends h hok htarget hdoes
    refine ⟨H', hrec, fun q i T command hmem => hseq.starts_step hdoes hext hrec hmem, ?_, ?_⟩
    · refine forall_install (I := fun _ y => ∀ x, y.rf.ticker.progress = some x → ∀ j r,
        x.entries[j]? = some r →
          (s.install p (s.inFlight a) e).Settled H' (y.rf.lastApplied + 1 + j)
          r) ?_ ?_
      · intro x hx j r hr
        exact (hseq.batches_step h hok htarget hdoes hx hr).install hext
      · intro q _ x hx j r hr
        exact (hseq.batches q x hx j r hr).install hext
    · intro k r hr
      exact (hseq.applied_step h hdoes hr).install hext

/-! ## What the services can rely on -/

section Services

variable (h : Reach System.step Orderly init s)

include h

/-- A leader that takes a command now gives it an index no leader of its term has given before. -/
theorem Orderly.fresh_index (hrole : (s.peers p).rf.role = .leader) (q : Fin n) (command : α) :
    .accepted q (s.peers p).rf.log.size (s.peers p).rf.currentTerm command ∉ s.trace := by
  intro hmem
  obtain ⟨H, hseq⟩ := exists_sequenced h
  obtain ⟨r, hr, -, -⟩ := hseq.starts q _ _ command hmem
  obtain ⟨src, -, hlead⟩ := hseq.recorded.nodes p
  obtain ⟨hsrc, hsize⟩ := hlead hrole
  rw [hsize, hsrc, List.getElem?_eq_none (Nat.le_refl _)] at hr
  cases hr

/-- A command accepted in the term a peer is in is in the sequence as soon as the peer has committed
its index and somebody has applied it. -/
theorem Orderly.own_command {q : Fin n} {i : ℕ} {command : α}
    (haccepted : .accepted q i (s.peers p).rf.currentTerm command ∈ s.trace)
    (hcommit : i ≤ (s.peers p).rf.commitIndex) (hpos : 0 < i)
    (hlen : i ≤ (appliedLog s.trace).length) :
    ∃ r, (appliedLog s.trace)[i - 1]? = some r ∧ r.term = (s.peers p).rf.currentTerm ∧
      r.command = some command := by
  obtain ⟨H, hseq⟩ := exists_sequenced h
  obtain ⟨r, hr, hterm, hcommand⟩ := hseq.starts q i _ command haccepted
  obtain ⟨src, hnode, -⟩ := hseq.recorded.nodes p
  have hcomplete : ∀ U, H.log U ≠ [] → H.Complete (Acked s.trace H) U :=
    fun U hU => hseq.recorded.toRooted.complete hU
  -- the peer's own view of what is committed
  obtain ⟨r', hr'⟩ : ∃ r', H.ChosenBy (Acked s.trace H) (s.peers p).rf.currentTerm i r' := by
    rcases Nat.lt_or_ge (s.peers p).rf.log.base i with hlt | hge
    · obtain ⟨r', -, hchosen⟩ := hnode.chosen i hlt hcommit
      exact ⟨r', hchosen⟩
    · obtain ⟨x, x', -, -, hchosen, -⟩ := hnode.placeholder
      exact hchosen.exists_of_le hge
  have hmine : r' = r := by
    have hget := (hr'.get (hcomplete _ (LeaderLogs.ne_nil hr))).1
    rw [hr] at hget
    exact (Option.some.inj hget).symm
  have hlt : i - 1 < (appliedLog s.trace).length := by omega
  obtain ⟨-, T, hT⟩ := hseq.applied (i - 1) _ (List.getElem?_eq_getElem hlt)
  rw [Nat.sub_add_cancel hpos] at hT
  rw [← hmine, ← hT.unique hcomplete hr'] at hterm hcommand
  exact ⟨_, List.getElem?_eq_getElem hlt, hterm, hcommand⟩

/-- A command that the service hands in now comes after everything the service was handed. -/
theorem Orderly.lastHanded_lt_size (hfree : (s.peers p).muFree) :
    lastHanded p s.trace < (s.peers p).rf.log.size := by
  obtain ⟨H, hseq⟩ := exists_sequenced h
  obtain ⟨src, hnode, -⟩ := hseq.recorded.nodes p
  exact Nat.lt_of_le_of_lt (Orderly.lastHanded_le h hfree) hnode.commit_lt

/-- Every entry of the sequence was accepted from a service, at its index. -/
theorem Orderly.accepted_of_applied {k : ℕ} {r : LogRecord α}
    (hr : (appliedLog s.trace)[k]? = some r) : AcceptedAt s.trace (k + 1) r := by
  obtain ⟨H, hseq⟩ := exists_sequenced h
  exact (hseq.applied k r hr).1

/-- What is being handed over is an entry of the sequence, or comes right after its end. -/
theorem Orderly.offering {entries : List (LogRecord α)} {i : ℕ} {msg : ApplyMsg α}
    (hticker : (s.peers p).rf.ticker = .offering entries i msg) :
    msg.commandValid = true ∧ msg.commandIndex = lastHanded p s.trace + 1 ∧
      ∃ r, (appliedLog (.applied p msg :: s.trace))[lastHanded p s.trace]? = some r ∧
        r.command = msg.command := by
  obtain ⟨log, entry, hentry, hlog, hget, hcommand, hvalid, hnext, hindex⟩ :=
    offering_spec h hticker
  refine ⟨hvalid, hnext, ?_⟩
  have hle := (Orderly.within h).handed p
  by_cases hnew : msg.commandIndex = (appliedLog s.trace).length + 1
  · refine ⟨entry, ?_, hcommand⟩
    rw [appliedLog_of_next hvalid hnew hlog hget,
      show lastHanded p s.trace = (appliedLog s.trace).length by omega]
    exact List.getElem?_concat_length
  · -- somebody has handed it over before: both records are chosen at this index
    have hlt : lastHanded p s.trace < (appliedLog s.trace).length := by omega
    obtain ⟨H, hseq⟩ := exists_sequenced h
    obtain ⟨-, T, hT⟩ := hseq.applied _ _ (List.getElem?_eq_getElem hlt)
    obtain ⟨-, T', hT'⟩ :=
      hseq.batches p ⟨entries, i, some msg⟩ (by rw [hticker]; rfl) i entry hentry
    rw [show (s.peers p).rf.lastApplied + 1 + i = lastHanded p s.trace + 1 by omega] at hT'
    rw [appliedLog_of_known (by omega)]
    refine ⟨_, List.getElem?_eq_getElem hlt, ?_⟩
    rw [hT.unique (fun U hU => hseq.recorded.toRooted.complete hU) hT', hcommand]

end Services

/-- Every command handed over is in the sequence. -/
theorem Orderly.applied_mem (h : Reach System.step Orderly init s) {p : Fin n} {msg : ApplyMsg α}
    (hmem : .applied p msg ∈ s.trace) (hvalid : msg.commandValid = true) :
    0 < msg.commandIndex ∧ ∃ r, (appliedLog s.trace)[msg.commandIndex - 1]? = some r ∧
      r.command = msg.command := by
  refine run_invariant (I := fun s => ∀ p msg, .applied p msg ∈ s.trace → msg.commandValid = true →
    0 < msg.commandIndex ∧ ∃ r, (appliedLog s.trace)[msg.commandIndex - 1]? = some r ∧
      r.command = msg.command) ?_ ?_ h p msg hmem hvalid
  · intro p msg hmem
    cases hmem
  · intro s a q c e h _ _ hdoes hI p msg hmem hvalid
    rcases List.mem_append.mp hmem with hnew | hold
    · obtain rfl : p = q := (hdoes.peer_of_mem hnew).trans ((Reachable.of_reach h).me q)
      obtain ⟨hev, ⟨entries, i, hticker⟩ | ⟨reply, hinst⟩⟩ := hdoes.applied hnew
      · obtain ⟨-, hnext, r, hr, hcommand⟩ := Orderly.offering h hticker
        rw [install_trace, hev, hnext]
        exact ⟨Nat.succ_pos _, r, hr, hcommand⟩
      · obtain ⟨term, args, r, rfl, -⟩ := (Reachable.of_reach h).installOk p msg reply hinst
        cases hvalid
    · obtain ⟨hpos, r, hr, hcommand⟩ := hI p msg hold hvalid
      exact ⟨hpos, r, appliedLog_get e.events hr, hcommand⟩

/-- No leader gives an index that was given before in its term. -/
theorem Orderly.nodup_givenIndices (h : Reach System.step Orderly init s) :
    (givenIndices s.trace).Nodup := by
  refine run_invariant (I := fun s => (givenIndices s.trace).Nodup) List.nodup_nil ?_ h
  intro s a p c e h _ _ hdoes hI
  rw [install_trace, givenIndices, List.filterMap_append]
  by_cases hnew : ∃ q index term command, .accepted q index term command ∈ e.events
  · obtain ⟨q, index, term, command, hnew⟩ := hnew
    obtain ⟨-, -, hrole, rfl, rfl, hev⟩ := hdoes.accepted_spec hnew
    rw [hev]
    refine List.nodup_cons.mpr ⟨fun hmem => ?_, hI⟩
    obtain ⟨x, hx, hgiven⟩ := List.mem_filterMap.mp hmem
    cases x with
    | accepted q' index term command' =>
      obtain ⟨rfl, rfl⟩ := Prod.mk.inj (Option.some.inj hgiven)
      exact Orderly.fresh_index h hrole q' command' hx
    | _ => cases hgiven
  · have hnil : (e.events.filterMap fun x => match x with
        | .accepted _ index term _ => some (index, term)
        | _ => none) = [] := by
      refine List.filterMap_eq_nil_iff.mpr fun x hx => ?_
      cases x with
      | accepted q index term command => exact absurd ⟨q, index, term, command, hx⟩ hnew
      | _ => rfl
    rw [hnil]
    exact hI

/-- In every orderly run in which no request is altered before it is encoded there is one sequence
that all services are handed: a command put on `applyCh` with index `i`, by any peer at any time, is
entry `i` of the sequence, and no service was handed anything beyond its end. Each entry was
accepted by a leader from its service with this very index, in the term of the entry, and no index
was given twice in one term. -/
theorem applied_sequence {x : Sharing n α (System n α)}
    (h : (host n α).SharesUnaltered Orderly init x) :
    (∀ p msg, .applied p msg ∈ x.state.trace → msg.commandValid = true → 0 < msg.commandIndex ∧
      ∃ r, (appliedLog x.state.trace)[msg.commandIndex - 1]? = some r ∧ r.command = msg.command) ∧
    (∀ p, lastHanded p x.state.trace ≤ (appliedLog x.state.trace).length) ∧
    (∀ k r, (appliedLog x.state.trace)[k]? = some r → AcceptedAt x.state.trace (k + 1) r) ∧
    (givenIndices x.state.trace).Nodup := by
  have hreach : Reach System.step Orderly init x.state := Host.reach_of_unaltered h
  exact ⟨fun _ _ hmem hvalid => Orderly.applied_mem hreach hmem hvalid,
    (Orderly.within hreach).handed, fun _ _ hr => Orderly.accepted_of_applied hreach hr,
    Orderly.nodup_givenIndices hreach⟩

/-- Peer `0` applies two commands and compacts them; peer `1` is handed the snapshot and is the
first to apply the third. -/
theorem applied_sequence_after_snapshot : ∃ x : Sharing 3 ℕ (System 3 ℕ),
    (host 3 ℕ).SharesUnaltered Orderly init x ∧
      (appliedLog x.state.trace).map LogRecord.command = [some 7, some 8, some 9] ∧
      lastHanded 1 x.state.trace = 3 ∧
      (∃ q command, .accepted q 3 2 command ∈ x.state.trace ∧ 9 = command) ∧
      (givenIndices x.state.trace).Nodup := by
  have hrun : ∃ s : System 3 ℕ, Reach System.step Orderly init s ∧
      ((appliedLog s.trace).map LogRecord.command = [some 7, some 8, some 9] ∧
        (appliedLog s.trace)[2]? = some ⟨2, true, some 9⟩ ∧ lastHanded 1 s.trace = 3) :=
    Reach.exists_of_exec [.act 0 .tickerStep, .act 1 .tickerStep, .act 0 .electionTimeout,
      .act 0 (.startElection 0), .deliver 0, .deliver 1, .act 0 (.start 7), .act 0 (.start 8),
      .act 0 (.replicationTick 0), .deliver 2, .deliver 2, .act 0 .tickerStep, .act 0 .tickerStep,
      .act 0 .tickerStep, .act 0 .tickerStep, .act 0 .tickerStep, .act 0 .tickerStep,
      .act 0 (.snapshot 2 (some [1])), .act 0 (.start 9), .act 0 (.replicationTick 0), .deliver 2,
      .act 1 .finishInstall, .deliver 2, .deliver 2, .deliver 2, .act 0 (.replicationTick 0),
      .deliver 2, .act 1 .tickerStep, .act 1 .tickerStep, .act 1 .tickerStep] (by decide +kernel)
  obtain ⟨s, hs, hlog, hlast, hhanded⟩ := hrun
  obtain ⟨x, hx, rfl⟩ := (host 3 ℕ).exists_unaltered (Reach.refl init) hs
  obtain ⟨-, -, haccepted, hnodup⟩ := applied_sequence hx
  obtain ⟨q, command, hmem, hcommand⟩ := haccepted 2 _ hlast
  exact ⟨x, hx, hlog, hhanded, ⟨q, command, hmem, Option.some.inj hcommand⟩, hnodup⟩

end System

end LogicRaft
