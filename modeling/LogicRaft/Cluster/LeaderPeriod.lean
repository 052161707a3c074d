import LogicRaft.Cluster.LogSteps
import LogicRaft.Cluster.Leaders

/-!
# A leader's log only grows

A peer that stops leading a term never leads it again: it would have to be a candidate of that term,
and a candidacy is always for a new one. So two states in which a peer leads the same term have only
states between them in which it does. Over such a period the log grows by the commands of `Start`
and nothing else happens to it, apart from compaction, which moves the base and keeps every record
above it (`Log.Grew`). The handlers that would cut or replace the log make the peer a follower
first.
-/

namespace LogicRaft

variable {n : ℕ} {α : Type}

/-- The record a leader of term `t` makes of a command. -/
def leaderRecord (t : ℕ) (command : α) : LogRecord α :=
  { term := t, commandValid := true, command := some command }

/-- Absolute index by absolute index, `l'` is `l` with records of term `t` for the commands added at
the end; its base may have moved up. -/
structure Log.Grew (t : ℕ) (l : Log α) (commands : List α) (l' : Log α) : Prop where
  base_le : l.base ≤ l'.base
  size_eq : l'.size = l.size + commands.length
  get_eq : ∀ k, l'.base < k → l'.get k =
    if k < l.size then l.get k else commands[k - l.size]?.map (leaderRecord t)

namespace Log.Grew

variable {t : ℕ} {l l' : Log α} {commands : List α}

theorem refl (t : ℕ) (l : Log α) : l.Grew t [] l where
  base_le := Nat.le_refl _
  size_eq := rfl
  get_eq k hk := by
    split
    · rfl
    · exact (l.get_eq_none_iff k).mpr (Or.inr (by omega))

theorem append (h : l.Grew t commands l') (command : α) :
    l.Grew t (commands ++ [command]) (l'.append (leaderRecord t command)) where
  base_le := h.base_le
  size_eq := by
    rw [size_append, h.size_eq, List.length_append, List.length_singleton]
    omega
  get_eq k hk := by
    rw [base_append] at hk
    rw [get_append, h.get_eq k hk, h.size_eq]
    by_cases hend : k = l.size + commands.length
    · rw [if_pos hend, if_neg (by omega), hend, Nat.add_sub_cancel_left,
        List.getElem?_concat_length]
      rfl
    · rw [if_neg hend]
      by_cases hold : k < l.size
      · rw [if_pos hold, if_pos hold]
      · rw [if_neg hold, if_neg hold]
        congr 1
        rw [List.getElem?_append]
        split
        · rfl
        · rw [List.getElem?_eq_none (by omega), List.getElem?_eq_none (by
            rw [List.length_singleton]
            omega)]

theorem compact (h : l.Grew t commands l') {index term : ℕ} (hbase : l'.base ≤ index)
    (hsize : index < l'.size) :
    l.Grew t commands (Log.fresh index term (l'.suffixFrom (index + 1))) where
  base_le := h.base_le.trans hbase
  size_eq := by
    rw [size_fresh_suffixFrom _ _ hbase, ← h.size_eq]
    exact Nat.max_eq_left hsize
  get_eq k hk := by
    rw [base_fresh] at hk
    rw [get_fresh_suffixFrom _ _ hbase hk]
    exact h.get_eq k (by omega)

end Log.Grew

/-- What the successful calls of `Start` at a peer returned, oldest first, each with its command. -/
def starts (p : Fin n) (tr : List (Event n α)) : List (ℕ × ℕ × α) :=
  tr.reverse.filterMap fun x => match x with
    | .accepted q index term command => if q = p then some (index, term, command) else none
    | _ => none

/-- Consecutive indices from `i` on, all in term `t`. -/
def consecutive (i t : ℕ) (commands : List α) : List (ℕ × ℕ × α) :=
  (commands.zipIdx i).map fun x => (x.2, t, x.1)

theorem starts_append (p : Fin n) (ev tr : List (Event n α)) :
    starts p (ev ++ tr) = starts p tr ++ starts p ev := by
  rw [starts, List.reverse_append, List.filterMap_append]
  rfl

theorem starts_eq_nil {p : Fin n} {ev : List (Event n α)}
    (h : ∀ index term command, .accepted p index term command ∉ ev) : starts p ev = [] := by
  rw [starts, List.filterMap_eq_nil_iff]
  intro x hx
  split
  case h_1 q index term command =>
    apply if_neg
    rintro rfl
    exact h index term command (List.mem_reverse.mp hx)
  case h_2 => rfl

theorem consecutive_append (i t : ℕ) (commands : List α) (command : α) :
    consecutive i t (commands ++ [command]) =
      consecutive i t commands ++ [(i + commands.length, t, command)] := by
  simp [consecutive, List.zipIdx_append]

variable [RaftGob α]

theorem Does.accepted_of_mem {p : Peer n α} {c : Cause n α} {e : Effect n α} (h : Does p c e)
    {q : Fin n} {index term : ℕ} {command : α} (hx : .accepted q index term command ∈ e.events) :
    q = p.rf.me := by
  cases h with
  | accepted =>
    simp only [List.mem_singleton, Event.accepted.injEq] at hx
    exact hx.1
  | _ => simp [Peer.crash] at hx

namespace System

variable {s u : System n α} {p : Fin n}

/-- Peer `p` is the leader of term `t`. -/
def Leads (s : System n α) (p : Fin n) (t : ℕ) : Prop :=
  (s.peers p).rf.role = .leader ∧ (s.peers p).rf.currentTerm = t

/-- A peer that has led a term never wins it again. -/
theorem Leads.past {t : ℕ} (h : s.Leads p t) (hs : s.Reachable)
    (hrun : Reach System.step (fun _ _ => True) s u) : (u.peers p).rf.Past t := by
  refine hrun.invariant_along (I := fun u => (u.peers p).rf.Past t) ?_ ?_
  · intro u a v hsu hpast _ hstep
    obtain ⟨q, c, e, -, hdoes, rfl⟩ := step_cases hstep
    by_cases hq : p = q
    · subst hq
      rw [install_peers_self]
      exact hdoes.past ((hs.tail hsu).saved p) hpast
    · rw [install_peers_ne _ _ _ _ hq]
      exact hpast
  · exact Or.inr ⟨h.2, by rw [h.1]; decide⟩

/-- From `s` to `u` the log of `p` grew by the commands of its successful `Start` calls, which
returned consecutive indices and term `t`. -/
def Grew (s u : System n α) (p : Fin n) (t : ℕ) : Prop :=
  ∃ new commands, u.trace = new ++ s.trace ∧
    (s.peers p).rf.log.Grew t commands (u.peers p).rf.log ∧
    starts p new = consecutive (s.peers p).rf.log.size t commands

/-- One step of a period. -/
theorem Grew.step {t : ℕ} {v : System n α} {a : Action n α} (h : s.Grew u p t) (hu : u.Reachable)
    (hlead : u.Leads p t) (hlead' : v.Leads p t) (hstep : u.step a = some v) : s.Grew v p t := by
  obtain ⟨new, commands, htrace, hgrew, hstarts⟩ := h
  obtain ⟨q, c, e, -, hdoes, rfl⟩ := step_cases hstep
  have htrace' : (u.install q (u.inFlight a) e).trace = (e.events ++ new) ++ s.trace := by
    rw [install_trace, htrace, List.append_assoc]
  -- steps without a successful `Start` at `p`
  have hquiet : (∀ index term command, .accepted p index term command ∉ e.events) →
      (s.peers p).rf.log.Grew t commands ((u.install q (u.inFlight a) e).peers p).rf.log →
      s.Grew (u.install q (u.inFlight a) e) p t := by
    intro hev hlog
    refine ⟨_, commands, htrace', hlog, ?_⟩
    rw [starts_append, starts_eq_nil hev, List.append_nil, hstarts]
  by_cases hq : p = q
  · subst hq
    have hrole := hlead'.1
    rw [install_peers_self] at hrole
    rw [install_peers_self] at hquiet
    cases hdoes.logStep (hu.saved p) with
    | kept hlog _ hev =>
      apply hquiet (hev p)
      rw [hlog]
      exact hgrew
    | @accepted command _ hlog _ _ hev =>
      refine ⟨_, commands ++ [command], htrace', ?_, ?_⟩
      · rw [install_peers_self, hlog, hlead.2]
        exact hgrew.append command
      · rw [starts_append, hstarts, hev, hu.me p, hgrew.size_eq, hlead.2, consecutive_append]
        simp [starts]
    | compacted _ hbase hlast hlog _ hev =>
      apply hquiet (by simp [hev])
      rw [hlog]
      obtain ⟨-, hsize⟩ := Log.bounds_of_get hlast
      exact hgrew.compact hbase hsize
    | appended _ _ _ _ _ _ _ _ hfollower =>
      rw [hfollower] at hrole
      cases hrole
    | installed _ _ _ _ _ hfollower =>
      rw [hfollower] at hrole
      cases hrole
  · apply hquiet
    · intro index term command hx
      exact hq ((hdoes.accepted_of_mem hx).trans (hu.me q))
    · rw [install_peers_ne _ _ _ _ hq]
      exact hgrew

/-- Who leads a term after a step, and has led it before, has led it just before the step. -/
theorem Leads.leads_of_step {t : ℕ} {v : System n α} {a : Action n α} (h : s.Leads p t)
    (hs : s.Reachable) (hrun : Reach System.step (fun _ _ => True) s u)
    (hstep : u.step a = some v) (h' : v.Leads p t) : u.Leads p t := by
  obtain ⟨q, c, e, -, hdoes, rfl⟩ := step_cases hstep
  by_cases hq : p = q
  · subst hq
    obtain ⟨hrole, hterm⟩ := h'
    rw [install_peers_self] at hrole hterm
    have hpast := h.past hs hrun
    rw [← hterm] at hpast ⊢
    exact hdoes.leader_of_past ((hs.tail hrun).saved p) hrole hpast
  · unfold Leads at h'
    rwa [install_peers_ne _ _ _ _ hq] at h'

/-- Between two states in which a peer leads the same term, its log has only grown. -/
theorem Leads.grew {t : ℕ} (h : s.Leads p t) (hs : s.Reachable)
    (hrun : Reach System.step (fun _ _ => True) s u) (h' : u.Leads p t) : s.Grew u p t := by
  induction hrun with
  | refl => exact ⟨[], [], rfl, Log.Grew.refl t _, rfl⟩
  | @tail u v hrun hlast ih =>
    obtain ⟨a, -, hstep⟩ := hlast
    have hu : u.Reachable := hs.tail hrun
    -- the peer has not won in this step, so it was the leader before it
    have hlead : u.Leads p t := h.leads_of_step hs hrun hstep h'
    exact (ih hlead).step hu hlead h' hstep

/-- Take any two states of a run, one after the other, in which a peer leads the same term. The log
has not become shorter and no record above its base has changed. The `Start` calls between them that
succeeded returned consecutive indices from the old size of the log on, all with that term, and the
log has the record of each of them as long as its index is above the base. -/
theorem leader_append_only {t : ℕ} (hs : s.Reachable)
    (hrun : Reach System.step (fun _ _ => True) s u) (h : s.Leads p t) (h' : u.Leads p t) :
    let log := (s.peers p).rf.log
    let log' := (u.peers p).rf.log
    log.size ≤ log'.size ∧ (∀ k, log'.base < k → k < log.size → log'.get k = log.get k) ∧
      ∃ new commands, u.trace = new ++ s.trace ∧
        starts p new = consecutive log.size t commands ∧ log'.size = log.size + commands.length ∧
        ∀ j command, commands[j]? = some command → log'.base < log.size + j →
          log'.get (log.size + j) =
            some { term := t, commandValid := true, command := some command } := by
  intro log log'
  obtain ⟨new, commands, htrace, hgrew, hstarts⟩ := h.grew hs hrun h'
  refine ⟨?_, fun k hk hlt => ?_, new, commands, htrace, hstarts, hgrew.size_eq,
    fun j command hj hbase => ?_⟩
  · rw [hgrew.size_eq]
    exact Nat.le_add_right _ _
  · rw [hgrew.get_eq k hk, if_pos hlt]
  · have hnew : ¬ log.size + j < log.size := by omega
    rw [hgrew.get_eq _ hbase, if_neg hnew, Nat.add_sub_cancel_left, hj]
    rfl

/-- A leader takes two commands and compacts the first. -/
theorem leader_append_only_compacted : ∃ s u : System 3 ℕ, s.Leads 0 2 ∧ u.Leads 0 2 ∧
    (u.peers 0).rf.log.base = 1 ∧ (s.peers 0).rf.log.size ≤ (u.peers 0).rf.log.size := by
  have hrun : ∃ s : System 3 ℕ, s.Reachable ∧ ((s.peers 0).rf.role = .leader ∧
      (s.peers 0).rf.currentTerm = 2 ∧
      (exec System.step (fun _ _ => True) [.act 0 (.start 7), .act 0 (.replicationTick 0),
        .deliver 1, .deliver 2, .act 0 (.start 8), .act 0 (.snapshot 1 (some [1]))] s).any
          (fun u => decide ((u.peers 0).rf.role = .leader ∧ (u.peers 0).rf.currentTerm = 2 ∧
            (u.peers 0).rf.log.base = 1)) = true) :=
    Reach.exists_of_exec [.act 0 .electionTimeout, .act 0 (.startElection 0), .deliver 0,
      .deliver 1] (by decide +kernel)
  obtain ⟨s, hs, hrole, hterm, hrest⟩ := hrun
  obtain ⟨u, hu, hrole', hterm', hbase⟩ := Reach.exists_of_exec (P := fun u : System 3 ℕ =>
    (u.peers 0).rf.role = .leader ∧ (u.peers 0).rf.currentTerm = 2 ∧
      (u.peers 0).rf.log.base = 1) _ hrest
  exact ⟨s, u, ⟨hrole, hterm⟩, ⟨hrole', hterm'⟩, hbase,
    (leader_append_only hs hu ⟨hrole, hterm⟩ ⟨hrole', hterm'⟩).1⟩

end System

end LogicRaft
