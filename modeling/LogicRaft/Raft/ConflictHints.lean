import Mathlib.Order.Bounds.Basic
import LogicRaft.Raft.Replication

/-!
# Conflict hints (`firstLogFor`, `AppendEntries`, `replicateToPeer`)

A follower that has a record of another term at `PrevLogIndex` answers with that term and, as
`ConflictIndex`, with what `firstLogFor` returns for it; the leader looks the term up in its own log
with the same function before it falls back on `ConflictIndex`. Everywhere else an index is
absolute, but `firstLogFor` ranges over `Records` and returns a position, which is the absolute
index less `Base`. On a compacted log the hint is too small by `Base`; on the leader's side the
position `0` of the placeholder also reads as "not found".

`conflict_hints_iff` says on which inputs the hints are absolute indices. For the follower this is
when its log is not compacted.
-/

namespace LogicRaft

namespace Raft

variable {n : ℕ} {α : Type}

/-! ## The leader's candidate -/

/-- What `conflictNext` caps. -/
def conflictHint (rf : Raft n α) (reply : AppendEntriesReply) : ℕ :=
  if reply.conflictTerm = invalidTerm then reply.conflictIndex
  else if rf.log.firstLogFor reply.conflictTerm ≠ invalidIndex then
    rf.log.firstLogFor reply.conflictTerm
  else reply.conflictIndex

theorem conflictNext_eq_min (rf : Raft n α) (peer : Fin n) (reply : AppendEntriesReply) :
    rf.conflictNext peer reply = min (rf.conflictHint reply) (rf.nextIndex peer) := by
  have hcap : ∀ next cap : ℕ, (if next > cap then cap else next) = min next cap := by
    intro next cap
    split <;> omega
  exact hcap _ _

/-- The leader's log has the conflict term, first at `m`. -/
def LooksUp (rf : Raft n α) (reply : AppendEntriesReply) (m : ℕ) : Prop :=
  reply.conflictTerm ≠ invalidTerm ∧ rf.log.FirstOf reply.conflictTerm m

/-- The search gets to `m`: it is not the placeholder, and no greater term stands before it. -/
def Finds (rf : Raft n α) (reply : AppendEntriesReply) (m : ℕ) : Prop :=
  rf.log.base < m ∧ rf.log.Below reply.conflictTerm m

section Hint

variable {rf : Raft n α} {reply : AppendEntriesReply} {m : ℕ}

/-- The candidate is the position of the first record of the conflict term. -/
theorem conflictHint_of_finds (h : rf.LooksUp reply m) (hfinds : rf.Finds reply m) :
    rf.conflictHint reply = m - rf.log.base := by
  have hpos : m - rf.log.base ≠ invalidIndex := Nat.sub_ne_zero_of_lt hfinds.1
  rw [conflictHint, if_neg h.1, Log.firstLogFor_of_below h.2 hfinds.2, if_pos hpos]

/-- Without one the follower's hint is taken. -/
theorem conflictHint_of_not_finds (h : ∀ m, rf.LooksUp reply m → ¬ rf.Finds reply m) :
    rf.conflictHint reply = reply.conflictIndex := by
  rw [conflictHint]
  split
  case isTrue => rfl
  case isFalse hterm =>
    have hzero : rf.log.firstLogFor reply.conflictTerm = invalidIndex := by
      by_cases hbelow : ∃ m, rf.log.FirstOf reply.conflictTerm m ∧ rf.log.Below reply.conflictTerm m
      · -- the search ends at the placeholder
        obtain ⟨m, hfirst, hbelow⟩ := hbelow
        have hbase : ¬ rf.log.base < m := fun hlt => h m ⟨hterm, hfirst⟩ ⟨hlt, hbelow⟩
        rw [Log.firstLogFor_of_below hfirst hbelow]
        exact Nat.sub_eq_zero_of_le (Nat.not_lt.mp hbase)
      · exact Log.firstLogFor_eq_invalidIndex fun m hfirst hm => hbelow ⟨m, hfirst, hm⟩
    rw [if_neg (not_not.mpr hzero)]

theorem LooksUp.eq {m' : ℕ} (h : rf.LooksUp reply m) (h' : rf.LooksUp reply m') : m = m' :=
  h.2.eq h'.2

end Hint

/-! ## When the hints are absolute -/

/-- The hint of a follower with a sorted log is too small by `Base`. -/
theorem isLeast_conflictIndex_iff {log : Log α} {i : ℕ} {prev : LogRecord α}
    (hsorted : log.TermsSorted) (hprev : log.get i = some prev) :
    IsLeast {k | log.base ≤ k ∧ k ≤ i ∧ ∃ r, log.get k = some r ∧ r.term = prev.term}
      (log.firstLogFor prev.term) ↔ log.base = 0 := by
  obtain ⟨m, hmi, hfirst⟩ := Log.exists_firstOf hprev
  obtain ⟨hbase, -⟩ := hfirst.bounds
  have hleast :
      IsLeast {k | log.base ≤ k ∧ k ≤ i ∧ ∃ r, log.get k = some r ∧ r.term = prev.term} m := by
    refine ⟨⟨hbase, hmi, hfirst.here⟩, fun k hk => ?_⟩
    obtain ⟨-, -, r, hr, hterm⟩ := hk
    exact Nat.not_lt.mp fun hlt => hfirst.first k hlt r hr hterm
  rw [Log.firstLogFor_of_below hfirst (hsorted.below hfirst)]
  constructor
  · intro h
    have heq := h.unique hleast
    omega
  · intro hzero
    have hm : m - log.base = m := by omega
    rwa [hm]

/-- The condition on the leader's side. A record of the conflict term that the search finds has to
be where its position says, and at most at the old `nextIndex`; if the search misses it, the
follower's hint has to point there. -/
def HintUsable (rf : Raft n α) (peer : Fin n) (reply : AppendEntriesReply) : Prop :=
  1 ≤ rf.nextIndex peer ∧
    (∀ m, rf.LooksUp reply m →
      (rf.Finds reply m → rf.log.base = 0 ∧ m ≤ rf.nextIndex peer) ∧
        (¬ rf.Finds reply m → 1 ≤ m ∧ min reply.conflictIndex (rf.nextIndex peer) = m)) ∧
    ((∀ m, ¬ rf.LooksUp reply m) → 1 ≤ reply.conflictIndex)

theorem conflictNext_absolute_iff (rf : Raft n α) (peer : Fin n) (reply : AppendEntriesReply) :
    ((∀ m, rf.LooksUp reply m → rf.conflictNext peer reply = m) ∧
        1 ≤ rf.conflictNext peer reply ∧ rf.conflictNext peer reply ≤ rf.nextIndex peer) ↔
      rf.HintUsable peer reply := by
  rw [conflictNext_eq_min, HintUsable]
  by_cases hup : ∃ m, rf.LooksUp reply m
  · obtain ⟨m, hm⟩ := hup
    have honly : ∀ {P : ℕ → Prop}, (∀ m, rf.LooksUp reply m → P m) ↔ P m := by
      intro P
      exact ⟨fun h => h m hm, fun h m' hm' => hm.eq hm' ▸ h⟩
    simp only [honly, false_imp_iff, and_true]
    by_cases hfinds : rf.Finds reply m
    · have hlt := hfinds.1
      simp only [conflictHint_of_finds hm hfinds, hfinds, not_true, true_imp_iff, false_imp_iff,
        and_true]
      omega
    · have hnone : ∀ m, rf.LooksUp reply m → ¬ rf.Finds reply m := honly.mpr hfinds
      simp only [conflictHint_of_not_finds hnone, hfinds, not_false_iff, true_imp_iff,
        false_imp_iff, true_and]
      omega
  · have hno : ∀ m, ¬ rf.LooksUp reply m := fun m hm => hup ⟨m, hm⟩
    have hnone : ∀ m, rf.LooksUp reply m → ¬ rf.Finds reply m := fun m hm => absurd hm (hno m)
    have hvoid : ∀ {P : ℕ → Prop}, (∀ m, rf.LooksUp reply m → P m) ↔ True := by
      intro P
      exact ⟨fun _ => trivial, fun _ m hm => absurd hm (hno m)⟩
    rw [conflictHint_of_not_finds hnone]
    simp only [hvoid, true_and, true_imp_iff]
    omega

/-! ## What the two sides compute -/

variable [RaftGob α]

/-- A follower with another term at `PrevLogIndex`. -/
theorem appendEntries_conflict {rf : Raft n α} {args : AppendEntriesArgs n α} {prev : LogRecord α}
    (hterm : rf.currentTerm ≤ args.term) (hprev : rf.log.get args.prevLogIndex = some prev)
    (hne : prev.term ≠ args.prevLogTerm) :
    rf.appendEntries args = .ok (rf.becomeFollowerLocked args.term)
      { term := rf.currentTerm
        conflictTerm := prev.term
        conflictIndex := rf.log.firstLogFor prev.term } := by
  have hsize := (Log.bounds_of_get hprev).2
  simp only [appendEntries, becomeFollowerLocked_log]
  rw [if_neg (by omega), if_neg (by omega), hprev]
  exact if_pos hne

/-- A leader that is told of a conflict. -/
theorem replicateToPeer_refused {rf : Raft n α} {peer : Fin n} {args : AppendEntriesArgs n α}
    {term : ℕ} {reply : AppendEntriesReply} (hlead : ¬ rf.contextLostLocked .leader term)
    (hterm : reply.term ≤ rf.currentTerm) (hsuccess : reply.success = false) :
    rf.replicateToPeer peer args term reply = .ok
      { rf with nextIndex := Function.update rf.nextIndex peer (rf.conflictNext peer reply) }
        () := by
  rw [replicateToPeer, if_neg (by omega), if_neg hlead, hsuccess]
  rfl

/-- When conflict hints are absolute indices. A follower with a sorted log that fails the term check
at `PrevLogIndex` names the smallest index of its term there exactly when its log is not compacted.
A leader that counts a refusal moves `nextIndex` to the smallest index of the conflict term in its
log, if it has one, and keeps it between `1` and the old value, exactly when `HintUsable`. -/
theorem conflict_hints_iff :
    (∀ (fo : Raft n α) (args : AppendEntriesArgs n α) (prev : LogRecord α),
      fo.log.TermsSorted → fo.currentTerm ≤ args.term →
      fo.log.get args.prevLogIndex = some prev → prev.term ≠ args.prevLogTerm →
      ∃ fo' reply, fo.appendEntries args = .ok fo' reply ∧ reply.success = false ∧
        reply.conflictTerm = prev.term ∧
        (IsLeast {k | fo.log.base ≤ k ∧ k ≤ args.prevLogIndex ∧
            ∃ r, fo.log.get k = some r ∧ r.term = reply.conflictTerm} reply.conflictIndex ↔
          fo.log.base = 0)) ∧
      ∀ (ld : Raft n α) (peer : Fin n) (args : AppendEntriesArgs n α) (term : ℕ)
        (reply : AppendEntriesReply), ¬ ld.contextLostLocked .leader term →
      reply.term ≤ ld.currentTerm → reply.success = false →
      ∃ ld', ld.replicateToPeer peer args term reply = .ok ld' () ∧
        (((∀ m, ld.LooksUp reply m → ld'.nextIndex peer = m) ∧
            1 ≤ ld'.nextIndex peer ∧ ld'.nextIndex peer ≤ ld.nextIndex peer) ↔
          ld.HintUsable peer reply) := by
  constructor
  · intro fo args prev hsorted hterm hprev hne
    exact ⟨_, _, appendEntries_conflict hterm hprev hne, rfl, rfl,
      isLeast_conflictIndex_iff hsorted hprev⟩
  · intro ld peer args term reply hlead hterm hsuccess
    refine ⟨_, replicateToPeer_refused hlead hterm hsuccess, ?_⟩
    simp only [Function.update_self]
    exact ld.conflictNext_absolute_iff peer reply

/-! ## A compacted follower -/

/-- A follower of term 3 whose log starts at index 1, with records of term 2 at the indices 2
and 3. -/
def compactedFollower : Raft 2 ℕ :=
  { (Raft.make 1 {} : Raft 2 ℕ) with
    currentTerm := 3, log := Log.fresh 1 1 [⟨2, true, some 5⟩, ⟨2, true, some 6⟩] }

/-- A heartbeat of a leader that has a record of term 3 at index 3. -/
def heartbeatAtThree : AppendEntriesArgs 2 ℕ := ⟨3, 0, 3, 3, [], 1⟩

/-- The follower answers with index 1, where it has its placeholder of term 1. The first index of
term 2 is 2. -/
theorem conflictIndex_not_absolute :
    compactedFollower.log.TermsSorted ∧
      compactedFollower.currentTerm ≤ heartbeatAtThree.term ∧
      compactedFollower.log.base ≤ heartbeatAtThree.prevLogIndex ∧
      ∃ fo' reply, compactedFollower.appendEntries heartbeatAtThree = .ok fo' reply ∧
        reply.success = false ∧ reply.conflictTerm = 2 ∧ reply.conflictIndex = 1 ∧
        ¬ IsLeast {k | compactedFollower.log.base ≤ k ∧ k ≤ heartbeatAtThree.prevLogIndex ∧
          ∃ r, compactedFollower.log.get k = some r ∧ r.term = reply.conflictTerm}
          reply.conflictIndex := by
  refine ⟨by decide, by decide, by decide, _, _, rfl, rfl, rfl, rfl, fun hleast => ?_⟩
  obtain ⟨-, -, r, hr, hterm⟩ := hleast.1
  obtain rfl := Option.some.inj hr
  cases hterm

/-- A leader of term 3 with a log that is not compacted. -/
def uncompactedLeader : Raft 2 ℕ :=
  { (Raft.make 0 {} : Raft 2 ℕ) with
    role := .leader, currentTerm := 3, nextIndex := fun _ => 4
    log := Log.fresh 0 0 [⟨1, true, some 4⟩, ⟨2, true, some 5⟩, ⟨3, true, some 7⟩] }

/-- A follower that has term 2 at index 3 and first at index 2. -/
def refusal : AppendEntriesReply := { term := 3, conflictTerm := 2, conflictIndex := 2 }

theorem uncompactedLeader_looksUp : uncompactedLeader.LooksUp refusal 2 := by
  refine ⟨by decide, ⟨_, rfl, rfl⟩, fun k hk r hr => ?_⟩
  match k, hk with
  | 0, _ | 1, _ =>
    obtain rfl := Option.some.inj hr
    decide

theorem uncompactedLeader_hintUsable : uncompactedLeader.HintUsable 1 refusal := by
  have hfinds : uncompactedLeader.Finds refusal 2 := by
    refine ⟨by decide, fun k hk r hr => ?_⟩
    match k, hk with
    | 0, _ | 1, _ =>
      obtain rfl := Option.some.inj hr
      decide
  refine ⟨by decide, fun m hm => ?_, fun hno => absurd uncompactedLeader_looksUp (hno 2)⟩
  obtain rfl := uncompactedLeader_looksUp.eq hm
  exact ⟨fun _ => by decide, fun hmiss => absurd hfinds hmiss⟩

/-- The compacted follower misses its index, and a leader with the whole log finds its own. -/
theorem conflict_hints_iff_both_sides :
    (∃ fo' reply, compactedFollower.appendEntries heartbeatAtThree = .ok fo' reply ∧
      ¬ IsLeast {k | 1 ≤ k ∧ k ≤ 3 ∧
        ∃ r, compactedFollower.log.get k = some r ∧ r.term = reply.conflictTerm}
        reply.conflictIndex) ∧
      ∃ ld', uncompactedLeader.replicateToPeer 1 heartbeatAtThree 3 refusal = .ok ld' () ∧
        ld'.nextIndex 1 = 2 := by
  obtain ⟨hfollower, hleader⟩ := conflict_hints_iff (n := 2) (α := ℕ)
  constructor
  · obtain ⟨fo', reply, hok, -, -, hiff⟩ := hfollower compactedFollower heartbeatAtThree _
      (by decide) (by decide) rfl (by decide)
    exact ⟨fo', reply, hok, fun hleast => absurd (hiff.mp hleast) (by decide)⟩
  · obtain ⟨ld', hok, hiff⟩ := hleader uncompactedLeader 1 heartbeatAtThree 3 refusal
      (by decide) (by decide) rfl
    exact ⟨ld', hok, (hiff.mpr uncompactedLeader_hintUsable).1 2 uncompactedLeader_looksUp⟩

end Raft

end LogicRaft
