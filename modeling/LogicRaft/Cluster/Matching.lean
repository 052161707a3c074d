import LogicRaft.Cluster.Inversion

/-!
# Log Matching

Two logs match when equal terms at an index mean that they agree on everything up to it. A log says
nothing about indices below its base, and at its base it keeps only the term, so agreement is asked
for where both logs have a record, and for the terms only where one of them has its placeholder.

`AppendEntries` keeps a family of logs pairwise matching (`append_keeps_matching`). Up to the splice
point the new log is the follower's, above it the leader's; a third log that reaches beyond the
splice point has the term of the leader, and so of the follower, at that point.

`InstallSnapshot` has no such check. It keeps every record after `LastIncludedIndex`, whatever stood
at `LastIncludedIndex` before, so a tail of an old leader ends up behind an entry it never followed.
`installSnapshot_matching_iff` says when the family stays matching: when there is no tail, or the
follower had the term of the snapshot at that index.
-/

namespace LogicRaft

variable {n : ℕ} {α : Type}

namespace Log

/-- The two logs agree at an index, as far as both have a record there. -/
def AgreeAt (l l' : Log α) (k : ℕ) : Prop :=
  ∀ r r', l.get k = some r → l'.get k = some r' →
    r.term = r'.term ∧ (k ≠ l.base → k ≠ l'.base → r = r')

/-- Where both logs have records of one term, they agree up to there. -/
def Matching (l l' : Log α) : Prop :=
  ∀ i r r', l.get i = some r → l'.get i = some r' → r.term = r'.term → ∀ k ≤ i, l.AgreeAt l' k

instance AgreeAt.decidable [DecidableEq α] (l l' : Log α) (k : ℕ) : Decidable (l.AgreeAt l' k) :=
  decidable_of_iff (∀ r ∈ l.get k, ∀ r' ∈ l'.get k,
      r.term = r'.term ∧ (k ≠ l.base → k ≠ l'.base → r = r'))
    ⟨fun h r r' hr hr' => h r hr r' hr', fun h r hr r' hr' => h r r' hr hr'⟩

/-- There is nothing to compare beyond the end of a log. -/
instance Matching.decidable [DecidableEq α] (l l' : Log α) : Decidable (l.Matching l') :=
  decidable_of_iff (∀ i < l.size, ∀ r ∈ l.get i, ∀ r' ∈ l'.get i, r.term = r'.term →
      ∀ k < i + 1, l.AgreeAt l' k)
    ⟨fun h i r r' hr hr' hterm k hk =>
        h i (bounds_of_get hr).2 r hr r' hr' hterm k (Nat.lt_succ_of_le hk),
      fun h i _ r hr r' hr' hterm k hk => h i r r' hr hr' hterm k (Nat.le_of_lt_succ hk)⟩

theorem AgreeAt.symm {l l' : Log α} {k : ℕ} (h : l.AgreeAt l' k) : l'.AgreeAt l k := by
  intro r r' hr hr'
  obtain ⟨hterm, heq⟩ := h r' r hr' hr
  exact ⟨hterm.symm, fun hl' hl => (heq hl hl').symm⟩

theorem agreeAt_of_get_eq {l l' : Log α} {k : ℕ} (h : l.get k = l'.get k) : l.AgreeAt l' k := by
  intro r r' hr hr'
  rw [h, hr'] at hr
  obtain rfl := Option.some.inj hr
  exact ⟨rfl, fun _ _ => rfl⟩

theorem AgreeAt.of_get_eq {l l' m : Log α} {k : ℕ} (h : l.AgreeAt m k) (hget : l'.get k = l.get k)
    (hbase : k = l.base → k = l'.base) : l'.AgreeAt m k := by
  intro r r' hr hr'
  rw [hget] at hr
  obtain ⟨hterm, heq⟩ := h r r' hr hr'
  exact ⟨hterm, fun hl' hm => heq (fun hl => hl' (hbase hl)) hm⟩

theorem Matching.refl (l : Log α) : l.Matching l :=
  fun _ _ _ _ _ _ _ _ => agreeAt_of_get_eq rfl

theorem Matching.symm {l l' : Log α} (h : l.Matching l') : l'.Matching l := by
  intro i r r' hr hr' hterm k hk
  exact (h i r' r hr' hr hterm.symm k hk).symm

/-- One log of a pairwise matching family may be replaced by one that matches them all. -/
theorem matching_update {ι : Type} [DecidableEq ι] {logs : ι → Log α}
    (hmatch : ∀ i j, (logs i).Matching (logs j)) {f : ι} {l : Log α}
    (hnew : ∀ j, l.Matching (logs j)) (i j : ι) :
    (Function.update logs f l i).Matching (Function.update logs f l j) := by
  by_cases hi : i = f <;> by_cases hj : j = f
  · rw [hi, hj]
    exact Matching.refl _
  · rw [hi, Function.update_self, Function.update_of_ne hj]
    exact hnew j
  · rw [hj, Function.update_self, Function.update_of_ne hi]
    exact (hnew i).symm
  · rw [Function.update_of_ne hi, Function.update_of_ne hj]
    exact hmatch i j

/-- A log that has records at two indices has one at every index between them. -/
theorem exists_get_of_between (l : Log α) {i j k : ℕ} {r r' : LogRecord α} (hi : l.get i = some r)
    (hk : l.get k = some r') (hij : i ≤ j) (hjk : j ≤ k) : ∃ x, l.get j = some x := by
  obtain ⟨hbase, -⟩ := bounds_of_get hi
  obtain ⟨-, hsize⟩ := bounds_of_get hk
  exact exists_get (hbase.trans hij) (Nat.lt_of_le_of_lt hjk hsize)

end Log

/-- What a follower's log is after it has accepted a request: its own records up to
`PrevLogIndex`, the leader's above. -/
theorem Log.get_spliceAfter_sent {ld : Raft n α} {q : Fin n} {args : AppendEntriesArgs n α}
    (hsent : ld.replicationRequest q = some (.append args)) {log : Log α}
    (hbase : log.base ≤ args.prevLogIndex) (hsize : args.prevLogIndex < log.size) (k : ℕ) :
    (log.spliceAfter args.prevLogIndex args.entries).get k =
      if k ≤ args.prevLogIndex then log.get k else ld.log.get k := by
  rw [Log.get_spliceAfter _ hbase hsize]
  split
  · rfl
  · exact (Raft.replicationRequest_entries hsent).2.2 k (by omega)

section Splice

variable {ld : Raft n α} {q : Fin n} {args : AppendEntriesArgs n α} {log : Log α}
  {prev : LogRecord α} (hsent : ld.replicationRequest q = some (.append args))
  (hprev : log.get args.prevLogIndex = some prev) (hterm : prev.term = args.prevLogTerm)

include hsent hprev hterm

/-- The new log of the follower agrees with the leader's. -/
theorem Log.Matching.agreeAt_splice (hleader : log.Matching ld.log) (k : ℕ) :
    (log.spliceAfter args.prevLogIndex args.entries).AgreeAt ld.log k := by
  obtain ⟨hbase, hsize⟩ := Log.bounds_of_get hprev
  have hget := Log.get_spliceAfter_sent hsent hbase hsize k
  by_cases hk : k ≤ args.prevLogIndex
  · rw [if_pos hk] at hget
    obtain ⟨r, hr, hr', -⟩ := Raft.replicationRequest_append hsent
    have hagree := hleader _ _ _ hprev hr (hterm.trans hr') k hk
    exact hagree.of_get_eq hget id
  · rw [if_neg hk] at hget
    exact Log.agreeAt_of_get_eq hget

/-- A log that matches the follower's and the leader's matches the follower's new one. -/
theorem Log.Matching.splice {other : Log α} (hfollower : log.Matching other)
    (hleader : ld.log.Matching other) :
    (log.spliceAfter args.prevLogIndex args.entries).Matching other := by
  obtain ⟨hbase, hsize⟩ := Log.bounds_of_get hprev
  obtain ⟨r₀, hr₀, hr₀term, -⟩ := Raft.replicationRequest_append hsent
  have hbase' := (Raft.replicationRequest_entries hsent).1
  have hget := Log.get_spliceAfter_sent hsent hbase hsize
  intro i r r' hr hr' hrr' k hk x x' hx hx'
  rw [hget] at hr
  by_cases hi : i ≤ args.prevLogIndex
  · -- both indices are in the part the follower keeps
    rw [if_pos hi] at hr
    have hagree := hfollower i r r' hr hr' hrr' k hk
    have hgetk := hget k
    rw [if_pos (hk.trans hi)] at hgetk
    exact hagree.of_get_eq hgetk id x x' hx hx'
  · rw [if_neg hi] at hr
    have hgetk := hget k
    by_cases hkprev : k ≤ args.prevLogIndex
    · -- the other log has the term of the check at the splice point
      obtain ⟨y, hy⟩ := other.exists_get_of_between hx' hr' hkprev (by omega)
      have hterms : r₀.term = y.term := (hleader i r r' hr hr' hrr' _ (by omega) r₀ y hr₀ hy).1
      have hagree := hfollower _ prev y hprev hy (by rw [hterm, hr₀term, hterms]) k hkprev
      rw [if_pos hkprev] at hgetk
      exact hagree.of_get_eq hgetk id x x' hx hx'
    · have hagree := hleader i r r' hr hr' hrr' k hk
      rw [if_neg hkprev] at hgetk
      exact hagree.of_get_eq hgetk (fun hkb => by omega) x x' hx hx'

end Splice

/-! ## A log under a snapshot -/

namespace Log

/-- The log of a follower that has adopted a snapshot of the log `L`. -/
def underSnapshot (log L : Log α) : Log α :=
  fresh L.base L.baseTerm (log.suffixFrom (L.base + 1))

variable {log L M : Log α} (hbase : log.base < L.base)

include hbase

theorem size_underSnapshot : (log.underSnapshot L).size = max log.size (L.base + 1) :=
  size_fresh_suffixFrom log _ (Nat.le_of_lt hbase)

theorem get_underSnapshot {k : ℕ} (hk : L.base < k) : (log.underSnapshot L).get k = log.get k :=
  get_fresh_suffixFrom log _ (Nat.le_of_lt hbase) hk

omit hbase in
theorem get_underSnapshot_base :
    (log.underSnapshot L).get L.base = some { term := L.baseTerm } := get_fresh_base _ _ _

/-- With nothing after the snapshot, or the term of the snapshot at its index, the new log matches
every log that the old one matched. -/
theorem Matching.underSnapshot (hlog : log.Matching M)
    (hkeep : log.size ≤ L.base + 1 ∨ ∃ r, log.get L.base = some r ∧ r.term = L.baseTerm) :
    (log.underSnapshot L).Matching M := by
  intro i r r' hr hr' hterm k hk x x' hx hx'
  have hLk : L.base ≤ k := (bounds_of_get hx).1
  have hLi : L.base ≤ i := hLk.trans hk
  rcases Nat.eq_or_lt_of_le hLi with rfl | hLi
  · -- only the placeholder
    obtain rfl : k = L.base := by omega
    rw [hx] at hr
    rw [hx'] at hr'
    rw [Option.some.inj hr, Option.some.inj hr']
    exact ⟨hterm, fun hne => absurd rfl hne⟩
  · obtain ⟨-, hsize⟩ := bounds_of_get hr
    rw [size_underSnapshot hbase] at hsize
    rw [get_underSnapshot hbase hLi] at hr
    have hagree := hlog i r r' hr hr' hterm k hk
    rcases Nat.eq_or_lt_of_le hLk with rfl | hLk
    · -- a record after the snapshot: the old log had the term of the snapshot below it
      obtain ⟨y, hy, hyterm⟩ := hkeep.resolve_left (by omega)
      rw [get_underSnapshot_base] at hx
      obtain rfl := Option.some.inj hx
      exact ⟨hyterm.symm.trans (hagree y x' hy hx').1, fun hne => absurd rfl hne⟩
    · rw [get_underSnapshot hbase hLk] at hx
      obtain ⟨hxterm, heq⟩ := hagree x x' hx hx'
      exact ⟨hxterm, fun _ hM => heq (by omega) hM⟩

theorem TermsSorted.underSnapshot (hlog : log.TermsSorted)
    (hkeep : log.size ≤ L.base + 1 ∨ ∃ r, log.get L.base = some r ∧ r.term = L.baseTerm) :
    (log.underSnapshot L).TermsSorted := by
  refine termsSorted_iff.mpr fun i j r r' hij hr hr' => ?_
  have hLi : L.base ≤ i := (bounds_of_get hr).1
  rcases Nat.eq_or_lt_of_le hij with rfl | hij
  · rw [hr] at hr'
    rw [Option.some.inj hr']
  · have hsize := (bounds_of_get hr').2
    rw [size_underSnapshot hbase] at hsize
    rw [get_underSnapshot hbase (by omega)] at hr'
    rcases Nat.eq_or_lt_of_le hLi with rfl | hLi
    · obtain ⟨y, hy, hyterm⟩ := hkeep.resolve_left (by omega)
      rw [get_underSnapshot_base] at hr
      obtain rfl := Option.some.inj hr
      rw [← hyterm]
      exact termsSorted_iff.mp hlog _ j y r' (Nat.le_of_lt hij) hy hr'
    · rw [get_underSnapshot hbase hLi] at hr
      exact termsSorted_iff.mp hlog i j r r' (Nat.le_of_lt hij) hr hr'

/-- If the new log matches the old one, the old one had the term of the snapshot, or no tail. -/
theorem keep_of_matching (h : (log.underSnapshot L).Matching log) :
    log.size ≤ L.base + 1 ∨ ∃ r, log.get L.base = some r ∧ r.term = L.baseTerm := by
  rcases Nat.lt_or_ge (L.base + 1) log.size with hlt | hge
  · right
    obtain ⟨r, hr⟩ := exists_get (Nat.le_of_lt hbase) (Nat.lt_of_succ_lt hlt)
    obtain ⟨x, hx⟩ : ∃ x, log.get (L.base + 1) = some x := exists_get (by omega) hlt
    have hx' : (log.underSnapshot L).get (L.base + 1) = some x := by
      rw [get_underSnapshot hbase (Nat.lt_succ_self _), hx]
    have hagree := h _ x x hx' hx rfl L.base (Nat.le_succ _)
    exact ⟨r, hr, (hagree _ r get_underSnapshot_base hr).1.symm⟩
  · exact Or.inl hge

end Log

variable [RaftGob α]

/-- A leader whose log is in a family of pairwise matching logs sends a round of requests, and a
follower whose log is in the family too, and is not compacted beyond `PrevLogIndex`, handles one of
them. If it answers `Success`, its new log ends with the entries of the request, agrees with the
leader's, and the family stays pairwise matching; otherwise its log is unchanged. -/
theorem append_keeps_matching {ι : Type} [DecidableEq ι] (logs : ι → Log α)
    (hmatch : ∀ i j, (logs i).Matching (logs j)) {l f : ι} {ld ld' fo : Raft n α} {term : ℕ}
    {requests : List (Fin n × ReplicationRequest n α)} {q : Fin n} {args : AppendEntriesArgs n α}
    (hleader : ld.log = logs l) (hfollower : fo.log = logs f)
    (hround : ld.startReplication term = .ok ld' (some requests))
    (hargs : (q, .append args) ∈ requests) (hbase : fo.log.base ≤ args.prevLogIndex) :
    ∃ fo' reply, fo.appendEntries args = .ok fo' reply ∧
      (reply.success = true →
        fo'.log.size = args.prevLogIndex + args.entries.length + 1 ∧
        (∀ k, fo'.log.AgreeAt ld.log k) ∧
        ∀ i j, (Function.update logs f fo'.log i).Matching (Function.update logs f fo'.log j)) ∧
      (reply.success = false → fo'.log = fo.log) := by
  have hsent : ld.replicationRequest q = some (.append args) :=
    ((Raft.startReplication_spec hround).2 _ hargs).2
  rcases fo.appendEntries_cases args with ⟨reply, -, hsuccess, hok⟩ | ⟨-, hpanic, -⟩ |
    ⟨prev, -, hprev, hterm, hok⟩
  · refine ⟨_, reply, hok, fun htrue => ?_, fun _ => Raft.becomeFollowerLocked_log _ _⟩
    rw [hsuccess] at htrue
    cases htrue
  · exact absurd hbase (Nat.not_le.mpr hpanic)
  · refine ⟨_, _, hok, fun _ => ?_, fun hfalse => by cases hfalse⟩
    rw [Raft.acceptEntries_log, Raft.becomeFollowerLocked_log]
    obtain ⟨hbase, hsize⟩ := Log.bounds_of_get hprev
    refine ⟨?_, ?_, ?_⟩
    · rw [Log.size_spliceAfter _ hbase hsize]
      omega
    · have hpair : fo.log.Matching ld.log := by
        rw [hleader, hfollower]
        exact hmatch f l
      exact hpair.agreeAt_splice hsent hprev hterm
    · apply Log.matching_update hmatch
      intro j
      have hfj : fo.log.Matching (logs j) := hfollower ▸ hmatch f j
      have hlj : ld.log.Matching (logs j) := hleader ▸ hmatch l j
      exact hfj.splice hsent hprev hterm hlj

/-- A leader of term 4. It has the first record of an old leader and a second one of its own. -/
def newLeader : Raft 2 ℕ :=
  { (Raft.make 0 {} : Raft 2 ℕ) with
    role := .leader, currentTerm := 4, nextIndex := fun _ => 2
    log := Log.fresh 0 invalidTerm [⟨2, true, some 7⟩, ⟨4, true, some 8⟩] }

/-- A follower with both records of the old leader. -/
def oldFollower : Raft 2 ℕ :=
  { (Raft.make 1 {} : Raft 2 ℕ) with
    currentTerm := 3
    log := Log.fresh 0 invalidTerm [⟨2, true, some 7⟩, ⟨3, true, some 5⟩] }

/-- Their logs, and a third one with the records of the old leader, the first of them compacted. -/
def threeLogs : Fin 3 → Log ℕ
  | 0 => newLeader.log
  | 1 => oldFollower.log
  | 2 => Log.fresh 1 2 [⟨3, true, some 5⟩]

/-- The record of the new leader replaces that of the old one at the follower, whose log matches the
third one also then. -/
theorem append_keeps_matching_overlap : ∃ (fo' : Raft 2 ℕ) (args : AppendEntriesArgs 2 ℕ)
    (reply : AppendEntriesReply), oldFollower.appendEntries args = .ok fo' reply ∧
      reply.success = true ∧ oldFollower.log.get 2 = some ⟨3, true, some 5⟩ ∧
      fo'.log.get 2 = some ⟨4, true, some 8⟩ ∧ (∀ k, fo'.log.AgreeAt newLeader.log k) ∧
      fo'.log.Matching (threeLogs 2) := by
  have hmatch : ∀ i j, (threeLogs i).Matching (threeLogs j) := by decide +kernel
  obtain ⟨ld', requests, hround, hargs⟩ : ∃ ld' requests,
      newLeader.startReplication 4 = .ok ld' (some requests) ∧
        (1, .append ⟨4, 0, 1, 2, [⟨4, true, some 8⟩], 0⟩) ∈ requests :=
    ⟨_, _, rfl, List.mem_singleton.mpr rfl⟩
  have hleader : newLeader.log = threeLogs 0 := rfl
  have hfollower : oldFollower.log = threeLogs 1 := rfl
  obtain ⟨fo', reply, hok, hyes, -⟩ :=
    append_keeps_matching threeLogs hmatch hleader hfollower hround hargs (Nat.zero_le 1)
  obtain ⟨x, hx, hnew⟩ : ∃ x, oldFollower.appendEntries ⟨4, 0, 1, 2, [⟨4, true, some 8⟩], 0⟩ =
      .ok x { term := 3, success := true } ∧ x.log.get 2 = some ⟨4, true, some 8⟩ := ⟨_, rfl, rfl⟩
  obtain ⟨rfl, rfl⟩ := Outcome.ok.inj (hx.symm.trans hok)
  obtain ⟨-, hagree, hfamily⟩ := hyes rfl
  have hthird := hfamily 1 2
  rw [Function.update_self, Function.update_of_ne (by decide)] at hthird
  exact ⟨x, _, _, hok, rfl, rfl, hnew, hagree, hthird⟩

/-! ## Snapshots -/

/-- A follower handles a snapshot request of a leader, ahead of its own base. Its new log matches
the leader's and every log that matched both, with its terms in order, exactly when it had no record
after `LastIncludedIndex` or a record of term `LastIncludedTerm` there. -/
theorem installSnapshot_matching_iff {ld fo : Raft n α} {q : Fin n} {args : InstallSnapshotArgs n}
    (hsent : ld.replicationRequest q = some (.snapshot args))
    (hmatch : fo.log.Matching ld.log) (hsorted : fo.log.TermsSorted)
    (hbase : fo.log.base < args.lastIncludedIndex) (hterm : fo.currentTerm ≤ args.term) :
    ((fo.installSnapshot args).1.log.Matching ld.log ∧
        (∀ M : Log α, fo.log.Matching M → ld.log.Matching M →
          (fo.installSnapshot args).1.log.Matching M) ∧
        (fo.installSnapshot args).1.log.TermsSorted) ↔
      fo.log.size ≤ args.lastIncludedIndex + 1 ∨
        ∃ r, fo.log.get args.lastIncludedIndex = some r ∧ r.term = args.lastIncludedTerm := by
  obtain ⟨-, hindex, hlast, -⟩ := Raft.replicationRequest_snapshot hsent
  have hlog : (fo.installSnapshot args).1.log = fo.log.underSnapshot ld.log := by
    rcases fo.installSnapshot_cases args with ⟨hrefused, -⟩ | ⟨-, -, heq⟩
    · omega
    · rw [heq, Log.underSnapshot, ← hindex, ← hlast]
      simp only [Raft.adoptSnapshot, Raft.becomeFollowerLocked_log]
      rfl
  rw [hlog, hindex, hlast]
  rw [hindex] at hbase
  constructor
  · rintro ⟨-, hothers, -⟩
    exact Log.keep_of_matching hbase (hothers fo.log (Log.Matching.refl _) hmatch.symm)
  · intro hkeep
    exact ⟨hmatch.underSnapshot hbase hkeep, fun M hM _ => hM.underSnapshot hbase hkeep,
      hsorted.underSnapshot hbase hkeep⟩

/-- A leader of term 3 that has compacted its log up to its own record at index 1. -/
def leaderWithSnapshot : Raft 2 ℕ :=
  { (Raft.make 0 {} : Raft 2 ℕ) with
    role := .leader, currentTerm := 3, nextIndex := fun _ => 1, log := Log.fresh 1 3 [] }

/-- A follower with two records of a leader of term 2. -/
def followerWithTail : Raft 2 ℕ :=
  { (Raft.make 1 {} : Raft 2 ℕ) with
    currentTerm := 2, log := Log.fresh 0 0 [⟨2, true, some 5⟩, ⟨2, true, some 6⟩] }

/-- The snapshot of the leader. -/
def snapshotAtOne : InstallSnapshotArgs 2 := ⟨3, 0, 1, 3, []⟩

/-- The two logs have different terms at the one index they share, whatever the tail is. -/
theorem leaderWithSnapshot_matching (tail : List (LogRecord ℕ)) :
    (Log.fresh 0 0 (⟨2, true, some 5⟩ :: tail)).Matching leaderWithSnapshot.log := by
  intro i r r' hr hr' hterm
  obtain rfl : i = 1 := by
    have hle : 1 ≤ i := (Log.bounds_of_get hr').1
    have hlt : i < 2 := (Log.bounds_of_get hr').2
    omega
  obtain rfl := Option.some.inj hr
  obtain rfl := Option.some.inj hr'
  cases hterm

/-- The record of term 2 at index 2 is kept behind the snapshot of term 3. -/
theorem installSnapshot_unsorted :
    leaderWithSnapshot.replicationRequest 1 = some (.snapshot snapshotAtOne) ∧
      followerWithTail.log.Matching leaderWithSnapshot.log ∧
      followerWithTail.log.TermsSorted ∧ leaderWithSnapshot.log.TermsSorted ∧
      followerWithTail.log.base < snapshotAtOne.lastIncludedIndex ∧
      followerWithTail.currentTerm ≤ snapshotAtOne.term ∧
      ¬ (followerWithTail.installSnapshot snapshotAtOne).1.log.TermsSorted :=
  ⟨rfl, leaderWithSnapshot_matching _, by decide, by decide, by decide, by decide,
    by decide +kernel⟩

/-- The same follower with a log that ends at the snapshot. -/
def followerWithoutTail : Raft 2 ℕ :=
  { followerWithTail with log := Log.fresh 0 0 [⟨2, true, some 5⟩] }

/-- Without the tail there is nothing to lose. -/
theorem installSnapshot_matching_without_tail :
    (followerWithoutTail.installSnapshot snapshotAtOne).1.log.Matching leaderWithSnapshot.log := by
  have hmatch : followerWithoutTail.log.Matching leaderWithSnapshot.log :=
    leaderWithSnapshot_matching []
  have hsent : leaderWithSnapshot.replicationRequest 1 = some (.snapshot snapshotAtOne) := rfl
  have hiff := installSnapshot_matching_iff hsent hmatch (by decide) (by decide) (by decide)
  exact (hiff.mpr (Or.inl (by decide))).1

end LogicRaft
