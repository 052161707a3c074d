import Mathlib.Data.List.Pairwise
import LogicRaft.Cluster.Inversion
import LogicRaft.Cluster.LeaderPeriod

/-!
# The order in which requests arrive

A leader sends requests all through its term, and they may arrive in any order. `AppendEntries` cuts
the log right after the entries of each request it accepts, so the follower's log always ends where
the last request ends, not where the longest one does. Up to there nothing depends on the order:
above the lowest `PrevLogIndex` the follower has the leader's records, below it what it had
(`Log.Written`).

So the order is immaterial, and no acknowledged entry is ever dropped, exactly for orders in which
no request ends before an earlier one (`delivery_order`). The source does nothing to bring this
about: a heartbeat that is overtaken by a command takes it back (`heartbeat_overtaken`).
-/

namespace LogicRaft

variable {n : ℕ} {α : Type}

namespace AppendEntriesArgs

/-- The last index the request speaks of, which a leader counts as matched on success. -/
def reach (args : AppendEntriesArgs n α) : ℕ := args.prevLogIndex + args.entries.length

/-- The request carries an entry for index `k`. -/
def Covers (args : AppendEntriesArgs n α) (k : ℕ) : Prop := args.prevLogIndex < k ∧ k ≤ args.reach

instance (args : AppendEntriesArgs n α) (k : ℕ) : Decidable (args.Covers k) :=
  inferInstanceAs (Decidable (_ ∧ _))

/-- The entry for index `k`. -/
def entryAt (args : AppendEntriesArgs n α) (k : ℕ) : Option (LogRecord α) :=
  args.entries[k - (args.prevLogIndex + 1)]?

/-- The log reaches to the end of the request and has the request's entries in their places. -/
def HeldBy (args : AppendEntriesArgs n α) (log : Log α) : Prop :=
  args.reach < log.size ∧ ∀ k, args.Covers k → log.get k = args.entryAt k

/-- No request ends before an earlier one. -/
def Rising (xs : List (AppendEntriesArgs n α)) : Prop := xs.Pairwise fun a b => a.reach ≤ b.reach

/-- The log ends where the longest of the requests ends. -/
def LongestIn (xs : List (AppendEntriesArgs n α)) (log : Log α) : Prop :=
  (∀ a ∈ xs, a.reach < log.size) ∧ (xs ≠ [] → ∃ a ∈ xs, log.size = a.reach + 1)

end AppendEntriesArgs

/-- Requests that one leader built in term `t`, in the order in which it built them, each with the
state it was built from. Between two of them the leader's log has only grown. -/
structure SentInTerm (leader : Fin n) (t : ℕ) (sent : List (Raft n α × AppendEntriesArgs n α)) :
    Prop where
  built : ∀ x ∈ sent, x.1.me = leader ∧ x.1.role = .leader ∧ x.1.currentTerm = t ∧
    ∃ q, x.1.replicationRequest q = some (.append x.2)
  grows : sent.Pairwise fun x y => ∃ commands, x.1.log.Grew t commands y.1.log

/-! ## One log behind the requests -/

/-- The requests carry the same entry for an index that both cover. -/
def AppendEntriesArgs.Fits (a b : AppendEntriesArgs n α) : Prop :=
  ∀ k, a.Covers k → b.Covers k → a.entryAt k = b.entryAt k

/-- The entry some request carries for index `k`. -/
def sentAt (xs : List (AppendEntriesArgs n α)) (k : ℕ) : Option (LogRecord α) :=
  (xs.find? fun a => decide (a.Covers k)).bind (·.entryAt k)

theorem entryAt_of_grew {ld ld' : Raft n α} {q q' : Fin n} {a b : AppendEntriesArgs n α} {t : ℕ}
    {commands : List α} (ha : ld.replicationRequest q = some (.append a))
    (hb : ld'.replicationRequest q' = some (.append b)) (hgrew : ld.log.Grew t commands ld'.log) :
    a.Fits b := by
  intro k hka hkb
  obtain ⟨-, hsize, hget⟩ := Raft.replicationRequest_entries ha
  obtain ⟨hbase, -, hget'⟩ := Raft.replicationRequest_entries hb
  have hlt : k < ld.log.size := by
    have := hka.2
    unfold AppendEntriesArgs.reach at this
    omega
  rw [AppendEntriesArgs.entryAt, AppendEntriesArgs.entryAt, hget k hka.1, hget' k hkb.1,
    hgrew.get_eq k (Nat.lt_of_le_of_lt hbase hkb.1), if_pos hlt]

namespace SentInTerm

variable {leader : Fin n} {t : ℕ} {sent : List (Raft n α × AppendEntriesArgs n α)}

theorem fits (h : SentInTerm leader t sent) {a b : AppendEntriesArgs n α}
    (ha : a ∈ sent.map Prod.snd) (hb : b ∈ sent.map Prod.snd) : a.Fits b := by
  have hpairs : sent.Pairwise fun x y => x.2.Fits y.2 := by
    refine List.Pairwise.imp_of_mem (fun hx hy hgrew => ?_) h.grows
    obtain ⟨commands, hgrew⟩ := hgrew
    obtain ⟨-, -, -, q, hq⟩ := h.built _ hx
    obtain ⟨-, -, -, q', hq'⟩ := h.built _ hy
    exact entryAt_of_grew hq hq' hgrew
  obtain ⟨x, hx, rfl⟩ := List.mem_map.mp ha
  obtain ⟨y, hy, rfl⟩ := List.mem_map.mp hb
  have hsymm : Std.Symm fun x y : Raft n α × AppendEntriesArgs n α => x.2.Fits y.2 :=
    ⟨fun x y hxy k hkx hky => (hxy k hky hkx).symm⟩
  exact hpairs.forall_of_forall (fun z _ k _ _ => rfl) hx hy

/-- A request's entry for an index is the one all of them agree on. -/
theorem entryAt_eq (h : SentInTerm leader t sent) {a : AppendEntriesArgs n α}
    (ha : a ∈ sent.map Prod.snd) {k : ℕ} (hk : a.Covers k) :
    a.entryAt k = sentAt (sent.map Prod.snd) k := by
  have hsome : ((sent.map Prod.snd).find? fun b => decide (b.Covers k)).isSome :=
    List.find?_isSome.mpr ⟨a, ha, decide_eq_true hk⟩
  obtain ⟨b, hfind⟩ := Option.isSome_iff_exists.mp hsome
  have hcovers := List.find?_some hfind
  rw [sentAt, hfind]
  exact h.fits ha (List.mem_of_find?_eq_some hfind) k hk (of_decide_eq_true hcovers)

/-- In a run of the cluster, the requests that a peer builds while it leads a term are of this
kind. -/
theorem of_run [RaftGob α] {p : Fin n} {sent : List (System n α × AppendEntriesArgs n α)}
    (hbuilt : ∀ x ∈ sent, x.1.Reachable ∧ x.1.Leads p t ∧
      ∃ q, (x.1.peers p).rf.replicationRequest q = some (.append x.2))
    (hrun : sent.Pairwise fun x y => Reach System.step (fun _ _ => True) x.1 y.1) :
    SentInTerm p t (sent.map fun x => ((x.1.peers p).rf, x.2)) where
  built := by
    intro x hx
    obtain ⟨y, hy, rfl⟩ := List.mem_map.mp hx
    obtain ⟨hs, hlead, hrequest⟩ := hbuilt y hy
    exact ⟨hs.me p, hlead.1, hlead.2, hrequest⟩
  grows := by
    rw [List.pairwise_map]
    refine List.Pairwise.imp_of_mem (fun hx hy hxy => ?_) hrun
    obtain ⟨hs, hlead, -⟩ := hbuilt _ hx
    obtain ⟨-, hlead', -⟩ := hbuilt _ hy
    obtain ⟨-, commands, -, hgrew, -⟩ := hlead.grew hs hxy hlead'
    exact ⟨commands, hgrew⟩

end SentInTerm

/-! ## What a sequence of requests writes -/

/-- `log` ends at `top`; up to `low` it is as `log₀`, and above as `L`. -/
structure Log.Written (L : ℕ → Option (LogRecord α)) (log₀ : Log α) (low top : ℕ) (log : Log α) :
    Prop where
  base_eq : log.base = log₀.base
  size_eq : log.size = top + 1
  below : ∀ k ≤ low, log.get k = log₀.get k
  above : ∀ k, low < k → k ≤ top → log.get k = L k

namespace Log.Written

variable {L : ℕ → Option (LogRecord α)} {log₀ log log' : Log α} {low top : ℕ}

theorem refl (L : ℕ → Option (LogRecord α)) (log : Log α) :
    log.Written L (log.size - 1) (log.size - 1) log where
  base_eq := rfl
  size_eq := by
    have := log.base_lt_size
    omega
  below _ _ := rfl
  above k hlow htop := by omega

/-- One accepted request. -/
theorem splice (h : log₀.Written L low top log) {a : AppendEntriesArgs n α}
    (hL : ∀ k, a.Covers k → a.entryAt k = L k) (hbase : log.base ≤ a.prevLogIndex)
    (hlt : a.prevLogIndex < log.size) :
    log₀.Written L (min low a.prevLogIndex) a.reach
      (log.spliceAfter a.prevLogIndex a.entries) where
  base_eq := h.base_eq
  size_eq := by
    rw [size_spliceAfter _ hbase hlt, AppendEntriesArgs.reach]
    omega
  below k hk := by
    rw [get_spliceAfter _ hbase hlt, if_pos (by omega)]
    exact h.below k (by omega)
  above k hlow htop := by
    have hsize := h.size_eq
    rw [get_spliceAfter _ hbase hlt]
    split
    case isTrue hle => exact h.above k (by omega) (by omega)
    case isFalse hgt => exact hL k ⟨by omega, htop⟩

/-- The four parameters determine the log. -/
theorem unique (h : log₀.Written L low top log) (h' : log₀.Written L low top log') :
    log = log' := by
  have hbase : log.base = log'.base := h.base_eq.trans h'.base_eq.symm
  have hsize : log.size = log'.size := h.size_eq.trans h'.size_eq.symm
  have hget : ∀ k, log.get k = log'.get k := by
    intro k
    by_cases hlow : k ≤ low
    · rw [h.below k hlow, h'.below k hlow]
    · by_cases htop : k ≤ top
      · rw [h.above k (by omega) htop, h'.above k (by omega) htop]
      · rw [(log.get_eq_none_iff k).mpr (Or.inr (by rw [h.size_eq]; omega)),
          (log'.get_eq_none_iff k).mpr (Or.inr (by rw [h'.size_eq]; omega))]
  refine Log.ext (List.ext_getElem? fun i => ?_) hbase
  have hi := hget (log.base + i)
  rw [get_of_base_le _ (by omega), get_of_base_le _ (by omega), ← hbase,
    Nat.add_sub_cancel_left] at hi
  exact hi

end Log.Written

/-- Where the last request ends. -/
def lastReach (top : ℕ) (xs : List (AppendEntriesArgs n α)) : ℕ := xs.foldl (fun _ a => a.reach) top

/-- The lowest `PrevLogIndex`. -/
def lowestPrev (low : ℕ) (xs : List (AppendEntriesArgs n α)) : ℕ :=
  xs.foldl (fun m a => min m a.prevLogIndex) low

theorem lowestPrev_perm {xs ys : List (AppendEntriesArgs n α)} (h : xs.Perm ys) (low : ℕ) :
    lowestPrev low xs = lowestPrev low ys := by
  refine h.foldl_eq' (fun a _ b _ m => ?_) low
  omega

theorem lowestPrev_le (xs : List (AppendEntriesArgs n α)) (low : ℕ) :
    lowestPrev low xs ≤ low ∧ ∀ a ∈ xs, lowestPrev low xs ≤ a.prevLogIndex := by
  induction xs generalizing low with
  | nil => exact ⟨Nat.le_refl _, fun a ha => by cases ha⟩
  | cons b xs ih =>
    obtain ⟨hlow, hall⟩ := ih (min low b.prevLogIndex)
    refine ⟨hlow.trans (Nat.min_le_left _ _), fun a ha => ?_⟩
    rcases List.mem_cons.mp ha with rfl | ha
    · exact hlow.trans (Nat.min_le_right _ _)
    · exact hall a ha

theorem lastReach_mem {xs : List (AppendEntriesArgs n α)} (h : xs ≠ []) (top : ℕ) :
    ∃ a ∈ xs, lastReach top xs = a.reach := by
  induction xs generalizing top with
  | nil => exact absurd rfl h
  | cons b xs ih =>
    by_cases hnil : xs = []
    · subst hnil
      exact ⟨b, List.mem_cons_self .., rfl⟩
    · obtain ⟨a, ha, heq⟩ := ih hnil b.reach
      exact ⟨a, List.mem_cons_of_mem _ ha, heq⟩

theorem AppendEntriesArgs.Rising.le_lastReach {xs : List (AppendEntriesArgs n α)} (h : Rising xs)
    (top : ℕ) {a : AppendEntriesArgs n α} (ha : a ∈ xs) : a.reach ≤ lastReach top xs := by
  induction xs generalizing top with
  | nil => cases ha
  | cons b xs ih =>
    obtain ⟨hb, hxs⟩ := List.pairwise_cons.mp h
    rcases List.mem_cons.mp ha with rfl | ha
    · by_cases hnil : xs = []
      · subst hnil
        exact Nat.le_refl _
      · obtain ⟨c, hc, heq⟩ := lastReach_mem hnil a.reach
        exact (hb c hc).trans_eq heq.symm
    · exact ih hxs b.reach ha

/-- Two such orders end with a request of the same, largest reach. -/
theorem AppendEntriesArgs.Rising.lastReach_eq {xs ys : List (AppendEntriesArgs n α)}
    (hxs : Rising xs) (hys : Rising ys) (hperm : xs.Perm ys) (top : ℕ) :
    lastReach top xs = lastReach top ys := by
  by_cases hnil : xs = []
  · subst hnil
    rw [hperm.nil_eq]
  · obtain ⟨a, ha, hax⟩ := lastReach_mem hnil top
    have hnil' : ys ≠ [] := fun h => hnil (List.Perm.eq_nil (h ▸ hperm))
    obtain ⟨b, hb, hby⟩ := lastReach_mem hnil' top
    have hle := hxs.le_lastReach top (hperm.mem_iff.mpr hb)
    have hge := hys.le_lastReach top (hperm.mem_iff.mp ha)
    omega

namespace Raft

variable [RaftGob α]

/-- The requests are delivered one after the other; `none` unless every one is answered with
`Success`. -/
def deliver (rf : Raft n α) : List (AppendEntriesArgs n α) → Option (Raft n α)
  | [] => some rf
  | args :: rest =>
    match rf.appendEntries args with
    | .ok rf reply => if reply.success then rf.deliver rest else none
    | .panic _ => none

/-- At no time has a request that was answered with `Success` been taken back. -/
def KeepsAcked (rf : Raft n α) (xs : List (AppendEntriesArgs n α)) : Prop :=
  ∀ pre post mid, xs = pre ++ post → rf.deliver pre = some mid → ∀ a ∈ pre, a.HeldBy mid.log

variable {rf x : Raft n α} {xs ys : List (AppendEntriesArgs n α)}

theorem deliver_cons {a : AppendEntriesArgs n α} (h : rf.deliver (a :: xs) = some x) :
    ∃ mid : Raft n α, mid.deliver xs = some x ∧ rf.log.base ≤ a.prevLogIndex ∧
      a.prevLogIndex < rf.log.size ∧ mid.log = rf.log.spliceAfter a.prevLogIndex a.entries := by
  unfold deliver at h
  rcases rf.appendEntries_cases a with
    ⟨reply, -, hfail, heq⟩ | ⟨-, -, heq⟩ | ⟨prev, -, hprev, -, heq⟩
  · rw [heq] at h
    simp only [hfail, Bool.false_eq_true, if_false] at h
    cases h
  · rw [heq] at h
    cases h
  · rw [heq] at h
    obtain ⟨hbase, hlt⟩ := Log.bounds_of_get hprev
    exact ⟨_, h, hbase, hlt, by simp⟩

theorem deliver_append (rf : Raft n α) (xs ys : List (AppendEntriesArgs n α)) :
    rf.deliver (xs ++ ys) = (rf.deliver xs).bind (·.deliver ys) := by
  induction xs generalizing rf with
  | nil => rfl
  | cons a xs ih =>
    simp only [List.cons_append, deliver]
    cases rf.appendEntries a with
    | panic => rfl
    | ok rf reply =>
      dsimp only
      split
      · exact ih rf
      · rfl

/-- What is left in the log once a sequence of requests has been accepted. -/
theorem written_of_deliver {L : ℕ → Option (LogRecord α)} {log₀ : Log α} {low top : ℕ}
    (hL : ∀ a ∈ xs, ∀ k, a.Covers k → a.entryAt k = L k) (h : log₀.Written L low top rf.log)
    (hx : rf.deliver xs = some x) :
    log₀.Written L (lowestPrev low xs) (lastReach top xs) x.log := by
  induction xs generalizing rf low top with
  | nil =>
    obtain rfl := Option.some.inj hx
    exact h
  | cons a xs ih =>
    obtain ⟨mid, hmid, hbase, hlt, hlog⟩ := deliver_cons hx
    refine ih (fun b hb => hL b (List.mem_cons_of_mem _ hb)) ?_ hmid
    rw [hlog]
    exact h.splice (hL a (List.mem_cons_self ..)) hbase hlt

/-- Requests that end later and later are never taken back. -/
theorem keepsAcked_of_rising {L : ℕ → Option (LogRecord α)}
    (hL : ∀ a ∈ xs, ∀ k, a.Covers k → a.entryAt k = L k) (h : AppendEntriesArgs.Rising xs) :
    rf.KeepsAcked xs := by
  rintro pre post mid rfl hmid a ha
  have hpre := (List.pairwise_append.mp h).1
  have hwritten := written_of_deliver (fun b hb => hL b (List.mem_append_left _ hb))
    (Log.Written.refl L rf.log) hmid
  have hreach := AppendEntriesArgs.Rising.le_lastReach hpre (rf.log.size - 1) ha
  refine ⟨by rw [hwritten.size_eq]; omega, fun k hk => ?_⟩
  have hlow := (lowestPrev_le pre (rf.log.size - 1)).2 a ha
  rw [hL a (List.mem_append_left _ ha) k hk]
  exact hwritten.above k (Nat.lt_of_le_of_lt hlow hk.1) (hk.2.trans hreach)

/-- A request that ends before an earlier one takes it back. -/
theorem rising_of_keepsAcked {L : ℕ → Option (LogRecord α)}
    (hL : ∀ a ∈ xs, ∀ k, a.Covers k → a.entryAt k = L k) (hx : rf.deliver xs = some x)
    (h : rf.KeepsAcked xs) : AppendEntriesArgs.Rising xs := by
  -- along the order, one more request at a time
  induction xs using List.reverseRecOn generalizing x with
  | nil => exact List.Pairwise.nil
  | append_singleton pre b ih =>
    have hpre : ∃ mid, rf.deliver pre = some mid := by
      rw [deliver_append] at hx
      obtain ⟨mid, hmid, -⟩ := Option.bind_eq_some_iff.mp hx
      exact ⟨mid, hmid⟩
    obtain ⟨mid, hmid⟩ := hpre
    have hold : AppendEntriesArgs.Rising pre := by
      refine ih (fun a ha => hL a (List.mem_append_left _ ha)) hmid ?_
      rintro pre' post mid' rfl hmid'
      exact h pre' (post ++ [b]) mid' (List.append_assoc ..) hmid'
    have hsize := (written_of_deliver hL (Log.Written.refl L rf.log) hx).size_eq
    rw [lastReach, List.foldl_append] at hsize
    refine List.pairwise_append.mpr ⟨hold, List.pairwise_singleton .., fun a ha c hc => ?_⟩
    obtain rfl := List.mem_singleton.mp hc
    have hheld := h (pre ++ [c]) [] x (List.append_nil _).symm hx a (List.mem_append_left _ ha)
    have hlt := hheld.1
    rw [hsize] at hlt
    exact Nat.le_of_lt_succ hlt

/-- Two orders in which a follower accepts all the requests of a leader's term leave it with the
same log, the one that ends where the longest request ends, and never take back an acknowledged
request, exactly if in both no request ends before an earlier one. -/
theorem delivery_order {leader : Fin n} {t : ℕ} {sent : List (Raft n α × AppendEntriesArgs n α)}
    {y : Raft n α} (hsent : SentInTerm leader t sent) (hxs : xs.Perm (sent.map Prod.snd))
    (hys : ys.Perm (sent.map Prod.snd)) (hx : rf.deliver xs = some x)
    (hy : rf.deliver ys = some y) :
    (x.log = y.log ∧ AppendEntriesArgs.LongestIn xs x.log ∧ rf.KeepsAcked xs ∧ rf.KeepsAcked ys) ↔
      AppendEntriesArgs.Rising xs ∧ AppendEntriesArgs.Rising ys := by
  have hLx : ∀ a ∈ xs, ∀ k, a.Covers k → a.entryAt k = sentAt (sent.map Prod.snd) k :=
    fun a ha k hk => hsent.entryAt_eq (hxs.mem_iff.mp ha) hk
  have hLy : ∀ a ∈ ys, ∀ k, a.Covers k → a.entryAt k = sentAt (sent.map Prod.snd) k :=
    fun a ha k hk => hsent.entryAt_eq (hys.mem_iff.mp ha) hk
  constructor
  · rintro ⟨-, -, hkeepx, hkeepy⟩
    exact ⟨rising_of_keepsAcked hLx hx hkeepx, rising_of_keepsAcked hLy hy hkeepy⟩
  · rintro ⟨hrisex, hrisey⟩
    have hperm : xs.Perm ys := hxs.trans hys.symm
    have hwx := written_of_deliver hLx (Log.Written.refl _ rf.log) hx
    have hwy := written_of_deliver hLy (Log.Written.refl _ rf.log) hy
    rw [← hrisex.lastReach_eq hrisey hperm, ← lowestPrev_perm hperm] at hwy
    refine ⟨hwx.unique hwy, ⟨fun a ha => ?_, fun hne => ?_⟩, keepsAcked_of_rising hLx hrisex,
      keepsAcked_of_rising hLy hrisey⟩
    · have := hrisex.le_lastReach (rf.log.size - 1) ha
      rw [hwx.size_eq]
      omega
    · obtain ⟨a, ha, heq⟩ := lastReach_mem hne (rf.log.size - 1)
      exact ⟨a, ha, by rw [hwx.size_eq, heq]⟩

end Raft

/-! ## A heartbeat and a command -/

/-- A leader of term 2 that has taken no command yet. -/
def freshLeader : Raft 3 ℕ :=
  { Raft.initial 0 {} with role := .leader, currentTerm := 2, nextIndex := fun _ => 1 }

/-- A follower of that term with nothing in its log. -/
def freshFollower : Raft 3 ℕ := (Raft.make 1 {} : Raft 3 ℕ).becomeFollowerLocked 2

/-- The leader sends a heartbeat, takes the command `7`, and sends it. -/
def heartbeatThenCommand : List (Raft 3 ℕ × AppendEntriesArgs 3 ℕ) :=
  [(freshLeader, ⟨2, 0, 0, 0, [], 0⟩),
    ((freshLeader.start 7).1, ⟨2, 0, 0, 0, [leaderRecord 2 7], 0⟩)]

theorem sentInTerm_heartbeatThenCommand : SentInTerm 0 2 heartbeatThenCommand where
  built := by
    intro x hx
    rcases List.mem_cons.mp hx with rfl | hx
    · exact ⟨rfl, rfl, rfl, 1, rfl⟩
    · obtain rfl := List.mem_singleton.mp hx
      exact ⟨rfl, rfl, rfl, 1, rfl⟩
  grows := by
    refine List.pairwise_pair.mpr ⟨[7], ?_⟩
    exact (Log.Grew.refl 2 freshLeader.log).append 7

/-- The leader takes the command `7` and sends it, takes the command `8` and sends both, as the
first one is not acknowledged yet, and then, when it is, sends the second one again. -/
def commandTwice : List (Raft 3 ℕ × AppendEntriesArgs 3 ℕ) :=
  let first := (freshLeader.start 7).1
  let second := (first.start 8).1
  [(first, ⟨2, 0, 0, 0, [leaderRecord 2 7], 0⟩),
    (second, ⟨2, 0, 0, 0, [leaderRecord 2 7, leaderRecord 2 8], 0⟩),
    ({ second with nextIndex := fun _ => 2 }, ⟨2, 0, 1, 2, [leaderRecord 2 8], 0⟩)]

theorem sentInTerm_commandTwice : SentInTerm 0 2 commandTwice where
  built := by
    rintro x hx
    rcases List.mem_cons.mp hx with rfl | hx
    · exact ⟨rfl, rfl, rfl, 1, rfl⟩
    · rcases List.mem_cons.mp hx with rfl | hx
      · exact ⟨rfl, rfl, rfl, 1, rfl⟩
      · obtain rfl := List.mem_singleton.mp hx
        exact ⟨rfl, rfl, rfl, 1, rfl⟩
  grows := by
    have hgrew : (freshLeader.start 7).1.log.Grew 2 [8] ((freshLeader.start 7).1.start 8).1.log :=
      (Log.Grew.refl 2 _).append 8
    refine List.Pairwise.cons (fun x hx => ⟨[8], ?_⟩) (List.pairwise_pair.mpr ⟨[], .refl 2 _⟩)
    rcases List.mem_cons.mp hx with rfl | hx
    · exact hgrew
    · obtain rfl := List.mem_singleton.mp hx
      exact hgrew

namespace Raft

/-- Delivered in the order in which they were sent, or with the last two swapped, the requests of
`commandTwice` leave the same two commands in the log. -/
theorem delivery_order_swapped : ∃ (xs ys : List (AppendEntriesArgs 3 ℕ)) (x y : Raft 3 ℕ),
    xs ≠ ys ∧ freshFollower.deliver xs = some x ∧ freshFollower.deliver ys = some y ∧
      x.log.size = 3 ∧ x.log = y.log ∧ freshFollower.KeepsAcked xs ∧
      freshFollower.KeepsAcked ys := by
  obtain ⟨xs, hxs⟩ : ∃ xs, xs = commandTwice.map Prod.snd := ⟨_, rfl⟩
  have hperm : (xs.take 1 ++ (xs.drop 1).reverse).Perm xs := by
    have hswap := (List.reverse_perm (xs.drop 1)).append_left (xs.take 1)
    rwa [List.take_append_drop] at hswap
  have hsize : (freshFollower.deliver xs).map (·.log.size) = some 3 := by
    rw [hxs]
    decide +kernel
  have hswapped : (freshFollower.deliver (xs.take 1 ++ (xs.drop 1).reverse)).isSome = true := by
    rw [hxs]
    decide +kernel
  have hrising : AppendEntriesArgs.Rising xs ∧
      AppendEntriesArgs.Rising (xs.take 1 ++ (xs.drop 1).reverse) := by
    rw [hxs]
    unfold AppendEntriesArgs.Rising
    decide +kernel
  have hne : xs ≠ xs.take 1 ++ (xs.drop 1).reverse := by
    rw [hxs]
    decide +kernel
  obtain ⟨x, hx, hsize⟩ := Option.map_eq_some_iff.mp hsize
  obtain ⟨y, hy⟩ := Option.isSome_iff_exists.mp hswapped
  obtain ⟨hlog, -, hkeepx, hkeepy⟩ :=
    (delivery_order sentInTerm_commandTwice (hxs ▸ List.Perm.refl _)
    (hxs ▸ hperm) hx hy).mpr hrising
  exact ⟨xs, _, x, y, hne, hx, hy, hsize, hlog, hkeepx, hkeepy⟩

/-- The heartbeat arrives after the command. It passes the consistency check, and the command that
was acknowledged before is gone. -/
theorem heartbeat_overtaken : ∃ (sent : List (Raft 3 ℕ × AppendEntriesArgs 3 ℕ))
    (xs ys : List (AppendEntriesArgs 3 ℕ)) (rf x y : Raft 3 ℕ), SentInTerm 0 2 sent ∧
      rf.currentTerm = 2 ∧ rf.log.base = 0 ∧ xs.Perm (sent.map Prod.snd) ∧
      ys.Perm (sent.map Prod.snd) ∧ rf.deliver xs = some x ∧ rf.deliver ys = some y ∧
      x.log ≠ y.log ∧ ¬ rf.KeepsAcked ys := by
  have hsent : (freshFollower.deliver (heartbeatThenCommand.map Prod.snd)).map (·.log.size) =
      some 2 := by decide +kernel
  have hswapped : (freshFollower.deliver (heartbeatThenCommand.map Prod.snd).reverse).map
      (·.log.size) = some 1 := by decide +kernel
  obtain ⟨x, hx, hxsize⟩ := Option.map_eq_some_iff.mp hsent
  obtain ⟨y, hy, hysize⟩ := Option.map_eq_some_iff.mp hswapped
  refine ⟨heartbeatThenCommand, _, _, freshFollower, x, y, sentInTerm_heartbeatThenCommand,
    rfl, rfl, List.Perm.refl _, List.reverse_perm _, hx, hy, fun heq => ?_, fun hkeep => ?_⟩
  · rw [heq, hysize] at hxsize
    cases hxsize
  · have hheld := hkeep _ [] y (List.append_nil _).symm hy ⟨2, 0, 0, 0, [leaderRecord 2 7], 0⟩
      (List.mem_cons_self ..)
    have hlt := hheld.1
    rw [hysize] at hlt
    exact absurd hlt (by decide)

end Raft

end LogicRaft
