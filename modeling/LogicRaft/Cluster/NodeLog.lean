import LogicRaft.Common.LeaderLogs
import LogicRaft.Raft.Replication

/-!
# What the log of a peer is made of

A peer's log need not be the beginning of one leader's log. `InstallSnapshot` keeps the records
above the snapshot whatever they are, so what is known is this: the part up to the base is chosen,
the part above comes from the log of one term, and the two need not fit (`NodeOk`). Each lemma here
says how one operation of the source keeps it. Accepting entries is where the consistency check
comes in (`NodeOk.splice`).
-/

namespace LogicRaft

/-- The logs of the leaders, with the records of the source as entries. -/
abbrev Logs (α : Type) := LeaderLogs (LogRecord α) LogRecord.term

variable {n : ℕ} {α : Type}

/-- Position `k` was committed before term `T`, or peer `p` has acknowledged it in that term. -/
def Seen (H : Logs α) (acked : Fin n → ℕ → ℕ → Prop) (p : Fin n) (T k : ℕ) : Prop :=
  (∃ T' i, T' < T ∧ H.Committed acked T' i ∧ k ≤ i) ∨ ∃ i, k ≤ i ∧ acked p T i

/-- What the log of peer `p` is made of, if the records above its base come from the log of term
`src`. -/
structure NodeOk (H : Logs α) (acked : Fin n → ℕ → ℕ → Prop) (p : Fin n) (rf : Raft n α)
    (src : ℕ) : Prop where
  src_le : src ≤ rf.currentTerm
  src_won : H.log src ≠ []
  start_le : H.start src ≤ rf.log.size
  tail : ∀ k, rf.log.base < k → k < rf.log.size → rf.log.get k = (H.log src)[k]?
  acks : ∀ T i, acked p T i → T < src ∨ (T = src ∧ i < rf.log.size)
  commit_lt : rf.commitIndex < rf.log.size
  commit_seen : rf.log.base < rf.commitIndex → Seen H acked p rf.currentTerm rf.commitIndex
  chosen : ∀ k, rf.log.base < k → k ≤ rf.commitIndex →
    ∃ r, rf.log.get k = some r ∧ H.ChosenBy acked rf.currentTerm k r
  placeholder : ∃ r r', rf.log.get rf.log.base = some r ∧ r.commandValid = false ∧
    H.ChosenBy acked rf.currentTerm rf.log.base r' ∧ r'.term = r.term

/-- A leader has the whole log of its term. -/
def LeaderOk (H : Logs α) (rf : Raft n α) (src : ℕ) : Prop :=
  rf.role = .leader → src = rf.currentTerm ∧ rf.log.size = (H.log src).length

/-- What an append request of term `T` carries: a piece of the log of that term that reaches to its
end at the time, and a chosen commit index inside it. -/
structure EntriesOk (H : Logs α) (acked : Fin n → ℕ → ℕ → Prop) (args : AppendEntriesArgs n α) :
    Prop where
  prev : ∃ r, (H.log args.term)[args.prevLogIndex]? = some r ∧ r.term = args.prevLogTerm
  entries : ∀ {j r}, args.entries[j]? = some r →
    (H.log args.term)[args.prevLogIndex + 1 + j]? = some r
  start_le : H.start args.term ≤ args.prevLogIndex + 1 + args.entries.length
  commit_lt : args.leaderCommit < args.prevLogIndex + 1 + args.entries.length
  commit : ∃ r, H.ChosenBy acked args.term args.leaderCommit r

/-- The entries of the request reach as far as all that the peer has acknowledged in their term. -/
def KeepsAcks (acked : Fin n → ℕ → ℕ → Prop) (p : Fin n) (args : AppendEntriesArgs n α) : Prop :=
  ∀ i, acked p args.term i → i < args.prevLogIndex + 1 + args.entries.length

section Seen

variable {H H' : Logs α} {acked acked' : Fin n → ℕ → ℕ → Prop} {p : Fin n} {T k : ℕ}

theorem Seen.of_le (h : Seen H acked p T k) {j : ℕ} (hj : j ≤ k) : Seen H acked p T j := by
  rcases h with ⟨T', i, hT', hcom, hi⟩ | ⟨i, hi, hack⟩
  · exact Or.inl ⟨T', i, hT', hcom, hj.trans hi⟩
  · exact Or.inr ⟨i, hj.trans hi, hack⟩

/-- In a later term, what is chosen was committed before. -/
theorem Seen.mono (h : Seen H acked p T k) {r : LogRecord α} (hr : H.ChosenBy acked T k r) {U : ℕ}
    (hU : T ≤ U) : Seen H acked p U k := by
  rcases Nat.lt_or_eq_of_le hU with hlt | rfl
  · obtain ⟨T', i, hT', hcom, hi, -⟩ := hr
    exact Or.inl ⟨T', i, by omega, hcom, hi⟩
  · exact h

theorem Seen.extend (h : Seen H acked p T k) (hext : H.Extends H')
    (himp : ∀ q T i, acked q T i → acked' q T i) : Seen H' acked' p T k := by
  rcases h with ⟨T', i, hT', hcom, hi⟩ | ⟨i, hi, hack⟩
  · exact Or.inl ⟨T', i, hT', hcom.extend hext himp, hi⟩
  · exact Or.inr ⟨i, hi, himp p T i hack⟩

end Seen

namespace NodeOk

variable {H H' : Logs α} {acked acked' : Fin n → ℕ → ℕ → Prop} {p : Fin n} {rf rf' : Raft n α}
  {src : ℕ}

/-- The commit index, as seen from a later term. -/
theorem seen (h : NodeOk H acked p rf src) (hbase : rf.log.base < rf.commitIndex) {U : ℕ}
    (hU : rf.currentTerm ≤ U) : Seen H acked p U rf.commitIndex := by
  obtain ⟨r, -, hr⟩ := h.chosen _ hbase (Nat.le_refl _)
  exact (h.commit_seen hbase).mono hr hU

/-- A higher term, another role or a lower commit index change nothing. -/
theorem congr (h : NodeOk H acked p rf src) (hlog : rf'.log = rf.log)
    (hcommit : rf'.commitIndex ≤ rf.commitIndex) (hcur : rf.currentTerm ≤ rf'.currentTerm) :
    NodeOk H acked p rf' src where
  src_le := h.src_le.trans hcur
  src_won := h.src_won
  start_le := by
    rw [hlog]
    exact h.start_le
  tail := by
    rw [hlog]
    exact h.tail
  acks := by
    rw [hlog]
    exact h.acks
  commit_lt := by
    rw [hlog]
    exact Nat.lt_of_le_of_lt hcommit h.commit_lt
  commit_seen hbase := by
    rw [hlog] at hbase
    exact (h.seen (by omega) hcur).of_le hcommit
  chosen k hk hle := by
    rw [hlog] at hk ⊢
    obtain ⟨r, hget, hr⟩ := h.chosen k hk (hle.trans hcommit)
    exact ⟨r, hget, hr.mono hcur⟩
  placeholder := by
    rw [hlog]
    obtain ⟨r, r', hget, hvalid, hr, hterm⟩ := h.placeholder
    exact ⟨r, r', hget, hvalid, hr.mono hcur, hterm⟩

/-- More logs and more acknowledgements, as long as this peer's log covers what it acknowledges. -/
theorem extend (h : NodeOk H acked p rf src) (hext : H.Extends H')
    (himp : ∀ q T i, acked q T i → acked' q T i)
    (hnew : ∀ T i, acked' p T i → acked p T i ∨ (T = src ∧ i < rf.log.size)) :
    NodeOk H' acked' p rf src where
  src_le := h.src_le
  src_won := hext.won h.src_won
  start_le := by
    rw [(hext src).2 h.src_won]
    exact h.start_le
  tail k hk hlt := by
    obtain ⟨r, hr⟩ := Log.exists_get (Nat.le_of_lt hk) hlt
    have hold := h.tail k hk hlt
    rw [hr] at hold ⊢
    exact (hext.get hold.symm).symm
  acks T i hack := by
    rcases hnew T i hack with hold | hsrc
    · exact h.acks T i hold
    · exact Or.inr hsrc
  commit_lt := h.commit_lt
  commit_seen hbase := (h.commit_seen hbase).extend hext himp
  chosen k hk hle := by
    obtain ⟨r, hget, hr⟩ := h.chosen k hk hle
    exact ⟨r, hget, hr.extend hext himp⟩
  placeholder := by
    obtain ⟨r, r', hget, hvalid, hr, hterm⟩ := h.placeholder
    exact ⟨r, r', hget, hvalid, hr.extend hext himp, hterm⟩

/-- A new base inside the log or beyond it, as `Snapshot` and `InstallSnapshot` set it: it has to be
chosen, and the commit index follows. -/
theorem rebase (h : NodeOk H acked p rf src) {index t : ℕ} {r' : LogRecord α}
    (hbase : rf.log.base ≤ index) (hcur : rf.currentTerm ≤ rf'.currentTerm)
    (hlog : rf'.log = Log.fresh index t (rf.log.suffixFrom (index + 1)))
    (hcommit : rf'.commitIndex = max rf.commitIndex index)
    (hr' : H.ChosenBy acked rf'.currentTerm index r') (hterm : r'.term = t) :
    NodeOk H acked p rf' src := by
  have hsize : rf'.log.size = max rf.log.size (index + 1) := by
    rw [hlog, Log.size_fresh_suffixFrom _ _ hbase]
  have hb : rf'.log.base = index := by
    rw [hlog, Log.base_fresh]
  have hget : ∀ k, index < k → rf'.log.get k = rf.log.get k := by
    intro k hk
    rw [hlog, Log.get_fresh_suffixFrom _ _ hbase hk]
  have hlt := h.commit_lt
  refine ⟨h.src_le.trans hcur, h.src_won, ?_, ?_, ?_, ?_, ?_, ?_, ?_⟩
  · have := h.start_le
    omega
  · intro k hk hlt
    rw [hget k (by omega)]
    exact h.tail k (by omega) (by omega)
  · intro T i hack
    rcases h.acks T i hack with hT | ⟨hT, hi⟩
    · exact Or.inl hT
    · exact Or.inr ⟨hT, by omega⟩
  · omega
  · intro hbase'
    exact (h.seen (by omega) hcur).of_le (by omega)
  · intro k hk hle
    obtain ⟨r, hr, hchosen⟩ := h.chosen k (by omega) (by omega)
    exact ⟨r, by rw [hget k (by omega), hr], hchosen.mono hcur⟩
  · refine ⟨{ term := t }, r', ?_, rfl, by rwa [hb], hterm⟩
    rw [hb, hlog]
    exact Log.get_fresh_base _ _ _

/-- The leader has reached the commit index by the commit rule. -/
theorem commit (h : NodeOk H acked p rf src) (hsrc : src = rf.currentTerm) (hlog : rf'.log = rf.log)
    (hcur : rf'.currentTerm = rf.currentTerm) (hlt : rf'.commitIndex < rf.log.size)
    (hcom : H.Committed acked rf.currentTerm rf'.commitIndex)
    (hmine : acked p rf.currentTerm rf'.commitIndex) : NodeOk H acked p rf' src := by
  refine ⟨?_, h.src_won, ?_, ?_, ?_, ?_, ?_, ?_, ?_⟩
  · rw [hcur]
    exact h.src_le
  · rw [hlog]
    exact h.start_le
  · rw [hlog]
    exact h.tail
  · rw [hlog]
    exact h.acks
  · rw [hlog]
    exact hlt
  · intro _
    rw [hcur]
    exact Or.inr ⟨_, Nat.le_refl _, hmine⟩
  · intro k hk hle
    rw [hlog] at hk ⊢
    obtain ⟨r, hr⟩ := Log.exists_get (Nat.le_of_lt hk) (by omega)
    have htail := h.tail k hk (by omega)
    rw [hr, hsrc] at htail
    refine ⟨r, hr, rf.currentTerm, rf'.commitIndex, ?_, hcom, hle, htail.symm⟩
    rw [hcur]
  · rw [hlog, hcur]
    exact h.placeholder

section Splice

variable {args : AppendEntriesArgs n α} {prev : LogRecord α}

/-- The consistency check makes what a follower keeps above its base a piece of the leader's log. -/
theorem get_splice (h : NodeOk H acked p rf src) (hargs : EntriesOk H acked args)
    (hprev : rf.log.get args.prevLogIndex = some prev) (hmatch : prev.term = args.prevLogTerm)
    {k : ℕ} (hk : rf.log.base < k) (hlt : k < args.prevLogIndex + 1 + args.entries.length) :
    (rf.log.spliceAfter args.prevLogIndex args.entries).get k = (H.log args.term)[k]? := by
  obtain ⟨hbase, hsize⟩ := Log.bounds_of_get hprev
  obtain ⟨r₀, hr₀, hr₀term⟩ := hargs.prev
  rw [Log.get_spliceAfter _ hbase hsize]
  by_cases hle : k ≤ args.prevLogIndex
  · rw [if_pos hle, h.tail k hk (by omega)]
    have hmine : (H.log src)[args.prevLogIndex]? = some prev := by
      rw [← h.tail _ (by omega) hsize, hprev]
    rw [← H.origin hmine k hle, ← H.origin hr₀ k hle, hmatch, hr₀term]
  · rw [if_neg hle]
    have hj : k - (args.prevLogIndex + 1) < args.entries.length := by omega
    have hentry := hargs.entries (List.getElem?_eq_getElem hj)
    rw [show args.prevLogIndex + 1 + (k - (args.prevLogIndex + 1)) = k by omega] at hentry
    rw [hentry]
    exact List.getElem?_eq_getElem hj

/-- What is committed is not dropped: the leader started with what was committed in earlier terms,
and the peer has acknowledged the rest. -/
theorem commit_lt_splice (h : NodeOk H acked p rf src) (hargs : EntriesOk H acked args)
    (hT : H.Complete acked args.term) (hcur : rf.currentTerm ≤ args.term)
    (hbase : rf.log.base ≤ args.prevLogIndex) (hkeep : KeepsAcks acked p args) :
    rf.commitIndex < args.prevLogIndex + 1 + args.entries.length := by
  by_cases hcommit : rf.log.base < rf.commitIndex
  · rcases h.seen hcommit hcur with ⟨T', i, hT', hcom, hi⟩ | ⟨i, hi, hack⟩
    · have hstart := (hT T' i hcom hT').1
      have := hargs.start_le
      omega
    · have := hkeep i hack
      omega
  · omega

/-- What the peer has acknowledged is not dropped. -/
theorem acks_splice (h : NodeOk H acked p rf src) (hcur : rf.currentTerm ≤ args.term)
    (hkeep : KeepsAcks acked p args) {T i : ℕ} (hack : acked p T i) :
    T < args.term ∨ (T = args.term ∧ i < args.prevLogIndex + 1 + args.entries.length) := by
  have hsrc := h.src_le
  have hle : T ≤ args.term := by
    rcases h.acks T i hack with hT | ⟨rfl, -⟩ <;> omega
  rcases Nat.lt_or_eq_of_le hle with hlt | rfl
  · exact Or.inl hlt
  · exact Or.inr ⟨rfl, hkeep i hack⟩

/-- A follower accepts the entries of a leader and acknowledges them. `hkeep` is what the source
does not check. -/
theorem splice (h : NodeOk H acked p rf src)
    (hcomplete : ∀ U, H.log U ≠ [] → H.Complete acked U) (hargs : EntriesOk H acked args)
    (hcur : rf.currentTerm ≤ args.term) (hprev : rf.log.get args.prevLogIndex = some prev)
    (hmatch : prev.term = args.prevLogTerm) (hkeep : KeepsAcks acked p args)
    (hlog : rf'.log = rf.log.spliceAfter args.prevLogIndex args.entries)
    (hcur' : rf'.currentTerm = args.term)
    (hcommit : rf'.commitIndex = max rf.commitIndex args.leaderCommit)
    (himp : ∀ q T i, acked q T i → acked' q T i)
    (hnew : ∀ T i, acked' p T i → acked p T i ∨
      (T = args.term ∧ i ≤ args.prevLogIndex + args.entries.length))
    (hend : acked' p args.term (args.prevLogIndex + args.entries.length)) :
    NodeOk H acked' p rf' args.term := by
  obtain ⟨hbase, hsize⟩ := Log.bounds_of_get hprev
  obtain ⟨r₀, hr₀, -⟩ := hargs.prev
  have hext := LeaderLogs.Extends.refl H
  have hT := hcomplete args.term (LeaderLogs.ne_nil hr₀)
  have hsize' : rf'.log.size = args.prevLogIndex + 1 + args.entries.length := by
    rw [hlog, Log.size_spliceAfter _ hbase hsize]
  have hbase' : rf'.log.base = rf.log.base := by
    rw [hlog, Log.base_spliceAfter]
  -- a position chosen up to this term is in the leader's log
  have hchosen : ∀ k, rf.log.base < k → k ≤ rf.commitIndex ∨ k ≤ args.leaderCommit →
      ∃ r, (H.log args.term)[k]? = some r ∧ H.ChosenBy acked args.term k r := by
    rintro k hk (hle | hle)
    · obtain ⟨r, -, hr⟩ := h.chosen k hk hle
      exact ⟨r, ((hr.mono hcur).get hT).1, hr.mono hcur⟩
    · obtain ⟨r, hr⟩ := hargs.commit
      obtain ⟨r', hr'⟩ := hr.exists_of_le hle
      exact ⟨r', (hr'.get hT).1, hr'⟩
  have hlt := h.commit_lt_splice hargs hT hcur hbase hkeep
  have hcommit_lt := hargs.commit_lt
  refine ⟨Nat.le_of_eq hcur'.symm, LeaderLogs.ne_nil hr₀, ?_, ?_, ?_, ?_, ?_, ?_, ?_⟩
  · rw [hsize']
    exact hargs.start_le
  · intro k hk hlt
    rw [hbase'] at hk
    rw [hsize'] at hlt
    rw [hlog]
    exact h.get_splice hargs hprev hmatch hk hlt
  · intro T i hack
    rw [hsize']
    rcases hnew T i hack with hold | ⟨hT, hi⟩
    · exact h.acks_splice hcur hkeep hold
    · exact Or.inr ⟨hT, by omega⟩
  · rw [hsize', hcommit]
    omega
  · intro _
    rw [hcur', hcommit]
    exact Or.inr ⟨_, by omega, hend⟩
  · intro k hk hle
    rw [hbase'] at hk
    rw [hcommit] at hle
    obtain ⟨r, hr, hr'⟩ := hchosen k hk (by omega)
    refine ⟨r, ?_, by rw [hcur']; exact hr'.extend hext himp⟩
    rw [hlog, h.get_splice hargs hprev hmatch hk (by omega), hr]
  · obtain ⟨r, r', hr, hvalid, hr', hterm⟩ := h.placeholder
    refine ⟨r, r', ?_, hvalid, ?_, hterm⟩
    · rw [hbase', hlog, Log.get_spliceAfter _ hbase hsize, if_pos hbase, hr]
    · rw [hbase', hcur']
      exact (hr'.mono hcur).extend hext himp

end Splice

/-- The leader of a term adds a record to its log and to the log of the term. -/
theorem push (h : NodeOk H acked p rf src) {r : LogRecord α} (hsrc : src = rf.currentTerm)
    (hsize : rf.log.size = (H.log src).length) (hr : r.term = rf.currentTerm)
    (hlog : rf'.log = rf.log.append r) (hcur : rf'.currentTerm = rf.currentTerm)
    (hcommit : rf'.commitIndex = rf.commitIndex) (himp : ∀ q T i, acked q T i → acked' q T i)
    (hnew : ∀ T i, acked' p T i → acked p T i ∨ (T = src ∧ i < rf.log.size + 1)) :
    NodeOk (H.append rf.currentTerm r hr) acked' p rf' src := by
  have hext : H.Extends (H.append rf.currentTerm r hr) := LeaderLogs.extends_append hr
  have hsize' : rf'.log.size = rf.log.size + 1 := by
    rw [hlog, Log.size_append]
  have hbase' : rf'.log.base = rf.log.base := by
    rw [hlog, Log.base_append]
  have hget : ∀ k, k < rf.log.size → rf'.log.get k = rf.log.get k := by
    intro k hk
    rw [hlog, Log.get_append, if_neg (by omega)]
  have hlt := h.commit_lt
  refine ⟨?_, hext.won h.src_won, ?_, ?_, ?_, ?_, ?_, ?_, ?_⟩
  · rw [hcur]
    exact h.src_le
  · rw [(hext src).2 h.src_won]
    have := h.start_le
    omega
  · intro k hk hlt
    rw [hbase'] at hk
    rcases Nat.lt_or_eq_of_le (Nat.le_of_lt_succ (hsize' ▸ hlt)) with hlt | heq
    · rw [hget k hlt]
      obtain ⟨x, hx⟩ := Log.exists_get (Nat.le_of_lt hk) hlt
      have hold := h.tail k hk hlt
      rw [hx] at hold ⊢
      exact (hext.get hold.symm).symm
    · rw [hlog, Log.get_append, if_pos heq, hsrc, LeaderLogs.append_log_self, heq, hsize, hsrc]
      simp
  · intro T i hack
    rcases hnew T i hack with hold | ⟨hT, hi⟩
    · rcases h.acks T i hold with hT | ⟨hT, hi⟩
      · exact Or.inl hT
      · exact Or.inr ⟨hT, by omega⟩
    · exact Or.inr ⟨hT, by omega⟩
  · omega
  · intro hbase
    rw [hcur, hcommit]
    exact (h.commit_seen (by omega)).extend hext himp
  · intro k hk hle
    rw [hbase'] at hk
    obtain ⟨x, hx, hchosen⟩ := h.chosen k hk (by omega)
    rw [hcur, hget k (by omega)]
    exact ⟨x, hx, hchosen.extend hext himp⟩
  · obtain ⟨x, r', hx, hvalid, hr', hterm⟩ := h.placeholder
    refine ⟨x, r', ?_, hvalid, ?_, hterm⟩
    · rw [hbase', hget _ rf.log.base_lt_size, hx]
    · rw [hbase', hcur]
      exact hr'.extend hext himp

/-! ## Elections -/

/-- The last record, as a record of the leaders' logs of terms before `U`. -/
theorem last (h : NodeOk H acked p rf src) {U : ℕ} (hcur : rf.currentTerm ≤ U)
    (hU : H.log U = []) :
    ∃ r, r.term = rf.log.lastLogTerm ∧
      ((rf.log.base < rf.log.size - 1 ∧ (H.log src)[rf.log.size - 1]? = some r) ∨
        (rf.log.base = rf.log.size - 1 ∧
          ∃ T < U, H.ChosenBy acked T (rf.log.size - 1) r)) := by
  have hpos := rf.log.base_lt_size
  obtain ⟨last, hlast, hterm⟩ := rf.log.lastLogTerm_eq
  by_cases hb : rf.log.base < rf.log.size - 1
  · refine ⟨last, hterm, Or.inl ⟨hb, ?_⟩⟩
    rw [← h.tail _ hb (by omega), hlast]
  · have heq : rf.log.base = rf.log.size - 1 := by omega
    obtain ⟨r, r', hr, -, ⟨T, i, hT, hcom, hi, hk⟩, hr'⟩ := h.placeholder
    rw [heq] at hr hi hk
    refine ⟨r', by rw [hr', Log.lastLogTerm_of_get hr], Or.inr ⟨heq, T, ?_, ?_⟩⟩
    · refine Nat.lt_of_le_of_ne (hT.trans hcur) fun hTU => hcom.won ?_
      rw [hTU, hU]
    · exact ⟨T, i, Nat.le_refl T, hcom, hi, hk⟩

theorem src_lt (h : NodeOk H acked p rf src) {U : ℕ} (hcur : rf.currentTerm ≤ U)
    (hU : H.log U = []) : src < U := by
  refine Nat.lt_of_le_of_ne (h.src_le.trans hcur) fun heq => h.src_won ?_
  rw [heq, hU]

/-- A peer whose log is not more up to date endorses the candidate's log. -/
theorem endorses (h : NodeOk H acked p rf src) {U lastTerm lastIndex : ℕ}
    (hcur : rf.currentTerm ≤ U) (hU : H.log U = [])
    (hup : rf.log.lastLogTerm < lastTerm ∨
      (rf.log.lastLogTerm = lastTerm ∧ rf.log.size - 1 ≤ lastIndex)) :
    H.Endorses acked p U lastTerm lastIndex := by
  have hpos := rf.log.base_lt_size
  obtain ⟨r, hterm, hlast⟩ := h.last hcur hU
  refine ⟨src, rf.log.size, r, ?_, by rwa [hterm]⟩
  refine ⟨by omega, h.src_lt hcur hU, h.src_won, h.start_le, fun T i hack _ => h.acks T i hack, ?_⟩
  rcases hlast with ⟨-, hlast⟩ | ⟨-, hlast⟩
  · exact Or.inl hlast
  · exact Or.inr hlast

/-- The part of a log above its base, up to its end, is in the log of one earlier term. -/
theorem exists_origin (h : NodeOk H acked p rf src) {U : ℕ} (hcur : rf.currentTerm ≤ U)
    (hU : H.log U = []) :
    ∃ t < U, (∃ r, (H.log t)[rf.log.size - 1]? = some r ∧ r.term = rf.log.lastLogTerm) ∧
      ∀ k, rf.log.base < k → k < rf.log.size → rf.log.get k = (H.log t)[k]? := by
  obtain ⟨r, hterm, ⟨-, hlast⟩ | ⟨hb, T, hT, T', i, hT', -, -, hlast⟩⟩ := h.last hcur hU
  · exact ⟨src, h.src_lt hcur hU, ⟨r, hlast, hterm⟩, h.tail⟩
  · refine ⟨T', by omega, ⟨r, hlast, hterm⟩, fun k hk hlt => ?_⟩
    omega

/-- The winner of an election starts the log of its term. -/
theorem win (h : NodeOk H acked p rf src) {t : ℕ} (hU : H.log rf.currentTerm = [])
    (ht : t < rf.currentTerm) (hlen : rf.log.size ≤ (H.log t).length)
    (htail : ∀ k, rf.log.base < k → k < rf.log.size → rf.log.get k = (H.log t)[k]?)
    (hlog : rf'.log = rf.log) (hcur : rf'.currentTerm = rf.currentTerm)
    (hcommit : rf'.commitIndex = rf.commitIndex) (himp : ∀ q T i, acked q T i → acked' q T i)
    (hnew : ∀ T i, acked' p T i → acked p T i ∨ (T = rf.currentTerm ∧ i < rf.log.size)) :
    NodeOk (H.elect hU ht hlen) acked' p rf' rf.currentTerm := by
  have hext := LeaderLogs.extends_elect hU ht hlen
  have hpos := rf.log.base_lt_size
  have hlog' : (H.elect hU ht hlen).log rf.currentTerm = (H.log t).take rf.log.size :=
    LeaderLogs.elect_log_self hU ht hlen
  refine ⟨Nat.le_of_eq hcur.symm, ?_, ?_, ?_, ?_, ?_, ?_, ?_, ?_⟩
  · rw [hlog']
    apply List.ne_nil_of_length_pos
    rw [List.length_take]
    omega
  · rw [LeaderLogs.elect_start_self, hlog]
  · intro k hk hlt
    rw [hlog] at hk hlt ⊢
    rw [htail k hk hlt, hlog', List.getElem?_take_of_lt hlt]
  · intro T i hack
    rw [hlog]
    have hsrc := h.src_lt (Nat.le_refl _) hU
    rcases hnew T i hack with hold | hself
    · rcases h.acks T i hold with hT | ⟨hT, -⟩
      · exact Or.inl (by omega)
      · exact Or.inl (by omega)
    · exact Or.inr hself
  · rw [hlog, hcommit]
    exact h.commit_lt
  · intro hbase
    rw [hlog] at hbase
    rw [hcur, hcommit]
    exact (h.commit_seen (by omega)).extend hext himp
  · intro k hk hle
    rw [hlog] at hk ⊢
    obtain ⟨r, hr, hchosen⟩ := h.chosen k hk (by omega)
    rw [hcur]
    exact ⟨r, hr, hchosen.extend hext himp⟩
  · rw [hlog, hcur]
    obtain ⟨r, r', hr, hvalid, hr', hterm⟩ := h.placeholder
    exact ⟨r, r', hr, hvalid, hr'.extend hext himp, hterm⟩

/-! ## What a leader sends -/

/-- An append request carries a piece of the log of its term. -/
theorem entriesOk (h : NodeOk H acked p rf src) (hlead : LeaderOk H rf src)
    (hrole : rf.role = .leader) (hcomplete : H.Complete acked rf.currentTerm)
    (hbase : rf.log.base ≤ rf.commitIndex) {q : Fin n} {args : AppendEntriesArgs n α}
    (hreq : rf.replicationRequest q = some (.append args)) : EntriesOk H acked args := by
  obtain ⟨hsrc, hsize⟩ := hlead hrole
  obtain ⟨x, x', hx, -, hx', hxterm⟩ := h.placeholder
  obtain ⟨prev, hprev, hprevTerm, hentries, hterm, hcommit, -⟩ :=
    Raft.replicationRequest_append hreq
  obtain ⟨hb, hlt⟩ := Log.bounds_of_get hprev
  have hlen : args.entries.length = rf.log.size - (args.prevLogIndex + 1) := by
    rw [hentries, Log.length_suffixFrom _ (by omega)]
  have hbound := h.commit_lt
  refine ⟨?_, ?_, ?_, ?_, ?_⟩
  · rw [hterm, hprevTerm]
    rcases Nat.lt_or_eq_of_le hb with hb | hb
    · exact ⟨prev, by rw [← hsrc, ← h.tail _ hb hlt, hprev], rfl⟩
    · -- the record before the entries is the compacted one
      refine ⟨x', ?_, ?_⟩
      · rw [← hb]
        exact (hx'.get hcomplete).1
      · rw [hb, hprev] at hx
        rw [hxterm, ← Option.some.inj hx]
  · intro j r hj
    rw [hentries, Log.getElem?_suffixFrom _ (by omega)] at hj
    obtain ⟨-, hin⟩ := Log.bounds_of_get hj
    rw [hterm, ← hsrc, ← h.tail _ (by omega) hin, hj]
  · rw [hlen, hterm, ← hsrc]
    have := h.start_le
    omega
  · rw [hlen, hcommit]
    omega
  · rw [hterm, hcommit]
    rcases Nat.lt_or_eq_of_le hbase with hbase | hbase
    · obtain ⟨r, -, hr⟩ := h.chosen _ hbase (Nat.le_refl _)
      exact ⟨r, hr⟩
    · rw [← hbase]
      exact ⟨x', hx'⟩

/-- A snapshot request names a chosen position and its term. -/
theorem snapshotOk (h : NodeOk H acked p rf src) {q : Fin n} {args : InstallSnapshotArgs n}
    (hreq : rf.replicationRequest q = some (.snapshot args)) :
    ∃ r, H.ChosenBy acked args.term args.lastIncludedIndex r ∧ r.term = args.lastIncludedTerm := by
  obtain ⟨x, x', hx, -, hx', hxterm⟩ := h.placeholder
  obtain ⟨hterm, hindex, hlast, -⟩ := Raft.replicationRequest_snapshot hreq
  obtain ⟨y, hy, hyterm⟩ := rf.log.get_base
  rw [hx] at hy
  rw [hterm, hindex, hlast]
  exact ⟨x', hx', by rw [hxterm, Option.some.inj hy, hyterm]⟩

/-! ## What is collected for the service -/

/-- A valid record that is collected is chosen: the placeholder is never valid. -/
theorem chosen_of_get (h : NodeOk H acked p rf src) {k : ℕ} {r : LogRecord α}
    (hk : k ≤ rf.commitIndex) (hget : rf.log.get k = some r) (hvalid : r.commandValid = true) :
    H.ChosenBy acked rf.currentTerm k r := by
  obtain ⟨hb, -⟩ := Log.bounds_of_get hget
  rcases Nat.lt_or_eq_of_le hb with hb | rfl
  · obtain ⟨r', hr', hchosen⟩ := h.chosen k hb hk
    rw [hget] at hr'
    rwa [Option.some.inj hr']
  · obtain ⟨x, -, hx, hxvalid, -⟩ := h.placeholder
    rw [hget] at hx
    rw [Option.some.inj hx, hxvalid] at hvalid
    cases hvalid

end NodeOk

end LogicRaft
