import Mathlib.Order.Bounds.Basic
import LogicRaft.Common.FirstCopies
import LogicRaft.KV.Server

/-!
# Every write is applied once

A Clerk sends a write again until it is answered, so copies of it end up at several places of the
log. The duplicate table keeps the highest `SeqId` of every client, and `applyTask` skips a write
whose `SeqId` is not above it. When the first copies of every client's writes come in the order of
their `SeqId`s this drops exactly the repeated copies (`FirstCopies.repeated_iff`), so the map is
that of the first copies alone.
-/

namespace LogicRaft

open FirstCopies

/-- The `Put` and `Append` commands of a log. -/
def writes (ops : List Op) : List Op := ops.filter Op.isWrite

/-- The first copy of every write of a log, in order. -/
def firstWrites (ops : List Op) : List Op := firstCopies Op.clientId Op.seqId (writes ops)

/-- The first copies of every client's writes come in the order of their `SeqId`s. -/
def ClerkOrder (ops : List Op) : Prop := InOrder Op.clientId Op.seqId (writes ops)

instance (ops : List Op) : Decidable (ClerkOrder ops) := inferInstanceAs (Decidable (InOrder ..))

/-- The `SeqId`s of the writes of a client. -/
def seqIds (ops : List Op) (clientId : ℤ) : Set ℤ :=
  {k | ∃ op ∈ writes ops, op.clientId = clientId ∧ op.seqId = k}

/-- The map after these writes, one after the other. -/
def KVStateMachine.ofWrites (ops : List Op) : KVStateMachine :=
  ops.foldl (fun m op => (m.applyToStateMachine op).1) .new

theorem writes_concat (ops : List Op) (op : Op) :
    writes (ops ++ [op]) = writes ops ++ if op.isWrite then [op] else [] := by
  rw [writes, List.filter_append, ← writes, List.filter_singleton, Bool.cond_eq_ite]

namespace KVStateMachine

theorem ofWrites_concat (ops : List Op) (op : Op) :
    ofWrites (ops ++ [op]) = ((ofWrites ops).applyToStateMachine op).1 := by
  rw [ofWrites, List.foldl_append, List.foldl_cons, List.foldl_nil, ← ofWrites]

/-- The keys of the map are those of the writes. -/
theorem mem_ofWrites {ops : List Op} (h : ∀ op ∈ ops, op.isWrite = true) (key : String) :
    key ∈ (ofWrites ops).kv ↔ ∃ op ∈ ops, op.key = key := by
  induction ops using List.reverseRecOn with
  | nil =>
    refine ⟨fun hkey => absurd hkey Finmap.notMem_empty, fun ⟨op, hop, _⟩ => by cases hop⟩
  | append_singleton ops op ih =>
    have hop : op.isWrite = true := h op (by simp)
    rw [ofWrites_concat, mem_applyToStateMachine _ hop, ih fun x hx => h x (by simp [hx])]
    simp only [List.mem_append, List.mem_singleton]
    constructor
    · rintro (rfl | ⟨x, hx, hkey⟩)
      · exact ⟨op, Or.inr rfl, rfl⟩
      · exact ⟨x, Or.inl hx, hkey⟩
    · rintro ⟨x, hx | rfl, hkey⟩
      · exact Or.inr ⟨x, hx, hkey⟩
      · exact Or.inl hkey.symm

end KVStateMachine

/-- The store is what the first copies of the writes make of it. -/
structure Deduplicated (st : Store) (ops : List Op) : Prop where
  stateMachine : st.stateMachine = .ofWrites (firstWrites ops)
  highest : ∀ clientId info, st.duplicateTable.lookup clientId = some info →
    IsGreatest (seqIds ops clientId) info.seqId
  absent : ∀ clientId, st.duplicateTable.lookup clientId = none → seqIds ops clientId = ∅

namespace Deduplicated

variable {st : Store} {ops : List Op} {op : Op}

/-- What the duplicate table knows: whether the client has got as far as this number. -/
theorem requestDuplicated_iff (h : Deduplicated st ops) (clientId seqId : ℤ) :
    st.requestDuplicated clientId seqId = true ↔
      ∃ b ∈ writes ops, b.clientId = clientId ∧ seqId ≤ b.seqId := by
  unfold Store.requestDuplicated
  split
  case h_1 info hinfo =>
    obtain ⟨⟨b, hb, hclient, hseq⟩, hmax⟩ := h.highest clientId info hinfo
    rw [decide_eq_true_iff]
    constructor
    · intro hle
      exact ⟨b, hb, hclient, by omega⟩
    · rintro ⟨b', hb', hclient', hle⟩
      exact hle.trans (hmax ⟨b', hb', hclient', rfl⟩)
  case h_2 hnone =>
    refine ⟨fun hfalse => (by cases hfalse), fun ⟨b, hb, hclient, _⟩ => ?_⟩
    have hmem : b.seqId ∈ seqIds ops clientId := ⟨b, hb, hclient, rfl⟩
    rw [h.absent clientId hnone] at hmem
    cases hmem

/-- The table after a new write of a client. -/
theorem insert (h : Deduplicated st ops) (hw : op.isWrite = true)
    (hnew : ¬ ∃ b ∈ writes ops, b.clientId = op.clientId ∧ op.seqId ≤ b.seqId) (reply : OpReply)
    (clientId : ℤ) :
    (∀ info, (st.duplicateTable.insert op.clientId
        { seqId := op.seqId, reply }).lookup clientId = some info →
      IsGreatest (seqIds (ops ++ [op]) clientId) info.seqId) ∧
    ((st.duplicateTable.insert op.clientId
        { seqId := op.seqId, reply }).lookup clientId = none →
      seqIds (ops ++ [op]) clientId = ∅) := by
  have hwrites : writes (ops ++ [op]) = writes ops ++ [op] := by
    rw [writes_concat, if_pos hw]
  by_cases hclient : clientId = op.clientId
  · subst hclient
    rw [Finmap.lookup_insert]
    refine ⟨fun info hinfo => ?_, fun hnone => by cases hnone⟩
    obtain rfl := Option.some.inj hinfo
    refine ⟨⟨op, by rw [hwrites]; simp, rfl, rfl⟩, ?_⟩
    rintro k ⟨b, hb, hclient, rfl⟩
    rw [hwrites] at hb
    rcases List.mem_append.mp hb with hb | hb
    · by_contra hlt
      exact hnew ⟨b, hb, hclient, by dsimp only at hlt; omega⟩
    · rw [List.mem_singleton.mp hb]
  · rw [Finmap.lookup_insert_of_ne _ hclient]
    have hsame : seqIds (ops ++ [op]) clientId = seqIds ops clientId := by
      ext k
      simp only [seqIds, hwrites, Set.mem_ofPred_eq]
      constructor
      · rintro ⟨b, hb, hb', hk⟩
        rcases List.mem_append.mp hb with hb | hb
        · exact ⟨b, hb, hb', hk⟩
        · rw [List.mem_singleton.mp hb] at hb'
          exact absurd hb'.symm hclient
      · rintro ⟨b, hb, hb', hk⟩
        exact ⟨b, List.mem_append_left _ hb, hb', hk⟩
    rw [hsame]
    exact ⟨fun info => h.highest clientId info, h.absent clientId⟩

/-- A repeated copy adds no `SeqId`. -/
theorem seqIds_repeated (hw : op.isWrite = true)
    (hold : ∃ b ∈ writes ops, Copies Op.clientId Op.seqId op b) (clientId : ℤ) :
    seqIds (ops ++ [op]) clientId = seqIds ops clientId := by
  obtain ⟨b, hb, hclient, hseq⟩ := hold
  ext k
  simp only [seqIds, writes_concat, if_pos hw, List.mem_append, List.mem_singleton,
    Set.mem_ofPred_eq]
  constructor
  · rintro ⟨x, hx | rfl, hx', hk⟩
    · exact ⟨x, hx, hx', hk⟩
    · exact ⟨b, hb, hclient.symm.trans hx', hseq.symm.trans hk⟩
  · rintro ⟨x, hx, hx'⟩
    exact ⟨x, Or.inl hx, hx'⟩

/-- One command more. -/
theorem applyOp (h : Deduplicated st ops) (horder : ClerkOrder (ops ++ [op])) :
    Deduplicated (st.applyOp op).1 (ops ++ [op]) := by
  by_cases hw : op.isWrite = true
  · have hwrites : writes (ops ++ [op]) = writes ops ++ [op] := by
      rw [writes_concat, if_pos hw]
    unfold ClerkOrder at horder
    rw [hwrites] at horder
    have hdup := h.requestDuplicated_iff op.clientId op.seqId
    rw [← repeated_iff horder] at hdup
    have hfirst : firstWrites (ops ++ [op]) = if ∃ b ∈ writes ops, Copies Op.clientId Op.seqId op b
        then firstWrites ops else firstWrites ops ++ [op] := by
      rw [firstWrites, hwrites, firstCopies_append, ← firstWrites]
    by_cases hold : ∃ b ∈ writes ops, Copies Op.clientId Op.seqId op b
    · rw [st.applyOp_duplicate hw (hdup.mpr hold)]
      refine ⟨?_, fun c info hinfo => ?_, fun c hnone => ?_⟩
      · rw [hfirst, if_pos hold]
        exact h.stateMachine
      · rw [seqIds_repeated hw hold]
        exact h.highest c info hinfo
      · rw [seqIds_repeated hw hold]
        exact h.absent c hnone
    · have hnew := mt (repeated_iff horder).mpr hold
      rw [st.applyOp_write hw (by rw [← Bool.not_eq_true, hdup]; exact hold)]
      refine ⟨?_, fun c info hinfo => ?_, fun c hnone => ?_⟩
      · rw [hfirst, if_neg hold, KVStateMachine.ofWrites_concat, ← h.stateMachine]
      · exact (h.insert hw hnew _ c).1 info hinfo
      · exact (h.insert hw hnew _ c).2 hnone
  · have hwrites : writes (ops ++ [op]) = writes ops := by
      rw [writes_concat, if_neg hw, List.append_nil]
    rw [st.applyOp_get (by simpa using hw)]
    refine ⟨?_, ?_, ?_⟩
    · rw [firstWrites, hwrites]
      exact h.stateMachine
    · simp only [seqIds, hwrites]
      exact h.highest
    · simp only [seqIds, hwrites]
      exact h.absent

end Deduplicated

theorem ClerkOrder.of_append {ops ops' : List Op} (h : ClerkOrder (ops ++ ops')) :
    ClerkOrder ops := by
  unfold ClerkOrder writes at h ⊢
  rw [List.filter_append] at h
  exact h.of_append

/-- The whole log. -/
theorem deduplicated_replay {ops : List Op} (h : ClerkOrder ops) :
    Deduplicated (Store.replay ops) ops := by
  induction ops using List.reverseRecOn with
  | nil =>
    refine ⟨rfl, fun c info hinfo => ?_, fun c _ => ?_⟩
    · rw [Store.replay_nil] at hinfo
      cases hinfo
    · ext k
      simp [seqIds, writes]
  | append_singleton ops op ih =>
    rw [Store.replay_append]
    exact (ih h.of_append).applyOp h

/-! ## The server -/

/-- One round of `applyTask` with a command. -/
structure Round where
  isLeader : Bool
  raftStateSize : ℕ
  index : ℕ
  op : Op

def Round.message (r : Round) : ApplyMsg Op := commandMsg r.index r.op

namespace KVServer

/-- Nobody has asked for the channel of an index that is still to come. -/
def NoneAhead (kv : KVServer) : Prop := ∀ index ∈ kv.notifyChans, index ≤ kv.lastApplied

theorem NoneAhead.of_empty {kv : KVServer} (h : kv.notifyChans = ∅) : kv.NoneAhead := by
  intro index hmem
  rw [h] at hmem
  exact absurd hmem Finmap.notMem_empty

/-- Without a channel for the index, a new one takes the reply. -/
theorem notify_of_notMem (kv : KVServer) {index : ℕ} (h : index ∉ kv.notifyChans)
    (isLeader : Bool) (opReply : OpReply) :
    kv.notify isLeader index opReply = .ok (if isLeader then
      { kv with
        notifyChans := kv.notifyChans.insert index kv.chans.length
        chans := kv.chans ++ [some opReply] } else kv) := by
  cases isLeader with
  | false => rfl
  | true =>
    simp [notify, getNotifyChannel, Finmap.lookup_eq_none.mpr h, send]

variable [KVGob]

/-- A round with the next command ends, with the reply in the channel of its index. -/
theorem applyTask_round {kv : KVServer} (hahead : kv.NoneAhead) {r : Round}
    (hindex : kv.lastApplied < r.index) :
    ∃ kv' call, kv.applyTask r.isLeader r.raftStateSize r.message = .ok (kv', call) ∧
      kv'.toStore = (kv.toStore.applyOp r.op).1 ∧ kv'.lastApplied = r.index ∧ kv'.NoneAhead ∧
      (r.isLeader = true → kv'.buffer r.index = some (kv.toStore.applyOp r.op).2) := by
  have hnone : r.index ∉ (kv.execute r.index r.op).notifyChans :=
    fun hmem => absurd (hahead _ hmem) (by omega)
  have hround : kv.applyTask r.isLeader r.raftStateSize r.message = _ :=
    kv.applyTask_command r.isLeader r.raftStateSize rfl rfl hindex
  rw [show r.message.commandIndex = r.index from rfl, notify_of_notMem _ hnone] at hround
  refine ⟨_, _, hround, ?_⟩
  cases r.isLeader with
  | false =>
    refine ⟨rfl, rfl, fun index hmem => ?_, fun hfalse => by cases hfalse⟩
    exact (hahead index hmem).trans (Nat.le_of_lt hindex)
  | true =>
    refine ⟨rfl, rfl, fun index hmem => ?_, fun _ => ?_⟩
    · rcases Finmap.mem_insert.mp hmem with rfl | hmem
      · exact Nat.le_refl _
      · exact (hahead index hmem).trans (Nat.le_of_lt hindex)
    · simp [buffer]

/-- The rounds of `applyTask` with these commands. -/
def applyAll (kv : KVServer) : List Round → Except Fault KVServer
  | [] => .ok kv
  | r :: rs =>
    match kv.applyTask r.isLeader r.raftStateSize r.message with
    | .ok (kv', _) => kv'.applyAll rs
    | .error fault => .error fault

/-- Commands with increasing indices are all applied, and nothing blocks. -/
theorem applyAll_store {kv : KVServer} (hahead : kv.NoneAhead) {rs : List Round}
    (hindex : (kv.lastApplied :: rs.map Round.index).Pairwise (· < ·)) :
    ∃ kv', kv.applyAll rs = .ok kv' ∧ kv'.NoneAhead ∧
      kv'.toStore = (rs.map Round.op).foldl (fun st op => (st.applyOp op).1) kv.toStore ∧
      kv'.lastApplied ∈ kv.lastApplied :: rs.map Round.index := by
  induction rs generalizing kv with
  | nil => exact ⟨kv, rfl, hahead, rfl, List.mem_cons_self ..⟩
  | cons r rs ih =>
    rw [List.map_cons, List.pairwise_cons] at hindex
    obtain ⟨kv₁, call, hround, hstore, hlast, hahead₁, -⟩ :=
      applyTask_round hahead (hindex.1 r.index (by simp))
    rw [← hlast] at hindex
    obtain ⟨kv', hall, hahead', hstore', hlast'⟩ := ih hahead₁ hindex.2
    refine ⟨kv', ?_, hahead', ?_, ?_⟩
    · rw [applyAll, hround]
      exact hall
    · rw [hstore', hstore]
      rfl
    · rw [hlast] at hlast'
      exact List.mem_cons_of_mem _ hlast'

end KVServer

theorem firstWrites_isWrite {ops : List Op} {op : Op} (h : op ∈ firstWrites ops) :
    op.isWrite = true := by
  have hmem : op ∈ writes ops := (firstCopies_sublist _).subset h
  exact (List.mem_filter.mp hmem).2

theorem exists_mem_firstWrites {ops : List Op} {op : Op} (h : op ∈ writes ops) :
    ∃ b ∈ firstWrites ops, Copies Op.clientId Op.seqId op b :=
  (exists_mem_firstCopies_iff _ _).mpr ⟨op, h, rfl, rfl⟩

/-- If the copies of a write are alike, a key is in the map as soon as some copy of a write of it
came. -/
theorem mem_ofWrites_firstWrites {ops : List Op}
    (hcopies : ∀ a ∈ writes ops, ∀ b ∈ writes ops, Copies Op.clientId Op.seqId a b → a = b)
    (key : String) :
    key ∈ (KVStateMachine.ofWrites (firstWrites ops)).kv ↔ ∃ op ∈ writes ops, op.key = key := by
  rw [KVStateMachine.mem_ofWrites fun op hop => firstWrites_isWrite hop]
  constructor
  · rintro ⟨op, hop, hkey⟩
    exact ⟨op, (firstCopies_sublist _).subset hop, hkey⟩
  · rintro ⟨op, hop, hkey⟩
    obtain ⟨b, hb, hab⟩ := exists_mem_firstWrites hop
    obtain rfl := hcopies op hop b ((firstCopies_sublist _).subset hb) hab
    exact ⟨op, hb, hkey⟩

/-- `applyTask` gets commands with increasing indices, in which the first copies of every client's
writes come in the order of their `SeqId`s and copies are alike. Then the map is that of the first
copies alone, each applied once; the table has the highest `SeqId` of every client; and a `Get` is
answered from the map of the first copies before it. -/
theorem exactly_once [KVGob] (maxraftstate : ℤ) (rs : List Round)
    (hindex : (0 :: rs.map Round.index).Pairwise (· < ·)) (horder : ClerkOrder (rs.map Round.op))
    (hcopies : ∀ a ∈ writes (rs.map Round.op), ∀ b ∈ writes (rs.map Round.op),
      Copies Op.clientId Op.seqId a b → a = b) :
    ∃ kv, KVServer.applyAll { maxraftstate } rs = .ok kv ∧
      kv.stateMachine = .ofWrites (firstWrites (rs.map Round.op)) ∧
      (firstWrites (rs.map Round.op)).Pairwise (fun a b => ¬ Copies Op.clientId Op.seqId b a) ∧
      (∀ op ∈ writes (rs.map Round.op), op ∈ firstWrites (rs.map Round.op)) ∧
      (∀ clientId info, kv.duplicateTable.lookup clientId = some info →
        IsGreatest (seqIds (rs.map Round.op) clientId) info.seqId) ∧
      (∀ clientId, kv.duplicateTable.lookup clientId = none →
        seqIds (rs.map Round.op) clientId = ∅) ∧
      ∀ pre r post, rs = pre ++ r :: post → r.op.isWrite = false →
        ∃ kv₁ kv₂ call, KVServer.applyAll { maxraftstate } pre = .ok kv₁ ∧
          kv₁.applyTask r.isLeader r.raftStateSize r.message = .ok (kv₂, call) ∧
          ∃ opReply : OpReply, (r.isLeader = true → kv₂.buffer r.index = some opReply) ∧
            (opReply.value, opReply.err) =
              (KVStateMachine.ofWrites (firstWrites (pre.map Round.op))).get r.op.key ∧
            (opReply.err = .errNoKey ↔ ∀ op ∈ writes (pre.map Round.op), op.key ≠ r.op.key) := by
  have hahead : KVServer.NoneAhead { maxraftstate } := .of_empty rfl
  obtain ⟨kv, hall, -, hstore, -⟩ := KVServer.applyAll_store hahead hindex
  have hdedup := deduplicated_replay horder
  rw [show Store.replay (rs.map Round.op) = kv.toStore from hstore.symm] at hdedup
  refine ⟨kv, hall, hdedup.stateMachine, pairwise_firstCopies _, fun op hop => ?_, hdedup.highest,
    hdedup.absent, ?_⟩
  · obtain ⟨b, hb, hab⟩ := exists_mem_firstWrites hop
    rwa [hcopies op hop b ((firstCopies_sublist _).subset hb) hab]
  · rintro pre r post rfl hget
    rw [List.map_append, ← List.cons_append] at hindex
    rw [List.map_append] at horder
    obtain ⟨hpre, -, hbefore⟩ := List.pairwise_append.mp hindex
    obtain ⟨kv₁, hall₁, hahead₁, hstore₁, hlast₁⟩ := KVServer.applyAll_store hahead hpre
    have hdedup₁ := deduplicated_replay horder.of_append
    rw [show Store.replay (pre.map Round.op) = kv₁.toStore from hstore₁.symm] at hdedup₁
    obtain ⟨kv₂, call, hround, -, -, -, hbuffer⟩ :=
      KVServer.applyTask_round hahead₁ (hbefore _ hlast₁ r.index (by simp))
    refine ⟨kv₁, kv₂, call, hall₁, hround, _, hbuffer, ?_⟩
    rw [kv₁.toStore.applyOp_get hget, ← hdedup₁.stateMachine]
    refine ⟨rfl, ?_⟩
    show (kv₁.stateMachine.get r.op.key).2 = .errNoKey ↔ _
    have hsub : writes (pre.map Round.op) ⊆ writes ((pre ++ r :: post).map Round.op) := by
      rw [List.map_append, writes, writes, List.filter_append]
      exact List.subset_append_left _ _
    rw [KVStateMachine.get_eq_errNoKey_iff, hdedup₁.stateMachine,
      mem_ofWrites_firstWrites fun a ha b hb => hcopies a (hsub ha) b (hsub hb)]
    simp only [not_exists, not_and, ne_eq]

/-- The append of client `1` comes three times, the last time after its next one. -/
def retriedRounds : List Round := [
  ⟨true, 0, 1, { key := "k", value := "a", opType := .opAppend, clientId := 1, seqId := 0 }⟩,
  ⟨true, 0, 2, { key := "k", value := "x", opType := .opAppend, clientId := 2, seqId := 0 }⟩,
  ⟨false, 0, 4, { key := "k", value := "a", opType := .opAppend, clientId := 1, seqId := 0 }⟩,
  ⟨true, 0, 5, { key := "k", value := "b", opType := .opAppend, clientId := 1, seqId := 1 }⟩,
  ⟨true, 0, 6, { key := "k", value := "a", opType := .opAppend, clientId := 1, seqId := 0 }⟩,
  ⟨true, 0, 7, { key := "k", opType := .opGet }⟩]

theorem exactly_once_retried : ∃ kv : KVServer, KVServer.applyAll {} retriedRounds = .ok kv ∧
    kv.stateMachine.get "k" = ("axb", .ok) := by
  obtain ⟨kv, hall, hmap, -⟩ := exactly_once (-1) retriedRounds (by decide) (by decide +kernel)
    (by decide +kernel)
  exact ⟨kv, hall, by rw [hmap]; decide +kernel⟩

end LogicRaft
