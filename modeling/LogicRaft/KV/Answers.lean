import LogicRaft.KV.ExactlyOnce
import LogicRaft.KV.Requests

/-!
# Whose answer a client gets

A handler waits on the channel of the index that `Start` returned; the term that `Start` returned is
thrown away. The entry may be replaced before it is committed, and a server that leads again by then
sends the result of the other command into the same channel (`stolen_answer`). If `applyTask`
notifies only while the term of everyone who waits for the index is the current one, every handler
is answered with the result of its own command (`own_answer`): in one term a leader only adds to its
log.
-/

namespace LogicRaft

/-- `opReply` is the result of the command at `index`, which is `op`. -/
def Answer (ops : List Op) (index : ℕ) (op : Op) (opReply : OpReply) : Prop :=
  ∃ k, index = k + 1 ∧ ops[k]? = some op ∧
    opReply = ((Store.replay (ops.take k)).applyOp op).2

theorem Answer.mono {ops ops' : List Op} {index : ℕ} {op : Op} {opReply : OpReply}
    (h : Answer ops index op opReply) (hpre : ops <+: ops') : Answer ops' index op opReply := by
  obtain ⟨k, rfl, hop, rfl⟩ := h
  obtain ⟨tail, rfl⟩ := hpre
  obtain ⟨hlt, -⟩ := List.getElem?_eq_some_iff.mp hop
  refine ⟨k, rfl, ?_, ?_⟩
  · rw [List.getElem?_append_left hlt, hop]
  · rw [List.take_append_of_le_length (Nat.le_of_lt hlt)]

theorem seqIds_mono {ops ops' : List Op} (hpre : ops <+: ops') (clientId : ℤ) :
    seqIds ops clientId ⊆ seqIds ops' clientId := by
  rintro k ⟨op, hop, hk⟩
  exact ⟨op, (hpre.filter _).subset hop, hk⟩

/-- What the duplicate table knows of a client was written by the client. -/
theorem exists_seqId_of_lookup {ops : List Op} {clientId : ℤ} {info : LastOperationInfo}
    (h : (Store.replay ops).duplicateTable.lookup clientId = some info) :
    info.seqId ∈ seqIds ops clientId := by
  induction ops using List.reverseRecOn with
  | nil => cases h
  | append_singleton ops op ih =>
    have hsub := seqIds_mono (List.prefix_append ops [op]) clientId
    rw [Store.replay_append] at h
    cases hw : op.isWrite with
    | false =>
      rw [Store.applyOp_get _ hw] at h
      exact hsub (ih h)
    | true =>
      cases hdup : (Store.replay ops).requestDuplicated op.clientId op.seqId with
      | true =>
        rw [Store.applyOp_duplicate _ hw hdup] at h
        exact hsub (ih h)
      | false =>
        rw [Store.applyOp_write _ hw hdup] at h
        by_cases hclient : clientId = op.clientId
        · subst hclient
          obtain rfl := Option.some.inj ((Finmap.lookup_insert _).symm.trans h)
          exact ⟨op, by rw [writes_concat, if_pos hw]; simp, rfl, rfl⟩
        · exact hsub (ih ((Finmap.lookup_insert_of_ne _ hclient).symm.trans h))

theorem exists_seqId_of_duplicated {ops : List Op} {clientId seqId : ℤ}
    (h : (Store.replay ops).requestDuplicated clientId seqId = true) :
    ∃ k ∈ seqIds ops clientId, seqId ≤ k := by
  unfold Store.requestDuplicated at h
  split at h
  case h_1 info hinfo => exact ⟨_, exists_seqId_of_lookup hinfo, of_decide_eq_true h⟩
  case h_2 => cases h

/-! ## What handlers may rely on -/

/-- Only writes come from `PutAppend`. -/
theorem Request.isWrite_of_op? {args : PutAppendArgs} {op : Op}
    (h : (Request.putAppend args).op? = some op) :
    op.isWrite = true ∧ op.clientId = args.clientId ∧ op.seqId = args.seqId := by
  obtain ⟨opType, hopType, rfl⟩ := Option.map_eq_some_iff.mp h
  refine ⟨decide_eq_true ?_, rfl, rfl⟩
  rintro rfl
  unfold getOperationType at hopType
  split_ifs at hopType <;> cases hopType

/-- In the term in which `Start` accepted it, a leader has the command of the handler at the index
of the handler. -/
def Handler.Owed (h : Handler) (rf : RaftView) : Prop :=
  ∀ index term, h.pending? = some (index, term) →
    ∃ op k, h.request.op? = some op ∧ index = k + 1 ∧ term ≤ rf.term ∧
      (term = rf.term → rf.isLeader = true → rf.log[k]? = some op)

/-- A reply is an error of the handler, or the result of its command; or the client has written with
a `SeqId` that is not smaller. -/
def Request.Honest (request : Request) (applied : List Op) : Stage → Prop
  | .replied none reply _ => reply.err = .errWrongLeader ∨
      ∃ args, request = .putAppend args ∧ ∃ k ∈ seqIds applied args.clientId, args.seqId ≤ k
  | .replied (some (index, _)) reply _ => reply.err = .errTimeout ∨
      ∃ op opReply, request.op? = some op ∧ Answer applied index op opReply ∧
        reply = request.answer opReply
  | _ => True

theorem Handler.Owed.mono {h : Handler} {rf rf' : RaftView} (howed : h.Owed rf)
    (hle : rf.Le rf') : h.Owed rf' := by
  intro index term hpending
  obtain ⟨op, k, hop, hk, hterm, hlog⟩ := howed index term hpending
  refine ⟨op, k, hop, hk, hterm.trans hle.term, fun heq hleader => ?_⟩
  have hsame : rf'.term = rf.term := Nat.le_antisymm (heq ▸ hterm) hle.term
  obtain ⟨hleads, tail, hlog'⟩ := hle.leads hsame hleader
  have hget := hlog (heq.trans hsame) hleads
  rw [← hlog', List.getElem?_append_left (List.getElem?_eq_some_iff.mp hget).1, hget]

theorem Handler.Owed.of_pending_eq_none {h : Handler} {rf : RaftView} (hnone : h.pending? = none) :
    h.Owed rf := by
  intro index term hpending
  rw [hnone] at hpending
  cases hpending

theorem Request.Honest.mono {request : Request} {ops ops' : List Op} {stage : Stage}
    (h : request.Honest ops stage) (hpre : ops <+: ops') : request.Honest ops' stage := by
  match stage with
  | .replied none reply cleanup =>
    exact h.imp_right fun ⟨args, hargs, k, hk, hle⟩ => ⟨args, hargs, k, seqIds_mono hpre _ hk, hle⟩
  | .replied (some (index, term)) reply cleanup =>
    exact h.imp_right fun ⟨op, opReply, hop, hanswer, hreply⟩ =>
      ⟨op, opReply, hop, hanswer.mono hpre, hreply⟩
  | .called | .starting | .started .. | .waiting .. => trivial

/-! ## Channels -/

/-- Every channel has an index. A result in it is that of the command at the index, and everyone who
waits for the index has submitted that command. -/
structure ChansOk (owner : List ℕ) (applied : List Op) (kv : KVServer) (handlers : List Handler) :
    Prop where
  length : owner.length = kv.chans.length
  lookup : ∀ index ch, kv.notifyChans.lookup index = some ch → owner[ch]? = some index
  waiting : ∀ h ∈ handlers, ∀ index term ch, h.stage = .waiting index term ch →
    owner[ch]? = some index
  full : ∀ (ch : ℕ) opReply, kv.chans[ch]? = some (some opReply) →
    ∃ index op, owner[ch]? = some index ∧ Answer applied index op opReply ∧
      ∀ h ∈ handlers, ∀ term, h.pending? = some (index, term) → h.request.op? = some op

namespace ChansOk

variable {owner : List ℕ} {ops ops' : List Op} {kv : KVServer} {handlers handlers' : List Handler}

/-- A server that has just started has no channels. -/
theorem fresh (hmap : kv.notifyChans = ∅) (hchans : kv.chans = []) : ChansOk [] ops kv [] where
  length := by rw [hchans]; rfl
  lookup index ch hch := by
    rw [hmap] at hch
    cases hch
  waiting x hx := by cases hx
  full ch opReply hch := by
    rw [hchans] at hch
    cases hch

theorem mono (h : ChansOk owner ops kv handlers) (hpre : ops <+: ops') :
    ChansOk owner ops' kv handlers := by
  refine ⟨h.length, h.lookup, h.waiting, fun ch opReply hch => ?_⟩
  obtain ⟨index, op, howner, hanswer, hall⟩ := h.full ch opReply hch
  exact ⟨index, op, howner, hanswer.mono hpre, hall⟩

/-- Handlers may move on: those that wait do so on the channel of their index, and those that are
new to an index come before its result. -/
theorem move (h : ChansOk owner ops kv handlers)
    (hwaiting : ∀ x ∈ handlers', ∀ index term ch, x.stage = .waiting index term ch →
      x ∈ handlers ∨ owner[ch]? = some index)
    (hpending : ∀ x ∈ handlers', ∀ index term, x.pending? = some (index, term) →
      (∃ y ∈ handlers, y.pending? = some (index, term) ∧ y.request = x.request) ∨
        ops.length < index) :
    ChansOk owner ops kv handlers' := by
  refine ⟨h.length, h.lookup, fun x hx index term ch hstage => ?_, fun ch opReply hch => ?_⟩
  · rcases hwaiting x hx index term ch hstage with hold | howner
    · exact h.waiting x hold index term ch hstage
    · exact howner
  · obtain ⟨index, op, howner, hanswer, hall⟩ := h.full ch opReply hch
    refine ⟨index, op, howner, hanswer, fun x hx term hx' => ?_⟩
    rcases hpending x hx index term hx' with ⟨y, hy, hy', hrequest⟩ | hlt
    · rw [← hrequest]
      exact hall y hy term hy'
    · obtain ⟨k, rfl, hop, -⟩ := hanswer
      have := (List.getElem?_eq_some_iff.mp hop).1
      omega

/-- Handlers that do not wait do not matter. -/
theorem forget (h : ChansOk owner ops kv handlers)
    (hsub : ∀ x ∈ handlers', x ∈ handlers ∨ x.pending? = none) :
    ChansOk owner ops kv handlers' := by
  apply h.move
  · intro x hx index term ch hstage
    refine (hsub x hx).imp_right fun hnone => ?_
    rw [Handler.pending?, hstage] at hnone
    cases hnone
  · intro x hx index term hpending
    rcases hsub x hx with hold | hnone
    · exact Or.inl ⟨x, hold, hpending, rfl⟩
    · rw [hnone] at hpending
      cases hpending

/-- The channel of an index is made when it is first asked for. -/
theorem getNotifyChannel (h : ChansOk owner ops kv handlers) (index : ℕ) :
    ∃ owner', ChansOk owner' ops (kv.getNotifyChannel index).1 handlers ∧
      owner'[(kv.getNotifyChannel index).2]? = some index := by
  unfold KVServer.getNotifyChannel
  split
  case h_1 ch hch => exact ⟨owner, h, h.lookup index ch hch⟩
  case h_2 hnone =>
    have hold : ∀ (ch i : ℕ), owner[ch]? = some i → (owner ++ [index])[ch]? = some i := by
      intro ch i hch
      rw [List.getElem?_append_left (List.getElem?_eq_some_iff.mp hch).1, hch]
    have hnew : (owner ++ [index])[kv.chans.length]? = some index := by
      rw [← h.length, List.getElem?_concat_length]
    refine ⟨owner ++ [index], ⟨?_, ?_, ?_, ?_⟩, hnew⟩
    · rw [List.length_append, List.length_append, h.length]
      rfl
    · intro i ch hch
      by_cases hi : i = index
      · subst hi
        obtain rfl := Option.some.inj ((Finmap.lookup_insert _).symm.trans hch)
        exact hnew
      · exact hold ch i (h.lookup i ch ((Finmap.lookup_insert_of_ne _ hi).symm.trans hch))
    · intro x hx i term ch hstage
      exact hold ch i (h.waiting x hx i term ch hstage)
    · intro ch opReply hch
      -- the new channel is empty
      have hlt : ch < kv.chans.length := by
        by_contra hge
        rw [List.getElem?_append_right (Nat.not_lt.mp hge)] at hch
        simp [List.getElem?_singleton] at hch
      rw [List.getElem?_append_left hlt] at hch
      obtain ⟨i, op, howner, hrest⟩ := h.full ch opReply hch
      exact ⟨i, op, hold ch i howner, hrest⟩

/-- A channel is filled with the result of its index, or emptied. -/
theorem set (h : ChansOk owner ops kv handlers) (ch : ℕ) (c : Option OpReply)
    (hc : ∀ opReply, c = some opReply → ∃ index op, owner[ch]? = some index ∧
      Answer ops index op opReply ∧
      ∀ x ∈ handlers, ∀ term, x.pending? = some (index, term) → x.request.op? = some op) :
    ChansOk owner ops { kv with chans := kv.chans.set ch c } handlers := by
  refine ⟨h.length.trans (List.length_set ..).symm, h.lookup, h.waiting, fun ch' opReply hch' => ?_⟩
  by_cases heq : ch = ch'
  · subst heq
    rw [List.getElem?_set_self'] at hch'
    obtain ⟨_, _, hopReply⟩ := Option.map_eq_some_iff.mp hch'
    exact hc opReply hopReply
  · rw [List.getElem?_set_ne heq] at hch'
    exact h.full ch' opReply hch'

theorem notify (h : ChansOk owner ops kv handlers) {kv' : KVServer} {isLeader : Bool} {index : ℕ}
    {op : Op} {opReply : OpReply} (hanswer : Answer ops index op opReply)
    (hall : isLeader = true → ∀ x ∈ handlers, ∀ term, x.pending? = some (index, term) →
      x.request.op? = some op)
    (hnotify : kv.notify isLeader index opReply = .ok kv') :
    ∃ owner', ChansOk owner' ops kv' handlers := by
  unfold KVServer.notify at hnotify
  split at hnotify
  case isTrue hleader =>
    obtain ⟨owner', hok, howner⟩ := h.getNotifyChannel index
    obtain ⟨-, rfl⟩ := KVServer.send_spec hnotify
    refine ⟨owner', hok.set _ _ fun r hr => ?_⟩
    obtain rfl := Option.some.inj hr
    exact ⟨index, op, howner, hanswer, hall hleader⟩
  case isFalse =>
    obtain rfl := Except.ok.inj hnotify
    exact ⟨owner, h⟩

theorem removeNotifyChannel (h : ChansOk owner ops kv handlers) (index : ℕ) :
    ChansOk owner ops (kv.removeNotifyChannel index) handlers := by
  refine ⟨h.length, fun i ch hch => ?_, h.waiting, h.full⟩
  by_cases hi : i = index
  · subst hi
    exact absurd ((Finmap.lookup_erase _ _).symm.trans hch) (by simp)
  · exact h.lookup i ch ((Finmap.lookup_erase_ne hi).symm.trans hch)

end ChansOk

/-! ## The invariant -/

/-- What holds in every state of a run. -/
structure KVNode.Ok (s : KVNode) [KVGob] : Prop where
  replica : ReplicaOk s.raft.committed s.replica
  position_le : s.replica.position ≤ s.raft.commitIndex
  base_le : s.replica.base ≤ s.raft.commitIndex
  owed : ∀ h ∈ s.handlers, h.Owed s.raft
  honest : ∀ h ∈ s.handlers, h.request.Honest s.applied h.stage
  chans : ∃ owner, ChansOk owner s.applied s.replica.kv s.handlers

/-- `applyTask` notifies a handler only in the term in which `Start` accepted its command. -/
def KVNode.SameTerm (s : KVNode) : KVAction → Prop
  | .command _ => s.raft.isLeader = true → ∀ h ∈ s.handlers, ∀ x ∈ h.pending?,
      x.1 = s.replica.position + 1 → x.2 = s.raft.term
  | _ => True

instance (s : KVNode) (a : KVAction) : Decidable (s.SameTerm a) := by
  unfold KVNode.SameTerm
  split <;> infer_instance

/-- A step of a handler leaves the store and the committed commands alone. -/
theorem Handler.Runs.frame {h : Handler} {rf rf' : RaftView} {kv kv' : KVServer} {stage : Stage}
    (hruns : h.Runs rf kv rf' kv' stage) :
    rf.Le rf' ∧ rf'.committed = rf.committed ∧ rf'.commitIndex = rf.commitIndex ∧
      kv'.toStore = kv.toStore ∧ kv'.lastApplied = kv.lastApplied := by
  have hrefl : rf.Le rf :=
    ⟨List.prefix_refl _, Nat.le_refl _, fun _ hleader => ⟨hleader, List.prefix_refl _⟩⟩
  cases hruns with
  | accepted _ hstart =>
    exact ⟨RaftView.le_start hstart, RaftView.committed_start hstart,
      (RaftView.start_spec hstart).2.2.2.2.1, rfl, rfl⟩
  | registered => exact ⟨hrefl, rfl, rfl, kv.getNotifyChannel_store _⟩
  | _ => exact ⟨hrefl, rfl, rfl, rfl, rfl⟩

section

variable [KVGob]

/-- More commands are committed. -/
theorem ReplicaOk.mono {ops ops' : List Op} {r : Replica} (h : ReplicaOk ops r)
    (hposition : r.position ≤ ops.length) (hbase : r.base ≤ ops.length) (hpre : ops <+: ops') :
    ReplicaOk ops' r := by
  obtain ⟨tail, rfl⟩ := hpre
  refine ⟨?_, h.applied_le, ?_⟩
  · rw [List.take_append_of_le_length hposition]
    exact h.store
  · rw [List.take_append_of_le_length hbase]
    exact h.saved

namespace KVNode.Ok

variable {s : KVNode}

theorem raft (h : s.Ok) {rf : RaftView} (hle : s.raft.Le rf) : Ok { s with raft := rf } := by
  have hlen := s.raft.length_committed
  have hcommit : s.raft.commitIndex ≤ rf.commitIndex := by
    rw [← hlen, ← rf.length_committed]
    exact hle.committed.length_le
  have happlied : s.applied <+: applied { s with raft := rf } := hle.committed.take _
  obtain ⟨owner, hchans⟩ := h.chans
  exact {
    replica := h.replica.mono (hlen ▸ h.position_le) (hlen ▸ h.base_le) hle.committed
    position_le := h.position_le.trans hcommit
    base_le := h.base_le.trans hcommit
    owed := fun x hx => (h.owed x hx).mono hle
    honest := fun x hx => (h.honest x hx).mono happlied
    chans := ⟨owner, hchans.mono happlied⟩ }

/-- What the step of a handler owes Raft, and what it says. -/
theorem owed_honest (h : s.Ok) {hd : Handler} (hmem : hd ∈ s.handlers) {rf : RaftView}
    {kv : KVServer} {stage : Stage} (hruns : hd.Runs s.raft s.replica.kv rf kv stage) :
    Handler.Owed { hd with stage } rf ∧ hd.request.Honest s.applied stage := by
  cases hruns with
  | @duplicate args hdup =>
    refine ⟨.of_pending_eq_none rfl, Or.inr ⟨args, rfl, ?_⟩⟩
    rw [h.replica.store] at hdup
    exact exists_seqId_of_duplicated hdup
  | fresh => exact ⟨.of_pending_eq_none rfl, trivial⟩
  | @accepted request op _ index term hop hstart =>
    refine ⟨fun i t hpending => ?_, trivial⟩
    obtain ⟨rfl, rfl⟩ := Prod.mk.inj (Option.some.inj hpending)
    obtain ⟨hindex, hterm, -, hterm', -, hlog⟩ := RaftView.start_spec hstart
    refine ⟨op, s.raft.log.length, hop, hindex, Nat.le_of_eq (hterm.trans hterm'.symm),
      fun _ _ => ?_⟩
    rw [hlog, List.getElem?_concat_length]
  | refused => exact ⟨.of_pending_eq_none rfl, Or.inl rfl⟩
  | registered =>
    have howed := h.owed _ hmem
    exact ⟨howed, trivial⟩
  | @received request index term ch opReply hch =>
    refine ⟨.of_pending_eq_none rfl, Or.inr ?_⟩
    obtain ⟨owner, hchans⟩ := h.chans
    obtain ⟨i, op, howner, hanswer, hall⟩ := hchans.full ch opReply hch
    -- the channel is that of the index the handler waits for
    obtain rfl : i = index :=
      Option.some.inj (howner.symm.trans (hchans.waiting _ hmem index term ch rfl))
    exact ⟨op, opReply, hall _ hmem term rfl, hanswer, rfl⟩
  | cleaned => exact ⟨.of_pending_eq_none rfl, h.honest _ hmem⟩

/-- What the step of a handler does to the channels. -/
theorem chans_run (h : s.Ok) {hd : Handler} {j : ℕ} (hj : s.handlers[j]? = some hd)
    {rf : RaftView} {kv : KVServer} {stage : Stage}
    (hruns : hd.Runs s.raft s.replica.kv rf kv stage) :
    ∃ owner, ChansOk owner s.applied kv (s.handlers.set j { hd with stage }) := by
  have hmem := List.mem_of_getElem? hj
  obtain ⟨owner, hchans⟩ := h.chans
  have hset : ∀ x ∈ s.handlers.set j { hd with stage }, x ∈ s.handlers ∨ x = { hd with stage } :=
    fun x hx => List.mem_or_eq_of_mem_set hx
  -- the handler does not wait afterwards
  have hdone : ∀ {kv}, ChansOk owner s.applied kv s.handlers →
      Handler.pending? { hd with stage } = none →
      ∃ owner, ChansOk owner s.applied kv (s.handlers.set j { hd with stage }) := by
    intro kv hkv hnone
    refine ⟨owner, hkv.forget fun x hx => (hset x hx).imp_right ?_⟩
    rintro rfl
    exact hnone
  cases hruns with
  | duplicate | fresh | refused => exact hdone hchans rfl
  | received => exact hdone (hchans.set _ none fun r hr => by cases hr) rfl
  | cleaned => exact hdone (hchans.removeNotifyChannel _) rfl
  | @accepted request op _ index term _ hstart =>
    refine ⟨owner, hchans.move (fun x hx i t ch hstage => ?_) fun x hx i t hpending => ?_⟩
    · rcases hset x hx with hold | rfl
      · exact Or.inl hold
      · cases hstage
    · rcases hset x hx with hold | rfl
      · exact Or.inl ⟨x, hold, hpending, rfl⟩
      · -- a new index is behind everything that was applied
        obtain ⟨rfl, rfl⟩ := Prod.mk.inj (Option.some.inj hpending)
        have hlen : s.applied.length ≤ s.raft.log.length := by
          rw [applied, RaftView.committed, List.length_take, List.length_take]
          omega
        rw [(RaftView.start_spec hstart).1]
        exact Or.inr (Nat.lt_succ_of_le hlen)
  | @registered request index term =>
    obtain ⟨owner', hchans', howner⟩ := hchans.getNotifyChannel index
    refine ⟨owner', hchans'.move (fun x hx i t ch hstage => ?_) fun x hx i t hpending => ?_⟩
    · rcases hset x hx with hold | rfl
      · exact Or.inl hold
      · cases hstage
        exact Or.inr howner
    · rcases hset x hx with hold | rfl
      · exact Or.inl ⟨x, hold, hpending, rfl⟩
      · exact Or.inl ⟨_, hmem, hpending, rfl⟩

theorem run (h : s.Ok) {hd : Handler} {j : ℕ} (hj : s.handlers[j]? = some hd) {rf : RaftView}
    {kv : KVServer} {stage : Stage} (hruns : hd.Runs s.raft s.replica.kv rf kv stage) :
    Ok { raft := rf, replica := { s.replica with kv },
         handlers := s.handlers.set j { hd with stage } } := by
  obtain ⟨hle, hcommitted, hcommit, hstore, hlast⟩ := hruns.frame
  obtain ⟨howed, hhonest⟩ := h.owed_honest (List.mem_of_getElem? hj) hruns
  have hchans := h.chans_run hj hruns
  have happlied : rf.committed.take s.replica.position = s.applied := by
    rw [hcommitted, applied]
  have hset : ∀ x ∈ s.handlers.set j { hd with stage }, x ∈ s.handlers ∨ x = { hd with stage } :=
    fun x hx => List.mem_or_eq_of_mem_set hx
  rw [← happlied] at hhonest hchans
  refine ⟨⟨?_, hlast ▸ h.replica.applied_le, hcommitted ▸ h.replica.saved⟩, hcommit ▸ h.position_le,
    hcommit ▸ h.base_le, fun x hx => ?_, fun x hx => ?_, hchans⟩
  · rw [hcommitted]
    exact hstore.trans h.replica.store
  · rcases hset x hx with hold | rfl
    · exact (h.owed x hold).mono hle
    · exact howed
  · rcases hset x hx with hold | rfl
    · have hold := h.honest x hold
      rwa [← happlied] at hold
    · exact hhonest

/-- The next command. If the server is the leader, whoever waits for its index has submitted it. -/
theorem command (h : s.Ok) {op : Op} (hop : s.raft.committed[s.replica.position]? = some op)
    {size : ℕ} (hterm : s.SameTerm (.command size)) {kv : KVServer} {call : Option (ℕ × Bytes)}
    (hround : s.replica.kv.applyTask s.raft.isLeader size (commandMsg (s.replica.position + 1) op) =
      .ok (kv, call)) :
    Ok { s with replica := { s.replica with
      kv, position := s.replica.position + 1 }.saveSnapshot call } := by
  have hlt : s.replica.position < s.raft.commitIndex := by
    rw [← s.raft.length_committed]
    exact (List.getElem?_eq_some_iff.mp hop).1
  have hnew := Nat.lt_succ_of_le h.replica.applied_le
  obtain ⟨hr, -⟩ := h.replica.command hop hround
  obtain ⟨hkv, hposition, hbase⟩ := Replica.saveSnapshot_spec
    { s.replica with kv, position := s.replica.position + 1 } call
  have happlied : s.applied <+: s.raft.committed.take (s.replica.position + 1) :=
    List.take_prefix_take_left (Nat.le_succ _)
  have hall : s.raft.isLeader = true → ∀ x ∈ s.handlers, ∀ term,
      x.pending? = some (s.replica.position + 1, term) → x.request.op? = some op := by
    intro hleader x hx term hpending
    obtain ⟨op', k, hop', hk, -, hlog⟩ := h.owed x hx _ _ hpending
    obtain rfl : k = s.replica.position := (Nat.succ.inj hk).symm
    have hget := hlog (hterm hleader x hx _ hpending rfl) hleader
    rw [RaftView.committed, List.getElem?_take_of_lt hlt, hget] at hop
    rw [hop', hop]
  have hchans : ∃ owner, ChansOk owner (s.raft.committed.take (s.replica.position + 1)) kv
      s.handlers := by
    obtain ⟨owner, hchans⟩ := h.chans
    rcases KVServer.applyTask_cases hround with ⟨-, -, hold, -⟩ | ⟨op', -, hop', -, hnotify, -⟩ |
      ⟨hinvalid, -⟩
    · exact absurd (hold rfl) (Nat.not_le.mpr hnew)
    · obtain rfl := Option.some.inj hop'
      have hchans := hchans.mono happlied
      have hexecute : ChansOk owner _
          (s.replica.kv.execute (s.replica.position + 1) op) s.handlers :=
        ⟨hchans.length, hchans.lookup, hchans.waiting, hchans.full⟩
      refine hexecute.notify ⟨s.replica.position, rfl, ?_, ?_⟩ hall hnotify
      · rw [List.getElem?_take_of_lt (Nat.lt_succ_self _), hop]
      · rw [List.take_take, Nat.min_eq_left (Nat.le_succ _), h.replica.store]
    · cases hinvalid
  refine ⟨hr, ?_, ?_, h.owed, fun x hx => ?_, ?_⟩
  · rw [hposition]
    exact hlt
  · rcases hbase with hbase | ⟨data, hcall⟩
    · rw [hbase]
      exact h.base_le
    · have hx := (KVServer.applyTask_spec hnew hround).2.2.2 _ hcall
      rw [(Prod.mk.inj hx).1]
      exact hlt
  · rw [applied, hposition]
    exact (h.honest x hx).mono happlied
  · rw [applied, hposition, hkv]
    exact hchans

/-- A snapshot of the log. -/
theorem snapshot (h : s.Ok) {index : ℕ} (hle : s.replica.position ≤ index)
    (hcommit : index ≤ s.raft.commitIndex) :
    Ok { s with replica := {
      kv := { s.replica.kv with
        toStore := Store.replay (s.raft.committed.take index), lastApplied := index }
      position := index
      base := index
      snapshot := (Store.replay (s.raft.committed.take index)).makeSnapshot } } := by
  have happlied : s.applied <+: s.raft.committed.take index := List.take_prefix_take_left hle
  obtain ⟨owner, hchans⟩ := h.chans
  have hchans := hchans.mono happlied
  exact {
    replica := ⟨rfl, Nat.le_refl _, Or.inr rfl⟩
    position_le := hcommit
    base_le := hcommit
    owed := h.owed
    honest := fun x hx => (h.honest x hx).mono happlied
    chans := ⟨owner, hchans.length, hchans.lookup, hchans.waiting, hchans.full⟩ }

/-- A restart forgets the handlers and their channels. -/
theorem restart (h : s.Ok) {kv : KVServer}
    (hkv : KVServer.start s.replica.kv.maxraftstate s.replica.snapshot = some kv) :
    Ok { raft := { s.raft with isLeader := false },
         replica := { s.replica with kv, position := s.replica.base } } := by
  obtain ⟨kv', hkv', hr⟩ := h.replica.restart s.replica.kv.maxraftstate
  obtain rfl := Option.some.inj (hkv.symm.trans hkv')
  obtain ⟨st, -, rfl⟩ := Option.map_eq_some_iff.mp hkv
  exact ⟨hr, h.base_le, h.base_le, fun x hx => (by cases hx), fun x hx => (by cases hx), [],
    .fresh rfl rfl⟩

/-- Handlers that do not wait come and go. -/
theorem handlers (h : s.Ok) {handlers : List Handler}
    (hsub : ∀ x ∈ handlers, x ∈ s.handlers ∨
      x.pending? = none ∧ x.request.Honest s.applied x.stage) :
    Ok { s with handlers } := by
  obtain ⟨owner, hchans⟩ := h.chans
  refine ⟨h.replica, h.position_le, h.base_le, fun x hx => ?_, fun x hx => ?_, owner,
    hchans.forget fun x hx => (hsub x hx).imp_right And.left⟩
  · rcases hsub x hx with hold | ⟨hnone, -⟩
    · exact h.owed x hold
    · exact .of_pending_eq_none hnone
  · rcases hsub x hx with hold | ⟨-, hhonest⟩
    · exact h.honest x hold
    · exact hhonest

theorem step (h : s.Ok) {a : KVAction} (hterm : s.SameTerm a) {t : KVNode}
    (ha : s.step a = some t) : t.Ok := by
  cases a with
  | raft move =>
    obtain ⟨rf, hrf, rfl⟩ := Option.map_eq_some_iff.mp ha
    exact h.raft (RaftView.le_move hrf)
  | command size =>
    simp only [KVNode.step] at ha
    split at ha
    case h_1 => cases ha
    case h_2 op hop =>
      split at ha
      case h_1 => cases ha
      case h_2 kv call hround =>
        obtain rfl := Option.some.inj ha
        exact h.command hop hterm hround
  | snapshot index =>
    simp only [KVNode.step, KVServer.applyTask_snapshot, Option.ite_none_right_eq_some,
      Option.some.injEq] at ha
    obtain ⟨⟨hle, hcommit⟩, rfl⟩ := ha
    exact h.snapshot hle hcommit
  | restart =>
    obtain ⟨kv, hkv, rfl⟩ := Option.map_eq_some_iff.mp ha
    exact h.restart hkv
  | call request =>
    obtain rfl := Option.some.inj ha
    refine h.handlers fun x hx => (List.mem_append.mp hx).imp_right fun hx => ?_
    rw [List.mem_singleton.mp hx]
    cases request with
    | get | putAppend => exact ⟨rfl, trivial⟩
  | run j =>
    simp only [KVNode.step] at ha
    split at ha
    case h_1 => cases ha
    case h_2 hd hj =>
      obtain ⟨⟨rf, kv, stage⟩, hrun, rfl⟩ := Option.map_eq_some_iff.mp ha
      exact h.run hj (Handler.runs_of_run hrun)
  | timeout j =>
    simp only [KVNode.step] at ha
    split at ha
    case h_1 request index term ch hj =>
      obtain rfl := Option.some.inj ha
      refine h.handlers fun x hx => (List.mem_or_eq_of_mem_set hx).imp_right ?_
      rintro rfl
      exact ⟨rfl, Or.inl rfl⟩
    case h_2 => cases ha

theorem init (maxraftstate : ℤ) : (KVNode.init maxraftstate).Ok :=
  ⟨⟨rfl, Nat.le_refl _, Or.inl ⟨rfl, rfl⟩⟩, Nat.le_refl _, Nat.le_refl _,
    fun x hx => (by cases hx), fun x hx => (by cases hx), [], .fresh rfl rfl⟩

end KVNode.Ok

/-- No `SeqId` is left out: a client that has got to one has written with all before it. -/
def Unbroken (ops : List Op) : Prop :=
  ∀ clientId, ∀ k ∈ seqIds ops clientId, ∀ j, 0 ≤ j → j ≤ k → j ∈ seqIds ops clientId

/-- If `applyTask` notifies a handler only in the term in which its command was accepted, a handler
that `Start` gave an index and that does not time out replies with the result of its own command,
and that command is the one committed at the index. A `PutAppend` that answers `OK` has been
applied, where a duplicate is one of a client whose `SeqId`s have no gaps. -/
theorem own_answer {maxraftstate : ℤ} {s : KVNode}
    (h : Reach KVNode.step KVNode.SameTerm (KVNode.init maxraftstate) s) {hd : Handler}
    (hmem : hd ∈ s.handlers) :
    (∀ index term reply cleanup, hd.stage = .replied (some (index, term)) reply cleanup →
      reply.err ≠ .errTimeout →
      ∃ op k, hd.request.op? = some op ∧ index = k + 1 ∧ s.raft.committed[k]? = some op ∧
        k < s.replica.position ∧
        reply = hd.request.answer ((Store.replay (s.raft.committed.take k)).applyOp op).2) ∧
    (∀ args start reply cleanup, hd.request = .putAppend args →
      hd.stage = .replied start reply cleanup → reply.err = .ok → 0 ≤ args.seqId →
      Unbroken s.applied → args.seqId ∈ seqIds s.applied args.clientId) := by
  have hok : s.Ok := h.invariant (I := fun s => s.Ok) (fun s a t hs hterm ha => hs.step hterm ha)
    (.init maxraftstate)
  have hhonest := hok.honest hd hmem
  have hown : ∀ index term reply cleanup, hd.stage = .replied (some (index, term)) reply cleanup →
      reply.err ≠ .errTimeout → ∃ op opReply, hd.request.op? = some op ∧
        Answer s.applied index op opReply ∧ reply = hd.request.answer opReply := by
    intro index term reply cleanup hstage herr
    rw [hstage] at hhonest
    exact hhonest.resolve_left herr
  constructor
  · intro index term reply cleanup hstage herr
    obtain ⟨op, opReply, hop, ⟨k, hk, hget, rfl⟩, hreply⟩ :=
      hown index term reply cleanup hstage herr
    have hlt : k < s.replica.position := by
      have hlen := (List.getElem?_eq_some_iff.mp hget).1
      rw [KVNode.applied, List.length_take] at hlen
      omega
    rw [KVNode.applied, List.getElem?_take_of_lt hlt] at hget
    rw [KVNode.applied, List.take_take, Nat.min_eq_left (Nat.le_of_lt hlt)] at hreply
    exact ⟨op, k, hop, hk, hget, hlt, hreply⟩
  · intro args start reply cleanup hrequest hstage herr hseq hunbroken
    cases start with
    | none =>
      rw [hstage, hrequest] at hhonest
      rcases hhonest with hwrong | ⟨args', hargs, k, hk, hle⟩
      · rw [herr] at hwrong
        cases hwrong
      · obtain rfl := Request.putAppend.inj hargs
        exact hunbroken args.clientId k hk args.seqId hseq hle
    | some x =>
      obtain ⟨op, opReply, hop, ⟨k, -, hget, -⟩, -⟩ :=
        hown x.1 x.2 reply cleanup hstage (by rw [herr]; decide)
      rw [hrequest] at hop
      obtain ⟨hwrite, hclient, hseq⟩ := Request.isWrite_of_op? hop
      exact ⟨op, List.mem_filter.mpr ⟨List.mem_of_getElem? hget, hwrite⟩, hclient, hseq⟩

end

/-- The first append of client `1`. -/
def firstAppend : PutAppendArgs :=
  { key := "k", value := "a", op := "Append", clientId := 1, seqId := 0 }

/-- The server loses its leadership and the command with it; the client tries again when the server
leads again, and is answered. -/
theorem own_answer_retried : ∃ s : KVNode,
    Reach KVNode.step KVNode.SameTerm (KVNode.init (-1)) s ∧
      s.handlers[0]? = some
        ⟨.putAppend firstAppend, .replied (some (1, 1)) { err := .errTimeout } true⟩ ∧
      s.handlers[1]? = some ⟨.putAppend firstAppend, .replied (some (1, 3)) { err := .ok } true⟩ ∧
      ∃ op, (Request.putAppend firstAppend).op? = some op ∧ s.raft.committed[0]? = some op := by
  have hrun : ∃ s : KVNode, Reach KVNode.step KVNode.SameTerm (KVNode.init (-1)) s ∧
      (s.handlers[0]? =
        some ⟨.putAppend firstAppend, .replied (some (1, 1)) { err := .errTimeout } true⟩ ∧
      s.handlers[1]? =
        some ⟨.putAppend firstAppend, .replied (some (1, 3)) { err := .ok } true⟩) :=
    Reach.exists_of_exec
      [.raft (.elected 1), .call (.putAppend firstAppend), .run 0, .run 0, .run 0,
      .raft (.stepDown 2), .raft (.replace 0 []), .timeout 0, .raft (.elected 3),
      .call (.putAppend firstAppend), .run 1, .run 1, .run 1, .raft (.commit 1), .command 0, .run 1]
      (by decide +kernel)
  obtain ⟨s, hs, htimeout, hok⟩ := hrun
  obtain ⟨op, k, hop, hk, hget, -⟩ :=
    (own_answer hs (List.mem_of_getElem? hok)).1 1 3 _ true rfl (by decide)
  obtain rfl : k = 0 := (Nat.succ.inj hk).symm
  exact ⟨s, hs, htimeout, hok, op, hop, hget⟩

/-- The server accepts an append at index 1 in term 1. Another leader replaces it by the append of
client `2`, which is committed when the server leads again, in term 3. Client `1` is told that its
append succeeded, and it never happened. -/
theorem stolen_answer : ∃ s : KVNode,
    Reach KVNode.step (fun _ _ => True) (KVNode.init (-1)) s ∧
      ⟨.putAppend firstAppend, .replied (some (1, 1)) { err := .ok } true⟩ ∈ s.handlers ∧
      s.raft.committed[0]? ≠ (Request.putAppend firstAppend).op? ∧
      firstAppend.seqId ∉ seqIds s.applied firstAppend.clientId := by
  have hrun : ∃ s : KVNode, Reach KVNode.step (fun _ _ => True) (KVNode.init (-1)) s ∧
      (⟨.putAppend firstAppend, .replied (some (1, 1)) { err := .ok } true⟩ ∈ s.handlers ∧
        s.raft.committed[0]? ≠ (Request.putAppend firstAppend).op? ∧
        ∀ op ∈ writes s.applied, op.clientId ≠ 1) :=
    Reach.exists_of_exec
      [.raft (.elected 1), .call (.putAppend firstAppend), .run 0, .run 0, .run 0,
      .raft (.stepDown 2),
      .raft (.replace 0
        [{ key := "k", value := "b", opType := .opAppend, clientId := 2, seqId := 0 }]),
      .raft (.elected 3), .raft (.commit 1), .command 0, .run 0] (by decide +kernel)
  obtain ⟨s, hs, hok, hother, hnone⟩ := hrun
  refine ⟨s, hs, hok, hother, ?_⟩
  rintro ⟨op, hop, hclient, -⟩
  exact hnone op hop hclient

end LogicRaft
