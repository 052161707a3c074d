import LogicRaft.KV.StateMachine

/-!
# The server (`server.go`)

`KVServer.applyTask` is one round of the loop of `applyTask`, which holds `kv.mu` from start to end.
What it asks `Raft` (`GetState`, `GetRaftStateSize`) are inputs, and a call of `Raft.Snapshot` is an
output. Channels are numbered in the order they are made; each buffers one reply.
-/

namespace LogicRaft

/-- Why a round of `applyTask` does not end: the server panics, or it blocks for ever on a channel
that nobody empties. -/
inductive Fault
  | panic
  | blocked
deriving DecidableEq

structure KVServer extends Store where
  lastApplied : ℕ := 0
  /-- the channel of an index -/
  notifyChans : GoMap ℕ ℕ := ∅
  /-- what the channels made so far buffer -/
  chans : List (Option OpReply) := []
  maxraftstate : ℤ := -1
deriving DecidableEq

namespace KVServer

def getNotifyChannel (kv : KVServer) (index : ℕ) : KVServer × ℕ :=
  match kv.notifyChans.lookup index with
  | some ch => (kv, ch)
  | none =>
    ({ kv with
        notifyChans := kv.notifyChans.insert index kv.chans.length
        chans := kv.chans ++ [none] }, kv.chans.length)

def removeNotifyChannel (kv : KVServer) (index : ℕ) : KVServer :=
  { kv with notifyChans := kv.notifyChans.erase index }

/-- `notifyCh <- opReply`: blocks if the channel is full. -/
def send (kv : KVServer) (ch : ℕ) (opReply : OpReply) : Except Fault KVServer :=
  match kv.chans[ch]? with
  | some none => .ok { kv with chans := kv.chans.set ch (some opReply) }
  | _ => .error .blocked

/-- The reply goes to whoever waits for this index, if the server is the leader. -/
def notify (kv : KVServer) (isLeader : Bool) (index : ℕ) (opReply : OpReply) :
    Except Fault KVServer :=
  if isLeader then (kv.getNotifyChannel index).1.send (kv.getNotifyChannel index).2 opReply
  else .ok kv

/-- The reply that waits in the channel of an index. -/
def buffer (kv : KVServer) (index : ℕ) : Option OpReply :=
  (kv.notifyChans.lookup index).bind fun ch => kv.chans[ch]?.join

/-- A command is applied; its reply is not sent yet. -/
def execute (kv : KVServer) (index : ℕ) (op : Op) : KVServer :=
  { kv with toStore := (kv.toStore.applyOp op).1, lastApplied := index }

end KVServer

/-- The message for a command. -/
def commandMsg (index : ℕ) (op : Op) : ApplyMsg Op :=
  { commandValid := true, command := some op, commandIndex := index }

/-- The message for a snapshot; the server does not read its term. -/
def snapshotMsg (index : ℕ) (data : Bytes) : ApplyMsg Op :=
  { snapshotValid := true, snapshot := data, snapshotIndex := index }

namespace Store

variable [KVGob]

def makeSnapshot (st : Store) : Bytes :=
  KVGob.stateMachine.encode st.stateMachine ++ KVGob.duplicateTable.encode st.duplicateTable

/-- `none` where the source panics. -/
def restoreFromSnapshot (st : Store) (snapshot : Bytes) : Option Store :=
  if snapshot = [] then some st
  else
    (KVGob.stateMachine.decode snapshot).bind fun x =>
      (KVGob.duplicateTable.decode x.2).map fun y =>
        { stateMachine := x.1, duplicateTable := y.1 }

theorem makeSnapshot_ne_nil (st : Store) : st.makeSnapshot ≠ [] := by
  intro h
  exact KVGob.stateMachine.encode_ne_nil _ (List.append_eq_nil_iff.mp h).1

/-- What a snapshot holds is restored, whatever was there before. -/
@[simp] theorem restoreFromSnapshot_makeSnapshot (st st' : Store) :
    st.restoreFromSnapshot st'.makeSnapshot = some st' := by
  rw [restoreFromSnapshot, if_neg (makeSnapshot_ne_nil st'), makeSnapshot,
    KVGob.stateMachine.decode_encode]
  simp

end Store

namespace KVServer

variable [KVGob]

/-- `StartKVServer` with what the persister holds. -/
def start (maxraftstate : ℤ) (snapshot : Bytes) : Option KVServer :=
  (Store.restoreFromSnapshot {} snapshot).map fun st => { toStore := st, maxraftstate }

/-- The call of `Raft.Snapshot` after a command, if the saved state of `Raft` has grown too big. -/
def snapshotCall (kv : KVServer) (raftStateSize index : ℕ) : Option (ℕ × Bytes) :=
  if kv.maxraftstate ≠ -1 ∧ kv.maxraftstate ≤ raftStateSize then some (index, kv.makeSnapshot)
  else none

/-- One message. The result is the server and the arguments of its call of `Raft.Snapshot`, if it
makes one. -/
def applyTask (kv : KVServer) (isLeader : Bool) (raftStateSize : ℕ) (message : ApplyMsg Op) :
    Except Fault (KVServer × Option (ℕ × Bytes)) :=
  if message.commandValid then
    -- already processed
    if message.commandIndex ≤ kv.lastApplied then .ok (kv, none)
    else match message.command with
      | none => .error .panic
      | some op => do
        let kv ← (kv.execute message.commandIndex op).notify isLeader message.commandIndex
          (kv.toStore.applyOp op).2
        pure (kv, kv.snapshotCall raftStateSize message.commandIndex)
  else if message.snapshotValid then
    match kv.toStore.restoreFromSnapshot message.snapshot with
    | none => .error .panic
    | some st => .ok ({ kv with toStore := st, lastApplied := message.snapshotIndex }, none)
  else .ok (kv, none)

/-! ## What a round does -/

omit [KVGob] in
theorem getNotifyChannel_store (kv : KVServer) (index : ℕ) :
    (kv.getNotifyChannel index).1.toStore = kv.toStore ∧
      (kv.getNotifyChannel index).1.lastApplied = kv.lastApplied := by
  unfold getNotifyChannel
  split <;> exact ⟨rfl, rfl⟩

omit [KVGob] in
theorem send_spec {kv kv' : KVServer} {ch : ℕ} {opReply : OpReply}
    (h : kv.send ch opReply = .ok kv') :
    kv.chans[ch]? = some none ∧ kv' = { kv with chans := kv.chans.set ch (some opReply) } := by
  unfold send at h
  split at h
  case h_1 hempty => exact ⟨hempty, (Except.ok.inj h).symm⟩
  case h_2 => cases h

omit [KVGob] in
/-- Notifying touches the channels only. -/
theorem notify_store {kv kv' : KVServer} {isLeader : Bool} {index : ℕ} {opReply : OpReply}
    (h : kv.notify isLeader index opReply = .ok kv') :
    kv'.toStore = kv.toStore ∧ kv'.lastApplied = kv.lastApplied := by
  unfold notify at h
  split at h
  case isTrue =>
    obtain ⟨-, rfl⟩ := send_spec h
    exact kv.getNotifyChannel_store index
  case isFalse =>
    obtain rfl := Except.ok.inj h
    exact ⟨rfl, rfl⟩

omit [KVGob] in
theorem lookup_getNotifyChannel (kv : KVServer) (index : ℕ) :
    (kv.getNotifyChannel index).1.notifyChans.lookup index =
      some (kv.getNotifyChannel index).2 := by
  unfold getNotifyChannel
  split
  case h_1 hch => exact hch
  case h_2 => exact Finmap.lookup_insert _

omit [KVGob] in
/-- A leader leaves the reply in the channel of the index. -/
theorem buffer_notify {kv kv' : KVServer} {index : ℕ} {opReply : OpReply}
    (h : kv.notify true index opReply = .ok kv') : kv'.buffer index = some opReply := by
  rw [notify, if_pos rfl] at h
  obtain ⟨hempty, rfl⟩ := send_spec h
  obtain ⟨hlt, -⟩ := List.getElem?_eq_some_iff.mp hempty
  simp only [buffer, lookup_getNotifyChannel, Option.bind_some, List.getElem?_set_self hlt,
    Option.join_some]

/-- A round with a command that is new. -/
theorem applyTask_command (kv : KVServer) (isLeader : Bool) (size : ℕ) {message : ApplyMsg Op}
    {op : Op} (hvalid : message.commandValid = true) (hop : message.command = some op)
    (hnew : kv.lastApplied < message.commandIndex) :
    kv.applyTask isLeader size message =
      ((kv.execute message.commandIndex op).notify isLeader message.commandIndex
        (kv.toStore.applyOp op).2).map
          fun kv' => (kv', kv'.snapshotCall size message.commandIndex) := by
  unfold applyTask
  rw [if_pos hvalid, if_neg (Nat.not_le.mpr hnew), hop]
  dsimp only
  cases (kv.execute message.commandIndex op).notify isLeader message.commandIndex
    (kv.toStore.applyOp op).2 <;> rfl

/-- A round with a snapshot. -/
theorem applyTask_snapshot (kv : KVServer) (isLeader : Bool) (size index : ℕ) (st : Store) :
    kv.applyTask isLeader size (snapshotMsg index st.makeSnapshot) =
      .ok ({ kv with toStore := st, lastApplied := index }, none) := by
  simp [applyTask, snapshotMsg]

/-- Everything a round that ends can do. -/
theorem applyTask_cases {kv kv' : KVServer} {isLeader : Bool} {size : ℕ} {message : ApplyMsg Op}
    {call : Option (ℕ × Bytes)} (h : kv.applyTask isLeader size message = .ok (kv', call)) :
    (kv' = kv ∧ call = none ∧
      (message.commandValid = true → message.commandIndex ≤ kv.lastApplied) ∧
      (message.commandValid = false → message.snapshotValid = false)) ∨
    (∃ op, message.commandValid = true ∧ message.command = some op ∧
      kv.lastApplied < message.commandIndex ∧
      (kv.execute message.commandIndex op).notify isLeader message.commandIndex
        (kv.toStore.applyOp op).2 = .ok kv' ∧
      ∀ x, call = some x → x = (message.commandIndex, kv'.makeSnapshot)) ∨
    (message.commandValid = false ∧ message.snapshotValid = true ∧ call = none ∧
      ∃ st, kv.toStore.restoreFromSnapshot message.snapshot = some st ∧
        kv' = { kv with toStore := st, lastApplied := message.snapshotIndex }) := by
  unfold applyTask at h
  split at h
  case isTrue hvalid =>
    split at h
    case isTrue hold =>
      obtain ⟨rfl, rfl⟩ := Prod.mk.inj (Except.ok.inj h)
      exact Or.inl ⟨rfl, rfl, fun _ => hold, fun hv => by rw [hvalid] at hv; cases hv⟩
    case isFalse hnew =>
      split at h
      case h_1 => cases h
      case h_2 op hop =>
        refine Or.inr (Or.inl ⟨op, hvalid, hop, Nat.not_le.mp hnew, ?_⟩)
        simp only [bind, Except.bind] at h
        split at h
        case h_1 => cases h
        case h_2 kv₁ hnotify =>
          obtain ⟨rfl, rfl⟩ := Prod.mk.inj (Except.ok.inj h)
          refine ⟨hnotify, fun x hx => ?_⟩
          unfold snapshotCall at hx
          split at hx
          · exact (Option.some.inj hx).symm
          · cases hx
  case isFalse hinvalid =>
    have hcommand : message.commandValid = false := by simpa using hinvalid
    split at h
    case isTrue hsnapshot =>
      split at h
      case h_1 => cases h
      case h_2 st hst =>
        obtain ⟨rfl, rfl⟩ := Prod.mk.inj (Except.ok.inj h)
        exact Or.inr (Or.inr ⟨hcommand, hsnapshot, rfl, st, hst, rfl⟩)
    case isFalse hnone =>
      obtain ⟨rfl, rfl⟩ := Prod.mk.inj (Except.ok.inj h)
      exact Or.inl ⟨rfl, rfl, fun hv => absurd hv hinvalid, fun _ => by simpa using hnone⟩

/-- What a round with a new command has done when it ends. -/
theorem applyTask_spec {kv kv' : KVServer} {isLeader : Bool} {size index : ℕ} {op : Op}
    {call : Option (ℕ × Bytes)} (hnew : kv.lastApplied < index)
    (h : kv.applyTask isLeader size (commandMsg index op) = .ok (kv', call)) :
    kv'.toStore = (kv.toStore.applyOp op).1 ∧ kv'.lastApplied = index ∧
      (isLeader = true → kv'.buffer index = some (kv.toStore.applyOp op).2) ∧
      ∀ x, call = some x → x = (index, kv'.makeSnapshot) := by
  rcases applyTask_cases h with ⟨-, -, hold, -⟩ | ⟨op', -, hop, -, hnotify, hcall⟩ | ⟨hinvalid, -⟩
  · exact absurd (hold rfl) (Nat.not_le.mpr hnew)
  · obtain rfl := Option.some.inj hop
    obtain ⟨hstore, hlast⟩ := notify_store hnotify
    refine ⟨hstore, hlast, fun hleader => ?_, hcall⟩
    subst hleader
    exact buffer_notify hnotify
  · cases hinvalid

end KVServer

end LogicRaft
