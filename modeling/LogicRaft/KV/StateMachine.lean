import Mathlib.Data.String.Basic
import LogicRaft.Common.FinmapCodec
import LogicRaft.Raft.State

/-!
# The key/value store (`common.go`, `state_machine.go`)

`KVStateMachine` is the map of the service. `Store` is the map together with the duplicate table,
which is what the log determines and what a snapshot holds; `Store.applyOp` is what `applyTask` does
to it for one command.

Go maps are finite maps. `int64` identifiers are integers: nothing is computed from them.
-/

namespace LogicRaft

/-- A Go map. -/
abbrev GoMap (κ ν : Type) : Type := Finmap fun _ : κ => ν

inductive Err
  | ok
  | errNoKey
  | errWrongLeader
  | errTimeout
deriving DecidableEq, Repr

inductive OperationType
  | opGet
  | opPut
  | opAppend
deriving DecidableEq, Repr

/-- `none` where the source panics. -/
def getOperationType (v : String) : Option OperationType :=
  if v = "Put" then some .opPut else if v = "Append" then some .opAppend else none

/-- A command of the log. A `Get` is submitted without a client and a sequence number. -/
structure Op where
  key : String
  value : String := ""
  opType : OperationType
  clientId : ℤ := 0
  seqId : ℤ := 0
deriving DecidableEq

structure OpReply where
  value : String := ""
  err : Err
deriving DecidableEq

structure LastOperationInfo where
  seqId : ℤ
  reply : OpReply
deriving DecidableEq

/-- `Put` and `Append` change the map and are remembered in the duplicate table. -/
def Op.isWrite (op : Op) : Bool := op.opType ≠ .opGet

structure KVStateMachine where
  kv : GoMap String String
deriving DecidableEq

namespace KVStateMachine

/-- `NewKVStateMachine` -/
def new : KVStateMachine := ⟨∅⟩

def get (m : KVStateMachine) (key : String) : String × Err :=
  match m.kv.lookup key with
  | some value => (value, .ok)
  | none => ("", .errNoKey)

def put (m : KVStateMachine) (key value : String) : KVStateMachine × Err :=
  (⟨m.kv.insert key value⟩, .ok)

/-- Go reads a missing key as the empty string. -/
def append (m : KVStateMachine) (key value : String) : KVStateMachine × Err :=
  (⟨m.kv.insert key ((m.kv.lookup key).getD "" ++ value)⟩, .ok)

def applyToStateMachine (m : KVStateMachine) (op : Op) : KVStateMachine × OpReply :=
  match op.opType with
  | .opGet => (m, { value := (m.get op.key).1, err := (m.get op.key).2 })
  | .opPut => ((m.put op.key op.value).1, { err := (m.put op.key op.value).2 })
  | .opAppend => ((m.append op.key op.value).1, { err := (m.append op.key op.value).2 })

/-- A `Get` leaves the map alone. -/
theorem applyToStateMachine_get (m : KVStateMachine) {op : Op} (h : op.isWrite = false) :
    m.applyToStateMachine op = (m, { value := (m.get op.key).1, err := (m.get op.key).2 }) := by
  have hget : op.opType = .opGet := by simpa [Op.isWrite] using h
  rw [applyToStateMachine, hget]

/-- After a write its key is there, and no key is lost. -/
theorem mem_applyToStateMachine (m : KVStateMachine) {op : Op} (h : op.isWrite = true)
    (key : String) :
    key ∈ (m.applyToStateMachine op).1.kv ↔ key = op.key ∨ key ∈ m.kv := by
  cases hop : op.opType with
  | opGet => simp [Op.isWrite, hop] at h
  | opPut | opAppend => simp only [applyToStateMachine, hop, put, append, Finmap.mem_insert]

theorem get_eq_errNoKey_iff (m : KVStateMachine) (key : String) :
    (m.get key).2 = .errNoKey ↔ key ∉ m.kv := by
  rw [get, ← Finmap.lookup_eq_none]
  split
  case h_1 value hvalue => simp [hvalue]
  case h_2 hnone => simp [hnone]

end KVStateMachine

/-- The map and the duplicate table. -/
structure Store where
  stateMachine : KVStateMachine := .new
  duplicateTable : GoMap ℤ LastOperationInfo := ∅
deriving DecidableEq

namespace Store

def requestDuplicated (st : Store) (clientId seqId : ℤ) : Bool :=
  match st.duplicateTable.lookup clientId with
  | some info => decide (seqId ≤ info.seqId)
  | none => false

/-- `kv.duplicateTable[clientId].Reply`; only read for clients that are in the table. -/
def lastReply (st : Store) (clientId : ℤ) : OpReply :=
  match st.duplicateTable.lookup clientId with
  | some info => info.reply
  | none => { err := .ok }

/-- What `applyTask` does for one command: a write that was applied before gets its old reply. -/
def applyOp (st : Store) (op : Op) : Store × OpReply :=
  if op.isWrite ∧ st.requestDuplicated op.clientId op.seqId then (st, st.lastReply op.clientId)
  else
    let (stateMachine, opReply) := st.stateMachine.applyToStateMachine op
    if op.isWrite then
      ({ stateMachine
         duplicateTable := st.duplicateTable.insert op.clientId
           { seqId := op.seqId, reply := opReply } }, opReply)
    else ({ st with stateMachine }, opReply)

/-- The store after the commands of a log. -/
def replay (ops : List Op) : Store := ops.foldl (fun st op => (st.applyOp op).1) {}

@[simp] theorem replay_nil : replay [] = {} := rfl

@[simp] theorem replay_append (ops : List Op) (op : Op) :
    replay (ops ++ [op]) = ((replay ops).applyOp op).1 := by
  rw [replay, List.foldl_append, List.foldl_cons, List.foldl_nil, ← replay]

section Apply

variable (st : Store) {op : Op}

/-- A `Get` reads the map. -/
theorem applyOp_get (h : op.isWrite = false) :
    st.applyOp op = (st, { value := (st.stateMachine.get op.key).1
                           err := (st.stateMachine.get op.key).2 }) := by
  simp [applyOp, h, KVStateMachine.applyToStateMachine_get]

theorem applyOp_duplicate (hw : op.isWrite = true)
    (h : st.requestDuplicated op.clientId op.seqId = true) :
    st.applyOp op = (st, st.lastReply op.clientId) := by
  rw [applyOp, if_pos ⟨hw, h⟩]

theorem applyOp_write (hw : op.isWrite = true)
    (h : st.requestDuplicated op.clientId op.seqId = false) :
    st.applyOp op =
      ({ stateMachine := (st.stateMachine.applyToStateMachine op).1
         duplicateTable := st.duplicateTable.insert op.clientId
           { seqId := op.seqId, reply := (st.stateMachine.applyToStateMachine op).2 } },
        (st.stateMachine.applyToStateMachine op).2) := by
  simp [applyOp, hw, h]

end Apply

end Store

/-! ## Encodings -/

/-- `labgob` encodings of what a snapshot holds. -/
class KVGob where
  stateMachine : Codec KVStateMachine
  duplicateTable : Codec (GoMap ℤ LastOperationInfo)

namespace Codec

def err : Codec Err :=
  nat.map (fun | .ok => 0 | .errNoKey => 1 | .errWrongLeader => 2 | .errTimeout => 3)
    (fun k => [Err.ok, .errNoKey, .errWrongLeader, .errTimeout][k]?) (by intro e; cases e <;> rfl)

def operationType : Codec OperationType :=
  nat.map (fun | .opGet => 0 | .opPut => 1 | .opAppend => 2)
    (fun k => [OperationType.opGet, .opPut, .opAppend][k]?) (by intro e; cases e <;> rfl)

def op : Codec Op :=
  (string.prod (string.prod (operationType.prod (int.prod int)))).map
    (fun op => (op.key, op.value, op.opType, op.clientId, op.seqId))
    (fun x => some ⟨x.1, x.2.1, x.2.2.1, x.2.2.2.1, x.2.2.2.2⟩) fun _ => rfl

def opReply : Codec OpReply :=
  (string.prod err).map (fun r => (r.value, r.err)) (fun x => some ⟨x.1, x.2⟩) fun _ => rfl

def lastOperationInfo : Codec LastOperationInfo :=
  (int.prod opReply).map (fun i => (i.seqId, i.reply)) (fun x => some ⟨x.1, x.2⟩) fun _ => rfl

end Codec

instance : KVGob where
  stateMachine := (Codec.finmap Codec.string Codec.string).map (·.kv) (fun m => some ⟨m⟩)
    fun _ => rfl
  duplicateTable := Codec.finmap Codec.int Codec.lastOperationInfo

instance : RaftGob Op := RaftGob.ofCodec Codec.op

end LogicRaft
