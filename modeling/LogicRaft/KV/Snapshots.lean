import Mathlib.Logic.Function.Basic
import LogicRaft.Common.Reach
import LogicRaft.KV.ExactlyOnce

/-!
# Snapshots and the rest of the log

Fix the commands `ops` of the log. A `Fleet` is a set of servers that are handed these commands, in
order and without gaps, save snapshots and exchange them, and crash. `made` records the snapshots
that were ever made. Every server always has the store of a replay of the log up to where it stands,
and answers the next command as the replay does (`snapshot_replay`): it does not matter which
snapshots it went through.
-/

namespace LogicRaft

/-- A server, where its stream stands, and the snapshot that its `Raft` has saved. -/
structure Replica where
  kv : KVServer
  /-- the index of the last command or snapshot the server was handed -/
  position : ℕ := 0
  /-- the index of the saved snapshot -/
  base : ℕ := 0
  snapshot : Bytes := []

structure Fleet (ι : Type) where
  replicas : ι → Replica
  made : List (ℕ × Bytes) := []

inductive FleetAction (ι : Type)
  /-- the server is handed the next command -/
  | command (p : ι) (isLeader : Bool) (raftStateSize : ℕ)
  /-- the `Raft` of the server saves a snapshot of another server -/
  | save (p : ι) (index : ℕ) (data : Bytes)
  /-- the server is handed a snapshot -/
  | snapshot (p : ι) (index : ℕ) (data : Bytes)
  /-- a crash, followed by `StartKVServer` -/
  | restart (p : ι)

/-- `Raft.Snapshot` ignores what is older than the saved snapshot. -/
def Replica.saveSnapshot (r : Replica) (call : Option (ℕ × Bytes)) : Replica :=
  match call with
  | some (index, data) => if index < r.base then r else { r with base := index, snapshot := data }
  | none => r

theorem Replica.saveSnapshot_spec (r : Replica) (call : Option (ℕ × Bytes)) :
    (r.saveSnapshot call).kv = r.kv ∧ (r.saveSnapshot call).position = r.position ∧
      ((r.saveSnapshot call).base = r.base ∨
        ∃ data, call = some ((r.saveSnapshot call).base, data)) := by
  unfold saveSnapshot
  split
  case h_1 index data =>
    split
    · exact ⟨rfl, rfl, Or.inl rfl⟩
    · exact ⟨rfl, rfl, Or.inr ⟨data, rfl⟩⟩
  case h_2 => exact ⟨rfl, rfl, Or.inl rfl⟩

section

variable {ι : Type} [DecidableEq ι] [KVGob]

namespace Fleet

omit [KVGob] in
/-- All servers start with nothing saved. -/
def init (maxraftstate : ℤ) : Fleet ι where
  replicas _ := { kv := { maxraftstate } }

/-- One step; `none` if it is not possible, or if the server panics or blocks. -/
def step (ops : List Op) (s : Fleet ι) : FleetAction ι → Option (Fleet ι)
  | .command p isLeader raftStateSize =>
    let r := s.replicas p
    match ops[r.position]? with
    | none => none
    | some op =>
      match r.kv.applyTask isLeader raftStateSize (commandMsg (r.position + 1) op) with
      | .error _ => none
      | .ok (kv, call) => some
          { replicas := Function.update s.replicas p
              ({ r with kv, position := r.position + 1 }.saveSnapshot call)
            made := call.toList ++ s.made }
  | .save p index data =>
    let r := s.replicas p
    if (index, data) ∈ s.made ∧ r.base < index then
      some { s with
        replicas := Function.update s.replicas p { r with base := index, snapshot := data } }
    else none
  | .snapshot p index data =>
    let r := s.replicas p
    if (index, data) ∈ s.made ∧ r.position ≤ index then
      match r.kv.applyTask false 0 (snapshotMsg index data) with
      | .error _ => none
      | .ok (kv, _) => some { s with
          replicas := Function.update s.replicas p { r with kv, position := index } }
    else none
  | .restart p =>
    let r := s.replicas p
    (KVServer.start r.kv.maxraftstate r.snapshot).map fun kv => { s with
      replicas := Function.update s.replicas p { r with kv, position := r.base } }

end Fleet

/-! ## The invariant -/

/-- The store is that of the log up to the position, and the saved snapshot that of the log up to
its index. -/
structure ReplicaOk (ops : List Op) (r : Replica) : Prop where
  store : r.kv.toStore = Store.replay (ops.take r.position)
  applied_le : r.kv.lastApplied ≤ r.position
  saved : (r.base = 0 ∧ r.snapshot = []) ∨
    r.snapshot = (Store.replay (ops.take r.base)).makeSnapshot

/-- Snapshots hold the store of the log up to their index. No handler has made a channel for a reply
that is still to come. -/
structure FleetOk (ops : List Op) (s : Fleet ι) : Prop where
  replicas : ∀ p, ReplicaOk ops (s.replicas p)
  ahead : ∀ p, (s.replicas p).kv.NoneAhead
  made : ∀ x ∈ s.made, x.2 = (Store.replay (ops.take x.1)).makeSnapshot

namespace ReplicaOk

variable {ops : List Op} {r : Replica}

/-- Whatever the next command is, the round with it ends, and the command does and answers what it
does and answers after a replay. -/
theorem round (h : ReplicaOk ops r) (hahead : r.kv.NoneAhead) (op : Op) (isLeader : Bool)
    (size : ℕ) :
    ∃ kv call, r.kv.applyTask isLeader size (commandMsg (r.position + 1) op) = .ok (kv, call) ∧
      kv.toStore = ((Store.replay (ops.take r.position)).applyOp op).1 ∧
      kv.NoneAhead ∧
      (isLeader = true → kv.buffer (r.position + 1) =
        some ((Store.replay (ops.take r.position)).applyOp op).2) := by
  have hnew : r.kv.lastApplied < r.position + 1 := Nat.lt_succ_of_le h.applied_le
  obtain ⟨kv, call, hround, hstore, -, hahead', hbuffer⟩ := KVServer.applyTask_round hahead
    (r := { index := r.position + 1, op, isLeader, raftStateSize := size }) hnew
  rw [h.store] at hstore hbuffer
  exact ⟨kv, call, hround, hstore, hahead', hbuffer⟩

/-- The next command: the server does to its store what the log does, and saves at most that. -/
theorem command (h : ReplicaOk ops r) {op : Op} (hop : ops[r.position]? = some op) {isLeader : Bool}
    {size : ℕ} {kv : KVServer} {call : Option (ℕ × Bytes)}
    (hround : r.kv.applyTask isLeader size (commandMsg (r.position + 1) op) = .ok (kv, call)) :
    ReplicaOk ops ({ r with kv, position := r.position + 1 }.saveSnapshot call) ∧
      ∀ x ∈ call.toList, x.2 = (Store.replay (ops.take x.1)).makeSnapshot := by
  have htake : ops.take (r.position + 1) = ops.take r.position ++ [op] := by
    rw [List.take_add_one, hop]
    rfl
  obtain ⟨hstore, hlast, -, hcall⟩ :=
    KVServer.applyTask_spec (Nat.lt_succ_of_le h.applied_le) hround
  have hreplay : kv.toStore = Store.replay (ops.take (r.position + 1)) := by
    rw [htake, Store.replay_append, ← h.store, hstore]
  rw [hreplay] at hcall
  refine ⟨?_, fun x hx => ?_⟩
  · cases call with
    | none => exact ⟨hreplay, Nat.le_of_eq hlast, h.saved⟩
    | some x =>
      obtain rfl := hcall x rfl
      unfold Replica.saveSnapshot
      dsimp only
      split
      · exact ⟨hreplay, Nat.le_of_eq hlast, h.saved⟩
      · exact ⟨hreplay, Nat.le_of_eq hlast, Or.inr rfl⟩
  · rw [hcall x (Option.mem_toList.mp hx)]

/-- A restart resumes at the saved snapshot. -/
theorem restart (h : ReplicaOk ops r) (maxraftstate : ℤ) :
    ∃ kv, KVServer.start maxraftstate r.snapshot = some kv ∧
      ReplicaOk ops { r with kv, position := r.base } := by
  rcases h.saved with ⟨hbase, hnil⟩ | hsnapshot
  · refine ⟨{ maxraftstate }, by rw [hnil]; rfl, ?_, Nat.zero_le _, h.saved⟩
    rw [hbase, List.take_zero]
    rfl
  · refine ⟨{ toStore := Store.replay (ops.take r.base), maxraftstate }, ?_, rfl, Nat.zero_le _,
      h.saved⟩
    rw [KVServer.start, hsnapshot, Store.restoreFromSnapshot_makeSnapshot, Option.map_some]

end ReplicaOk

/-- A server starts without channels. -/
theorem KVServer.NoneAhead.of_start {maxraftstate : ℤ} {snapshot : Bytes} {kv : KVServer}
    (h : KVServer.start maxraftstate snapshot = some kv) : kv.NoneAhead := by
  obtain ⟨st, -, rfl⟩ := Option.map_eq_some_iff.mp h
  exact .of_empty rfl

namespace FleetOk

variable {ops : List Op} {s t : Fleet ι}

/-- A step of one server. -/
theorem update (h : FleetOk ops s) (p : ι) {r : Replica} (hr : ReplicaOk ops r)
    (hahead : r.kv.NoneAhead) (made : List (ℕ × Bytes))
    (hmade : ∀ x ∈ made, x.2 = (Store.replay (ops.take x.1)).makeSnapshot) :
    FleetOk ops { replicas := Function.update s.replicas p r, made := made ++ s.made } := by
  refine ⟨?_, ?_, fun x hx => (List.mem_append.mp hx).elim (hmade x) (h.made x)⟩
  · exact (Function.forall_update_iff s.replicas fun _ r => ReplicaOk ops r).mpr
      ⟨hr, fun q _ => h.replicas q⟩
  · exact (Function.forall_update_iff s.replicas fun _ r => r.kv.NoneAhead).mpr
      ⟨hahead, fun q _ => h.ahead q⟩

theorem step (h : FleetOk ops s) {a : FleetAction ι} (ha : s.step ops a = some t) :
    FleetOk ops t := by
  have hnone : ∀ x ∈ ([] : List (ℕ × Bytes)),
      x.2 = (Store.replay (ops.take x.1)).makeSnapshot := fun x hx => by cases hx
  cases a with
  | command p isLeader size =>
    simp only [Fleet.step] at ha
    split at ha
    case h_1 => cases ha
    case h_2 op hop =>
      split at ha
      case h_1 => cases ha
      case h_2 kv call hround =>
        obtain rfl := Option.some.inj ha
        obtain ⟨hr, hcall⟩ := (h.replicas p).command hop hround
        obtain ⟨kv', call', hround', -, hahead, -⟩ :=
          (h.replicas p).round (h.ahead p) op isLeader size
        obtain ⟨rfl, rfl⟩ := Prod.mk.inj (Except.ok.inj (hround'.symm.trans hround))
        refine h.update p hr ?_ call'.toList hcall
        rwa [(Replica.saveSnapshot_spec _ _).1]
  | save p index data =>
    simp only [Fleet.step] at ha
    split at ha
    case isTrue hmade =>
      obtain rfl := Option.some.inj ha
      obtain ⟨hstore, hlast, -⟩ := h.replicas p
      have hr : ReplicaOk ops { s.replicas p with base := index, snapshot := data } :=
        ⟨hstore, hlast, Or.inr (h.made _ hmade.1)⟩
      exact h.update p hr (h.ahead p) [] hnone
    case isFalse => cases ha
  | snapshot p index data =>
    simp only [Fleet.step] at ha
    split at ha
    case isTrue hmade =>
      have hdata : data = (Store.replay (ops.take index)).makeSnapshot := h.made _ hmade.1
      simp only [hdata, KVServer.applyTask_snapshot, Option.some.injEq] at ha
      subst ha
      have hle : (s.replicas p).kv.lastApplied ≤ index :=
        (h.replicas p).applied_le.trans hmade.2
      have hr : ReplicaOk ops { s.replicas p with
          kv := { (s.replicas p).kv with
            toStore := Store.replay (ops.take index), lastApplied := index }
          position := index } := ⟨rfl, Nat.le_refl _, (h.replicas p).saved⟩
      exact h.update p hr (fun i hi => (h.ahead p i hi).trans hle) [] hnone
    case isFalse => cases ha
  | restart p =>
    obtain ⟨kv, hkv, hr⟩ := (h.replicas p).restart (s.replicas p).kv.maxraftstate
    simp only [Fleet.step, hkv, Option.map_some, Option.some.injEq] at ha
    subst ha
    exact h.update p hr (.of_start hkv) [] hnone

end FleetOk

/-- However a server got where it is, by commands, by its own snapshots, by those of other servers
or by restarts, its map and its duplicate table are those of a replay of the log from the empty
store; the round with the next command ends, does to them and answers what the command does and
answers there; and a restart finds a snapshot it can read. -/
theorem snapshot_replay {ops : List Op} {maxraftstate : ℤ} {s : Fleet ι}
    (h : Reach (Fleet.step ops) (fun _ _ => True) (Fleet.init maxraftstate) s) (p : ι) :
    (s.replicas p).kv.toStore = Store.replay (ops.take (s.replicas p).position) ∧
      (∀ op isLeader size, ∃ kv call,
        (s.replicas p).kv.applyTask isLeader size
          (commandMsg ((s.replicas p).position + 1) op) = .ok (kv, call) ∧
        kv.toStore = ((Store.replay (ops.take (s.replicas p).position)).applyOp op).1 ∧
          (isLeader = true → kv.buffer ((s.replicas p).position + 1) =
            some ((Store.replay (ops.take (s.replicas p).position)).applyOp op).2)) ∧
      (KVServer.start maxraftstate (s.replicas p).snapshot).isSome := by
  have hok : FleetOk ops s := by
    refine h.invariant (fun s a t hs _ ha => hs.step ha)
      ⟨fun p => ?_, fun p => .of_empty rfl, fun x hx => by cases hx⟩
    exact ⟨rfl, Nat.le_refl _, Or.inl ⟨rfl, rfl⟩⟩
  have hp := hok.replicas p
  refine ⟨hp.store, fun op isLeader size => ?_, ?_⟩
  · obtain ⟨kv, call, hround, hstore, -, hbuffer⟩ := hp.round (hok.ahead p) op isLeader size
    exact ⟨kv, call, hround, hstore, hbuffer⟩
  · obtain ⟨kv, hkv, -⟩ := hp.restart maxraftstate
    rw [hkv]
    rfl

end

/-- Two appends, and the first one again. -/
def appendTwice : List Op := [
  { key := "k", value := "a", opType := .opAppend, clientId := 1, seqId := 0 },
  { key := "k", value := "b", opType := .opAppend, clientId := 1, seqId := 1 },
  { key := "k", value := "a", opType := .opAppend, clientId := 1, seqId := 0 }]

/-- Server `1` starts from the snapshot of server `0`, saves its own, crashes, and skips the
repeated append. -/
theorem snapshot_replay_restart : ∃ s : Fleet (Fin 2),
    Reach (Fleet.step appendTwice) (fun _ _ => True) (Fleet.init 0) s ∧
      (s.replicas 1).position = 3 ∧ (s.replicas 1).kv.toStore = Store.replay appendTwice := by
  have hrun : ∃ s : Fleet (Fin 2),
      Reach (Fleet.step appendTwice) (fun _ _ => True) (Fleet.init 0) s ∧
        (s.replicas 1).position = 3 :=
    Reach.exists_of_exec [.command 0 true 0,
      .snapshot 1 1 (Store.replay (appendTwice.take 1)).makeSnapshot, .command 1 false 0,
      .restart 1, .command 1 true 0] (by decide +kernel)
  obtain ⟨s, hs, hposition⟩ := hrun
  have hstore := (snapshot_replay hs 1).1
  rw [hposition] at hstore
  exact ⟨s, hs, hposition, hstore⟩

end LogicRaft
