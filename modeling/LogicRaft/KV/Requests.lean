import LogicRaft.KV.Snapshots

/-!
# The requests of clients (`server.go`, `Get` and `PutAppend`)

A `KVNode` is one server: what it sees of Raft, its `KVServer`, and the handlers of the requests it
has been called with. Handlers, `applyTask` and Raft interleave; a step of a handler is what it does
between two points where it waits or holds no lock.

Of Raft only its contract is used. `RaftView.move` says what may happen on its own: terms grow, a
server that is not leader may find any part of its log replaced that is not committed, and the
committed part only grows.
-/

namespace LogicRaft

/-! ## Raft as the server sees it -/

/-- The command at index `i` is the `i - 1`-st of `log`; those up to `commitIndex` are committed. -/
structure RaftView where
  term : ℕ := 0
  isLeader : Bool := false
  log : List Op := []
  commitIndex : ℕ := 0
  commit_le : commitIndex ≤ log.length := by decide

/-- What happens to the Raft of a server. -/
inductive RaftMove
  /-- it becomes the leader of a new term -/
  | elected (term : ℕ)
  /-- it loses its leadership, or sees a new term -/
  | stepDown (term : ℕ)
  /-- another leader replaces what comes after the first `keep` commands -/
  | replace (keep : ℕ) (commands : List Op)
  /-- the commands up to `index` are committed -/
  | commit (index : ℕ)

namespace RaftView

def committed (rf : RaftView) : List Op := rf.log.take rf.commitIndex

/-- `Raft.Start`: the index and the term of the command, and whether the server is the leader. -/
def start (rf : RaftView) (command : Op) : RaftView × ℕ × ℕ × Bool :=
  if rf.isLeader then
    ({ rf with
        log := rf.log ++ [command]
        commit_le := rf.commit_le.trans (by simp) }, rf.log.length + 1, rf.term, true)
  else (rf, 0, 0, false)

def move (rf : RaftView) : RaftMove → Option RaftView
  | .elected term => if rf.term < term then some { rf with term, isLeader := true } else none
  | .stepDown term => if rf.term ≤ term then some { rf with term, isLeader := false } else none
  | .replace keep commands =>
    if h : rf.isLeader = false ∧ rf.commitIndex ≤ keep then some
      { rf with
        log := rf.log.take keep ++ commands
        commit_le := by
          have := rf.commit_le
          rw [List.length_append, List.length_take]
          omega }
    else none
  | .commit index =>
    if h : rf.commitIndex ≤ index ∧ index ≤ rf.log.length then some
      { rf with commitIndex := index, commit_le := h.2 }
    else none

/-- What a server can rely on between two points in time: committed commands stay, and as long as it
leads in one term it only adds to its log. -/
structure Le (rf rf' : RaftView) : Prop where
  committed : rf.committed <+: rf'.committed
  term : rf.term ≤ rf'.term
  leads : rf'.term = rf.term → rf'.isLeader = true → rf.isLeader = true ∧ rf.log <+: rf'.log

theorem length_committed (rf : RaftView) : rf.committed.length = rf.commitIndex := by
  rw [committed, List.length_take, Nat.min_eq_left rf.commit_le]

/-- The committed part of a log that keeps it. -/
theorem committed_prefix_of_take {rf rf' : RaftView} (hle : rf.commitIndex ≤ rf'.commitIndex)
    (htake : rf'.log.take rf.commitIndex = rf.log.take rf.commitIndex) :
    rf.committed <+: rf'.committed := by
  rw [committed, committed, ← htake]
  exact List.take_prefix_take_left hle

theorem start_spec {rf rf' : RaftView} {command : Op} {index term : ℕ}
    (h : rf.start command = (rf', index, term, true)) :
    index = rf.log.length + 1 ∧ term = rf.term ∧ rf.isLeader = true ∧ rf'.term = rf.term ∧
      rf'.commitIndex = rf.commitIndex ∧ rf'.log = rf.log ++ [command] := by
  unfold start at h
  split at h
  case isTrue hleader =>
    obtain ⟨rfl, rfl, rfl, -⟩ := h
    exact ⟨rfl, rfl, hleader, rfl, rfl, rfl⟩
  case isFalse => cases h

theorem committed_start {rf rf' : RaftView} {command : Op} {index term : ℕ}
    (h : rf.start command = (rf', index, term, true)) : rf'.committed = rf.committed := by
  obtain ⟨-, -, -, -, hcommit, hlog⟩ := start_spec h
  rw [committed, hcommit, hlog, List.take_append_of_le_length rf.commit_le, committed]

theorem le_start {rf rf' : RaftView} {command : Op} {index term : ℕ}
    (h : rf.start command = (rf', index, term, true)) : rf.Le rf' := by
  obtain ⟨-, -, hleader, hterm, -, hlog⟩ := start_spec h
  exact ⟨committed_start h ▸ List.prefix_refl _, Nat.le_of_eq hterm.symm,
    fun _ _ => ⟨hleader, hlog ▸ List.prefix_append _ _⟩⟩

theorem start_refused {rf rf' : RaftView} {command : Op} {index term : ℕ}
    (h : rf.start command = (rf', index, term, false)) : rf' = rf := by
  unfold start at h
  split at h
  case isTrue => cases h
  case isFalse => exact (Prod.mk.inj h).1.symm

theorem le_move {rf rf' : RaftView} {m : RaftMove} (h : rf.move m = some rf') : rf.Le rf' := by
  cases m with
  | elected term =>
    simp only [move, Option.ite_none_right_eq_some, Option.some.injEq] at h
    obtain ⟨hlt, rfl⟩ := h
    exact ⟨List.prefix_refl _, Nat.le_of_lt hlt, fun hterm => absurd hterm (Nat.ne_of_gt hlt)⟩
  | stepDown term =>
    simp only [move, Option.ite_none_right_eq_some, Option.some.injEq] at h
    obtain ⟨hle, rfl⟩ := h
    exact ⟨List.prefix_refl _, hle, fun _ hleader => by cases hleader⟩
  | replace keep commands =>
    simp only [move, Option.dite_none_right_eq_some, Option.some.injEq] at h
    obtain ⟨⟨hfollower, hkeep⟩, rfl⟩ := h
    refine ⟨committed_prefix_of_take (Nat.le_refl _) ?_, Nat.le_refl _, fun _ hleader => ?_⟩
    · have hlen : rf.commitIndex ≤ (rf.log.take keep).length := by
        rw [List.length_take]
        exact Nat.le_min.mpr ⟨hkeep, rf.commit_le⟩
      rw [List.take_append_of_le_length hlen, List.take_take, Nat.min_eq_left hkeep]
    · exact absurd (hfollower.symm.trans hleader) (by decide)
  | commit index =>
    simp only [move, Option.dite_none_right_eq_some, Option.some.injEq] at h
    obtain ⟨⟨hle, -⟩, rfl⟩ := h
    exact ⟨committed_prefix_of_take hle rfl, Nat.le_refl _,
      fun _ hleader => ⟨hleader, List.prefix_refl _⟩⟩

end RaftView

/-! ## Handlers -/

structure GetArgs where
  key : String
deriving DecidableEq

structure PutAppendArgs where
  key : String
  value : String
  op : String
  clientId : ℤ
  seqId : ℤ
deriving DecidableEq

inductive Request
  | get (args : GetArgs)
  | putAppend (args : PutAppendArgs)
deriving DecidableEq

/-- Where a handler stands. -/
inductive Stage
  /-- `PutAppend` has yet to look at the duplicate table -/
  | called
  /-- about to call `Start` -/
  | starting
  /-- `Start` has returned, with this index and this term -/
  | started (index term : ℕ)
  /-- in the `select`, with this channel -/
  | waiting (index term ch : ℕ)
  /-- has replied; `start` is what `Start` returned, and `cleanup` whether the goroutine that
  removes the channel is still to run -/
  | replied (start : Option (ℕ × ℕ)) (reply : OpReply) (cleanup : Bool)
deriving DecidableEq

structure Handler where
  request : Request
  stage : Stage
deriving DecidableEq

namespace Request

/-- The command for the log; `none` where `getOperationType` panics. -/
def op? : Request → Option Op
  | .get args => some { key := args.key, opType := .opGet }
  | .putAppend args => (getOperationType args.op).map fun opType =>
      { key := args.key, value := args.value, opType, clientId := args.clientId
        seqId := args.seqId }

/-- A `PutAppendReply` has no value. -/
def answer (request : Request) (opReply : OpReply) : OpReply :=
  match request with
  | .get _ => opReply
  | .putAppend _ => { err := opReply.err }

/-- `Get` does not look at the duplicate table. -/
def entry : Request → Stage
  | .get _ => .starting
  | .putAppend _ => .called

end Request

/-- What `Start` returned to a handler that has not replied yet. -/
def Handler.pending? (h : Handler) : Option (ℕ × ℕ) :=
  match h.stage with
  | .started index term | .waiting index term _ => some (index, term)
  | _ => none

/-- `<-notifyCh`, if there is something to receive. -/
def KVServer.recv (kv : KVServer) (ch : ℕ) : Option (OpReply × KVServer) :=
  kv.chans[ch]?.join.map fun opReply => (opReply, { kv with chans := kv.chans.set ch none })

/-- The next step of a handler; in the `select` this is to receive the result. `none` if it has to
wait, is done, or panics. -/
def Handler.run (h : Handler) (rf : RaftView) (kv : KVServer) :
    Option (RaftView × KVServer × Stage) :=
  match h.stage with
  | .called =>
    match h.request with
    | .get _ => none
    | .putAppend args =>
      if kv.requestDuplicated args.clientId args.seqId then
        some (rf, kv, .replied none { err := (kv.lastReply args.clientId).err } false)
      else some (rf, kv, .starting)
  | .starting =>
    match h.request.op? with
    | none => none
    | some op =>
      match rf.start op with
      | (rf, index, term, true) => some (rf, kv, .started index term)
      | (rf, _, _, false) => some (rf, kv, .replied none { err := .errWrongLeader } false)
  | .started index term =>
    some (rf, (kv.getNotifyChannel index).1, .waiting index term (kv.getNotifyChannel index).2)
  | .waiting index term ch =>
    (kv.recv ch).map fun (opReply, kv) =>
      (rf, kv, .replied (some (index, term)) (h.request.answer opReply) true)
  | .replied (some (index, term)) reply true =>
    some (rf, kv.removeNotifyChannel index, .replied (some (index, term)) reply false)
  | .replied .. => none

/-- Everything a step of a handler can be. -/
inductive Handler.Runs (rf : RaftView) (kv : KVServer) :
    Handler → RaftView → KVServer → Stage → Prop
  | duplicate {args : PutAppendArgs}
      (hdup : kv.requestDuplicated args.clientId args.seqId = true) :
      Runs rf kv ⟨.putAppend args, .called⟩ rf kv
        (.replied none { err := (kv.lastReply args.clientId).err } false)
  | fresh {args : PutAppendArgs} : Runs rf kv ⟨.putAppend args, .called⟩ rf kv .starting
  | accepted {request : Request} {op : Op} {rf' : RaftView} {index term : ℕ}
      (hop : request.op? = some op) (hstart : rf.start op = (rf', index, term, true)) :
      Runs rf kv ⟨request, .starting⟩ rf' kv (.started index term)
  | refused {request : Request} :
      Runs rf kv ⟨request, .starting⟩ rf kv (.replied none { err := .errWrongLeader } false)
  | registered {request : Request} {index term : ℕ} :
      Runs rf kv ⟨request, .started index term⟩ rf (kv.getNotifyChannel index).1
        (.waiting index term (kv.getNotifyChannel index).2)
  | received {request : Request} {index term ch : ℕ} {opReply : OpReply}
      (hch : kv.chans[ch]? = some (some opReply)) :
      Runs rf kv ⟨request, .waiting index term ch⟩ rf { kv with chans := kv.chans.set ch none }
        (.replied (some (index, term)) (request.answer opReply) true)
  | cleaned {request : Request} {index term : ℕ} {reply : OpReply} :
      Runs rf kv ⟨request, .replied (some (index, term)) reply true⟩ rf
        (kv.removeNotifyChannel index) (.replied (some (index, term)) reply false)

theorem Handler.runs_of_run {h : Handler} {rf rf' : RaftView} {kv kv' : KVServer} {stage : Stage}
    (hrun : h.run rf kv = some (rf', kv', stage)) : h.Runs rf kv rf' kv' stage := by
  obtain ⟨request, stage₀⟩ := h
  unfold run at hrun
  split at hrun
  case h_1 hstage =>
    obtain rfl : stage₀ = .called := hstage
    split at hrun
    case h_1 => cases hrun
    case h_2 args hargs =>
      obtain rfl : request = .putAppend args := hargs
      split at hrun
      case isTrue hdup => cases hrun; exact .duplicate hdup
      case isFalse => cases hrun; exact .fresh
  case h_2 hstage =>
    obtain rfl : stage₀ = .starting := hstage
    split at hrun
    case h_1 => cases hrun
    case h_2 op hop =>
      split at hrun
      case h_1 rf₁ index term hstart => cases hrun; exact .accepted hop hstart
      case h_2 rf₁ index term hstart =>
        cases hrun
        rw [RaftView.start_refused hstart]
        exact .refused
  case h_3 index term hstage =>
    obtain rfl : stage₀ = .started index term := hstage
    cases hrun
    exact .registered
  case h_4 index term ch hstage =>
    obtain rfl : stage₀ = .waiting index term ch := hstage
    simp only [KVServer.recv, Option.map_map, Option.map_eq_some_iff, Option.join_eq_some_iff,
      Function.comp] at hrun
    obtain ⟨opReply, hch, heq⟩ := hrun
    cases heq
    exact .received hch
  case h_5 index term reply hstage =>
    obtain rfl : stage₀ = .replied (some (index, term)) reply true := hstage
    cases hrun
    exact .cleaned
  case h_6 => cases hrun

/-! ## The server -/

structure KVNode where
  raft : RaftView := {}
  replica : Replica
  handlers : List Handler := []

inductive KVAction
  /-- something happens to Raft -/
  | raft (move : RaftMove)
  /-- `applyTask` gets the next command -/
  | command (raftStateSize : ℕ)
  /-- `applyTask` gets a snapshot of the log up to `index` -/
  | snapshot (index : ℕ)
  /-- a crash, followed by `StartKVServer` -/
  | restart
  /-- a client calls `Get` or `PutAppend` -/
  | call (request : Request)
  /-- the `j`-th handler takes its next step -/
  | run (j : ℕ)
  /-- `ClientRequestTimeout` passes in the `select` of the `j`-th handler -/
  | timeout (j : ℕ)

namespace KVNode

def init (maxraftstate : ℤ) : KVNode where
  replica := { kv := { maxraftstate } }

/-- The commands the server has been handed, those that went into a snapshot included. -/
def applied (s : KVNode) : List Op := s.raft.committed.take s.replica.position

variable [KVGob]

/-- One step; `none` if it is not possible, or if the server panics or blocks.

`.command` is a whole round of `applyTask` at the moment of its `GetState`, so `isLeader` is that of
this moment. The round takes the message earlier, and then holds `kv.mu` up to its end: no handler
sees the store in between, and what happens to Raft in between is a step before this one. -/
def step (s : KVNode) : KVAction → Option KVNode
  | .raft move => (s.raft.move move).map fun raft => { s with raft }
  | .command raftStateSize =>
    let r := s.replica
    match s.raft.committed[r.position]? with
    | none => none
    | some op =>
      match r.kv.applyTask s.raft.isLeader raftStateSize (commandMsg (r.position + 1) op) with
      | .error _ => none
      | .ok (kv, call) => some { s with
          replica := { r with kv, position := r.position + 1 }.saveSnapshot call }
  | .snapshot index =>
    let r := s.replica
    let data := (Store.replay (s.raft.committed.take index)).makeSnapshot
    if r.position ≤ index ∧ index ≤ s.raft.commitIndex then
      match r.kv.applyTask s.raft.isLeader 0 (snapshotMsg index data) with
      | .error _ => none
      | .ok (kv, _) => some { s with
          replica := { kv, position := index, base := index, snapshot := data } }
    else none
  | .restart =>
    let r := s.replica
    (KVServer.start r.kv.maxraftstate r.snapshot).map fun kv =>
      { raft := { s.raft with isLeader := false }, replica := { r with kv, position := r.base } }
  | .call request => some { s with handlers := s.handlers ++ [⟨request, request.entry⟩] }
  | .run j =>
    match s.handlers[j]? with
    | none => none
    | some h => (h.run s.raft s.replica.kv).map fun (raft, kv, stage) =>
        { raft, replica := { s.replica with kv }, handlers := s.handlers.set j { h with stage } }
  | .timeout j =>
    match s.handlers[j]? with
    | some ⟨request, .waiting index term _⟩ => some { s with
        handlers := s.handlers.set j
          ⟨request, .replied (some (index, term)) { err := .errTimeout } true⟩ }
    | _ => none

end KVNode

end LogicRaft
