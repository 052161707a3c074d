import LogicRaft.Cluster.SharedLog
import LogicRaft.KV.Server

/-!
# The threads of a server

A `Deployment` is the cluster with a `KVServer` on every peer. On a server three threads meet:
`applicationTicker` and the `InstallSnapshot` handler send on `applyCh`, which has no buffer, and
`applyTask` receives. The handler sends with `rf.mu` held. `applyTask` holds `kv.mu` while it works
on a message and calls back into Raft up to three times, each time through `rf.mu`; here its round
is cut at these calls (`Task`). A message changes hands in one step of both sides, when `applyTask`
is at its `select`.

If a snapshot is adopted between the receipt of a new command and the last of these calls, or a new
command is received while the handler blocks, the two wait for each other
(`waiting_for_each_other`). Otherwise they never do (`no_deadlock`).

The request handlers of the server take `kv.mu` for sections that wait for nothing, so each section
is one step, possible while `applyTask` does not hold it.
-/

namespace LogicRaft

/-- Where `applyTask` stands. -/
inductive Task
  /-- at the `select` on `applyCh` -/
  | receiving
  /-- with a message, about to take `kv.mu` -/
  | received (message : ApplyMsg Op)
  /-- in `GetState`, with the reply to a command -/
  | asking (index : ℕ) (opReply : OpReply)
  /-- in the send on the channel of the index -/
  | notifying (index : ℕ) (opReply : OpReply)
  /-- in `GetRaftStateSize` -/
  | measuring (index : ℕ)
  /-- in `Raft.Snapshot` -/
  | compacting (index : ℕ) (snapshot : Bytes)
deriving DecidableEq

/-- `applyTask` is in a call that takes `rf.mu`. -/
def Task.inRaft : Task → Bool
  | .asking .. | .measuring .. | .compacting .. => true
  | _ => false

/-- `applyTask` holds `kv.mu`. -/
def Task.holdsMu : Task → Bool
  | .receiving | .received .. => false
  | _ => true

/-- The index for which `applyTask` may still send a reply. -/
def Task.pending : Task → Option ℕ
  | .received message => if message.commandValid then some message.commandIndex else none
  | .asking index _ | .notifying index _ => some index
  | _ => none

/-- A server: its state and its `applyTask`. -/
structure Site where
  kv : KVServer
  task : Task := .receiving
deriving DecidableEq

/-- A message that `applyTask` does not ignore as already processed. -/
def KVServer.isNew (kv : KVServer) (message : ApplyMsg Op) : Bool :=
  message.commandValid && decide (kv.lastApplied < message.commandIndex)

/-- `applyTask` has a call into Raft to make before it is back at its `select`. -/
def Site.willCall (site : Site) : Bool :=
  match site.task with
  | .receiving => false
  | .received message => site.kv.isNew message
  | .notifying .. => site.kv.maxraftstate ≠ -1
  | _ => true

/-! ## A round of `applyTask` in pieces -/

namespace KVServer

variable [KVGob]

/-- From taking `kv.mu` to the first call into Raft, or to the end of the round. -/
def takeUp (kv : KVServer) (message : ApplyMsg Op) : Except Fault (KVServer × Task) :=
  if message.commandValid then
    if message.commandIndex ≤ kv.lastApplied then .ok (kv, .receiving)
    else match message.command with
      | none => .error .panic
      | some op => .ok (kv.execute message.commandIndex op,
          .asking message.commandIndex (kv.toStore.applyOp op).2)
  else if message.snapshotValid then
    match kv.toStore.restoreFromSnapshot message.snapshot with
    | none => .error .panic
    | some st => .ok ({ kv with toStore := st, lastApplied := message.snapshotIndex }, .receiving)
  else .ok (kv, .receiving)

omit [KVGob] in
/-- After the reply has been sent, or need not be. -/
def afterReply (kv : KVServer) (index : ℕ) : Task :=
  if kv.maxraftstate ≠ -1 then .measuring index else .receiving

/-- After `GetRaftStateSize`. -/
def afterSize (kv : KVServer) (raftStateSize index : ℕ) : Task :=
  if kv.maxraftstate ≤ raftStateSize then .compacting index kv.makeSnapshot else .receiving

/-- The call of `Raft.Snapshot` that a round ends with. -/
def finalCall (kv : KVServer) (raftStateSize index : ℕ) : Option (ℕ × Bytes) :=
  match kv.afterReply index with
  | .measuring index => match kv.afterSize raftStateSize index with
    | .compacting index snapshot => some (index, snapshot)
    | _ => none
  | _ => none

/-- Put together, the pieces are the round. -/
theorem applyTask_eq_pieces (kv : KVServer) (isLeader : Bool) (size : ℕ) (message : ApplyMsg Op) :
    kv.applyTask isLeader size message = (kv.takeUp message).bind fun x => match x.2 with
      | .asking index opReply => (x.1.notify isLeader index opReply).map fun kv =>
          (kv, kv.finalCall size index)
      | _ => .ok (x.1, none) := by
  have hcall : ∀ (kv : KVServer) (index : ℕ),
      kv.snapshotCall size index = kv.finalCall size index := by
    intro kv index
    unfold snapshotCall finalCall afterReply
    by_cases hnever : kv.maxraftstate = -1
    · rw [if_neg (by simp [hnever]), if_neg (by simp [hnever])]
    · rw [if_pos hnever]
      dsimp only
      unfold afterSize
      by_cases hbig : kv.maxraftstate ≤ size
      · rw [if_pos ⟨hnever, hbig⟩, if_pos hbig]
      · rw [if_neg (fun h => hbig h.2), if_neg hbig]
  unfold applyTask takeUp
  split
  · split
    · rfl
    · cases message.command with
      | none => rfl
      | some op =>
        change _ = ((kv.execute message.commandIndex op).notify isLeader message.commandIndex
          (kv.toStore.applyOp op).2).map fun kv => (kv, kv.finalCall size message.commandIndex)
        simp only [hcall]
        cases (kv.execute message.commandIndex op).notify isLeader message.commandIndex
          (kv.toStore.applyOp op).2 <;> rfl
  · split
    · cases kv.toStore.restoreFromSnapshot message.snapshot <;> rfl
    · rfl

end KVServer

/-! ## The deployment -/

structure Deployment (n : ℕ) where
  raft : System n Op
  sites : Fin n → Site

inductive Move (n : ℕ)
  /-- a step of the cluster -/
  | raft (a : Action n Op)
  /-- the next step of the `applyTask` of a server -/
  | task (p : Fin n)
  /-- a request handler makes a channel for an index -/
  | getNotifyChannel (p : Fin n) (index : ℕ)
  /-- a request handler gives the channel of an index up -/
  | removeNotifyChannel (p : Fin n) (index : ℕ)
  /-- a request handler receives its reply -/
  | takeReply (p : Fin n) (ch : ℕ)

/-- The message that a step puts on `applyCh`. -/
def Effect.handed {n : ℕ} (e : Effect n Op) : Option (ApplyMsg Op) :=
  e.events.findSome? fun x => match x with
    | .applied _ message => some message
    | _ => none

namespace Deployment

variable {n : ℕ} [RaftGob Op] [KVGob]

/-- Every server freshly started. -/
def init (maxraftstate : ℤ) : Deployment n where
  raft := System.init
  sites _ := { kv := { maxraftstate } }

omit [RaftGob Op] in
/-- What a step of its peer does to a server. A crash takes the server with it. A message needs
`applyTask` at its `select`. -/
def follow (site : Site) (p : Peer n Op) (e : Effect n Op) : Option Site :=
  if e.peer.incarnation ≠ p.incarnation then
    (KVServer.start site.kv.maxraftstate e.peer.rf.persister.snapshot).map fun kv => { kv }
  else match e.handed with
    | none => some site
    | some message => if site.task = .receiving then some { site with task := .received message }
        else none

omit [RaftGob Op] in
/-- Both sides of a step of peer `p`. -/
def install (d : Deployment n) (p : Fin n) (net : List (Packet n Op)) (e : Effect n Op)
    (site : Site) : Deployment n where
  raft := d.raft.install p net e
  sites := Function.update d.sites p site

omit [RaftGob Op] [KVGob] in
/-- A step of the server alone. -/
def setSite (d : Deployment n) (p : Fin n) (site : Site) : Deployment n :=
  { d with sites := Function.update d.sites p site }

/-- The server panics. -/
def crash (d : Deployment n) (p : Fin n) : Option (Deployment n) :=
  let e := (d.raft.peers p).crash (d.raft.peers p).rf
  (follow (d.sites p) (d.raft.peers p) e).map (d.install p d.raft.net e)

/-- The next step of `applyTask`; `none` while it waits. -/
def taskStep (d : Deployment n) (p : Fin n) : Option (Deployment n) :=
  let kv := (d.sites p).kv
  match (d.sites p).task with
  | .receiving => none
  | .received message =>
    match kv.takeUp message with
    | .ok (kv, task) => some (d.setSite p { kv, task })
    | .error _ => d.crash p
  | .asking index opReply =>
    if (d.raft.peers p).muFree then some (d.setSite p
      { kv, task := if (d.raft.peers p).rf.getState.2 then .notifying index opReply
          else kv.afterReply index })
    else none
  | .notifying index opReply =>
    match kv.notify true index opReply with
    | .ok kv => some (d.setSite p { kv, task := kv.afterReply index })
    | .error _ => none
  | .measuring index =>
    if (d.raft.peers p).muFree then some (d.setSite p
      { kv, task := kv.afterSize (d.raft.peers p).rf.persister.raftstate.length index })
    else none
  | .compacting index snapshot =>
    ((d.raft.peers p).act (.snapshot index (some snapshot))).bind fun e =>
      (follow { kv } (d.raft.peers p) e).map (d.install p d.raft.net e)

def step (d : Deployment n) : Move n → Option (Deployment n)
  | .raft a =>
    match d.raft.target a with
    | none => none
    -- only `applyTask` calls `Snapshot`
    | some (_, .own (.snapshot ..)) => none
    | some (p, c) => ((d.raft.peers p).step c).bind fun e =>
        (follow (d.sites p) (d.raft.peers p) e).map (d.install p (d.raft.inFlight a) e)
  | .task p => d.taskStep p
  | .getNotifyChannel p index =>
    if (d.sites p).task.holdsMu then none
    else some (d.setSite p { d.sites p with kv := ((d.sites p).kv.getNotifyChannel index).1 })
  | .removeNotifyChannel p index =>
    if (d.sites p).task.holdsMu then none
    else some (d.setSite p { d.sites p with kv := (d.sites p).kv.removeNotifyChannel index })
  | .takeReply p ch =>
    match (d.sites p).kv.chans[ch]? with
    | some (some _) => some (d.setSite p
        { d.sites p with kv := { (d.sites p).kv with chans := (d.sites p).kv.chans.set ch none } })
    | _ => none

omit [RaftGob Op] [KVGob] in
/-- The `InstallSnapshot` handler has `rf.mu` and blocks in its send on `applyCh`, and `applyTask`,
the only receiver, is in a call that needs `rf.mu`. -/
def Deadlocked (d : Deployment n) (p : Fin n) : Prop :=
  ¬ (d.raft.peers p).muFree ∧ (d.sites p).task.inRaft = true

omit [RaftGob Op] [KVGob] in
instance (d : Deployment n) (p : Fin n) : Decidable (d.Deadlocked p) :=
  inferInstanceAs (Decidable (_ ∧ _))

omit [RaftGob Op] [KVGob] in
/-- The step starts a wait for each other at peer `p`: a snapshot is adopted while `applyTask` has a
call into Raft to make, or `applyTask` receives a new command while the handler blocks. -/
def entangles (site : Site) (p : Peer n Op) : Cause n Op → Bool
  | .packet m =>
    match m.payload with
    | .snapshotRequest _ args =>
      decide (p.rf.currentTerm ≤ args.term ∧
        p.rf.log.base < args.lastIncludedIndex) && site.willCall
    | _ => false
  | .own .tickerStep =>
    match p.rf.ticker with
    | .offering _ _ message => decide (¬ p.muFree) && site.kv.isNew message
    | _ => false
  | _ => false

omit [RaftGob Op] [KVGob] in
def tangles (d : Deployment n) : Move n → Bool
  | .raft a => (d.raft.target a).any fun x => entangles (d.sites x.1) (d.raft.peers x.1) x.2
  | _ => false

omit [RaftGob Op] [KVGob] in
/-- The step starts no such wait. -/
def Untangled (d : Deployment n) (m : Move n) : Prop := d.tangles m = false

omit [RaftGob Op] [KVGob] in
instance (d : Deployment n) (m : Move n) : Decidable (d.Untangled m) :=
  inferInstanceAs (Decidable (_ = _))

end Deployment

/-! ## Everything a step can do -/

section Moves

variable {n : ℕ} [RaftGob Op] [KVGob]

omit [RaftGob Op] in
/-- A step of `applyTask` without a step of its peer. -/
inductive TaskMove (peer : Peer n Op) (site : Site) : Site → Prop
  | takenUp {message : ApplyMsg Op} {kv : KVServer} {task : Task}
      (htask : site.task = .received message) (htake : site.kv.takeUp message = .ok (kv, task)) :
      TaskMove peer site { kv, task }
  | asked {index : ℕ} {opReply : OpReply} (htask : site.task = .asking index opReply)
      (hfree : peer.muFree) : TaskMove peer site { site with task := .notifying index opReply }
  | unasked {index : ℕ} {opReply : OpReply} (htask : site.task = .asking index opReply)
      (hfree : peer.muFree) : TaskMove peer site { site with task := site.kv.afterReply index }
  | notified {index : ℕ} {opReply : OpReply} {kv : KVServer}
      (htask : site.task = .notifying index opReply)
      (hsent : site.kv.notify true index opReply = .ok kv) :
      TaskMove peer site { kv, task := kv.afterReply index }
  | measured {index size : ℕ} (htask : site.task = .measuring index) (hfree : peer.muFree) :
      TaskMove peer site { site with task := site.kv.afterSize size index }

namespace Deployment

variable {d d' : Deployment n} {p : Fin n}

/-- Peer `p` takes a step and its server follows. `task` is where `applyTask` is when the step is
taken: in `Raft.Snapshot` it is on its way back to the `select`. -/
inductive PeerMove (d : Deployment n) (p : Fin n) (c : Cause n Op) : Deployment n → Prop
  | intro {a : Action n Op} {e : Effect n Op} {task : Task} {site : Site}
      (htarget : d.raft.target a = some (p, c)) (hstep : (d.raft.peers p).step c = some e)
      (htask : task = (d.sites p).task ∨ (task = .receiving ∧ (d.sites p).task.pending = none))
      (hfollow : follow { d.sites p with task } (d.raft.peers p) e = some site) :
      PeerMove d p c (d.install p (d.raft.inFlight a) e site)

/-- A peer takes a step of its own, which is not `Snapshot`, and its server follows. -/
theorem raft_cases {a : Action n Op} (h : d.step (.raft a) = some d') :
    ∃ p c e site, d.raft.target a = some (p, c) ∧ (∀ index data, c ≠ .own (.snapshot index data)) ∧
      (d.raft.peers p).step c = some e ∧ follow (d.sites p) (d.raft.peers p) e = some site ∧
      d' = d.install p (d.raft.inFlight a) e site := by
  simp only [step] at h
  split at h
  case h_1 => cases h
  case h_2 => cases h
  case h_3 p c hcause htarget =>
    obtain ⟨e, he, hmap⟩ := Option.bind_eq_some_iff.mp h
    obtain ⟨site, hfollow, rfl⟩ := Option.map_eq_some_iff.mp hmap
    refine ⟨p, c, e, site, htarget, ?_, he, hfollow, rfl⟩
    rintro index data rfl
    exact hcause index data rfl

theorem step_raft {a : Action n Op} (h : d.step (.raft a) = some d') :
    ∃ p c, d.raft.target a = some (p, c) ∧ d.PeerMove p c d' := by
  obtain ⟨p, c, e, site, htarget, -, he, hfollow, rfl⟩ := raft_cases h
  exact ⟨p, c, htarget, .intro htarget he (Or.inl rfl) hfollow⟩

/-- `applyTask` moves alone, or takes its peer along: in a panic and in `Raft.Snapshot`. -/
theorem step_task (h : d.step (.task p) = some d') :
    (∃ c, entangles (d.sites p) (d.raft.peers p) c = false ∧ d.PeerMove p c d') ∨
      ∃ site, TaskMove (d.raft.peers p) (d.sites p) site ∧ d' = d.setSite p site := by
  simp only [step] at h
  unfold taskStep at h
  dsimp only at h
  cases htask : (d.sites p).task with
  | receiving =>
    rw [htask] at h
    cases h
  | received message =>
    rw [htask] at h
    dsimp only at h
    split at h
    case h_1 htake => exact Or.inr ⟨_, .takenUp htask htake, (Option.some.inj h).symm⟩
    case h_2 =>
      obtain ⟨site, hfollow, rfl⟩ := Option.map_eq_some_iff.mp h
      exact Or.inl ⟨.own .restart, rfl, .intro (a := .act p .restart) rfl rfl (Or.inl rfl) hfollow⟩
  | asking index opReply =>
    rw [htask] at h
    dsimp only at h
    split at h
    case isTrue hfree =>
      obtain rfl := Option.some.inj h
      split
      · exact Or.inr ⟨_, .asked htask hfree, rfl⟩
      · exact Or.inr ⟨_, .unasked htask hfree, rfl⟩
    case isFalse => cases h
  | notifying index opReply =>
    rw [htask] at h
    dsimp only at h
    split at h
    case h_1 hsent => exact Or.inr ⟨_, .notified htask hsent, (Option.some.inj h).symm⟩
    case h_2 => cases h
  | measuring index =>
    rw [htask] at h
    dsimp only at h
    split at h
    case isTrue hfree => exact Or.inr ⟨_, .measured htask hfree, (Option.some.inj h).symm⟩
    case isFalse => cases h
  | compacting index snapshot =>
    rw [htask] at h
    obtain ⟨e, he, hmap⟩ := Option.bind_eq_some_iff.mp h
    obtain ⟨site, hfollow, rfl⟩ := Option.map_eq_some_iff.mp hmap
    refine Or.inl ⟨.own (.snapshot index (some snapshot)), rfl, ?_⟩
    refine .intro (a := .act p (.snapshot index (some snapshot))) rfl he (Or.inr ⟨rfl, ?_⟩) hfollow
    rw [htask]
    rfl

theorem step_getNotifyChannel {index : ℕ} (h : d.step (.getNotifyChannel p index) = some d') :
    d' = d.setSite p { d.sites p with kv := ((d.sites p).kv.getNotifyChannel index).1 } := by
  simp only [step] at h
  split at h
  · cases h
  · exact (Option.some.inj h).symm

theorem step_removeNotifyChannel {index : ℕ} (h : d.step (.removeNotifyChannel p index) = some d') :
    d' = d.setSite p { d.sites p with kv := (d.sites p).kv.removeNotifyChannel index } := by
  simp only [step] at h
  split at h
  · cases h
  · exact (Option.some.inj h).symm

theorem step_takeReply {ch : ℕ} (h : d.step (.takeReply p ch) = some d') :
    d' = d.setSite p
      { d.sites p with kv :=
        { (d.sites p).kv with chans := (d.sites p).kv.chans.set ch none } } := by
  simp only [step] at h
  split at h
  · exact (Option.some.inj h).symm
  · cases h

/-! ### The cluster inside -/

omit [RaftGob Op] in
/-- The step of the cluster that a move takes. -/
def action (d : Deployment n) : Move n → Option (Action n Op)
  | .raft a => some a
  | .task p =>
    match (d.sites p).task with
    | .received message =>
      match (d.sites p).kv.takeUp message with
      | .ok _ => none
      | .error _ => some (.act p .restart)
    | .compacting index snapshot => some (.act p (.snapshot index (some snapshot)))
    | _ => none
  | _ => none

omit [KVGob] in
theorem step_install_raft {c : Cause n Op} {a : Action n Op}
    (htarget : d.raft.target a = some (p, c))
    {e : Effect n Op} (hstep : (d.raft.peers p).step c = some e) (site : Site) :
    d.raft.step a = some (d.install p (d.raft.inFlight a) e site).raft := by
  rw [System.step, htarget]
  exact congrArg (Option.map _) hstep

theorem raft_of_step {m : Move n} (h : d.step m = some d') :
    match d.action m with
    | none => d'.raft = d.raft
    | some a => d.raft.step a = some d'.raft := by
  cases m with
  | raft a =>
    unfold step at h
    dsimp only at h
    split at h
    case h_1 => cases h
    case h_2 => cases h
    case h_3 htarget =>
      obtain ⟨e, he, hmap⟩ := Option.bind_eq_some_iff.mp h
      obtain ⟨site, -, rfl⟩ := Option.map_eq_some_iff.mp hmap
      exact step_install_raft htarget he site
  | task q =>
    simp only [step] at h
    unfold taskStep at h
    unfold action
    dsimp only at h ⊢
    cases htask : (d.sites q).task with
    | receiving =>
      rw [htask] at h
      cases h
    | received message =>
      rw [htask] at h
      dsimp only at h ⊢
      split at h
      case h_1 htake =>
        obtain rfl := Option.some.inj h
        rw [htake]
        rfl
      case h_2 htake =>
        obtain ⟨site, -, rfl⟩ := Option.map_eq_some_iff.mp h
        rw [htake]
        exact step_install_raft (a := .act q .restart) rfl rfl site
    | asking index opReply =>
      rw [htask] at h
      dsimp only at h
      split at h
      case isTrue =>
        obtain rfl := Option.some.inj h
        rfl
      case isFalse => cases h
    | notifying index opReply =>
      rw [htask] at h
      dsimp only at h
      split at h
      case h_1 =>
        obtain rfl := Option.some.inj h
        rfl
      case h_2 => cases h
    | measuring index =>
      rw [htask] at h
      dsimp only at h
      split at h
      case isTrue =>
        obtain rfl := Option.some.inj h
        rfl
      case isFalse => cases h
    | compacting index snapshot =>
      rw [htask] at h
      obtain ⟨e, he, hmap⟩ := Option.bind_eq_some_iff.mp h
      obtain ⟨site, -, rfl⟩ := Option.map_eq_some_iff.mp hmap
      exact step_install_raft (a := .act q (.snapshot index (some snapshot))) rfl he site
  | getNotifyChannel q index =>
    rw [step_getNotifyChannel h]
    rfl
  | removeNotifyChannel q index =>
    rw [step_removeNotifyChannel h]
    rfl
  | takeReply q ch =>
    rw [step_takeReply h]
    rfl

/-- A deployment as a machine with a cluster inside. -/
def host (n : ℕ) : Host n Op (Deployment n) (Move n) where
  step := step
  raft d := d.raft
  setNet d net := { d with raft.net := net }
  action := action
  raft_of_none h ha := by
    have hraft := raft_of_step h
    rwa [ha] at hraft
  raft_of_some h ha := by
    have hraft := raft_of_step h
    rwa [ha] at hraft
  setNet_net _ := rfl
  raft_setNet _ _ := rfl

end Deployment

end Moves

/-! ## What keeps the two apart -/

section Apart

variable {n : ℕ} [RaftGob Op] [KVGob] {p : Peer n Op} {c : Cause n Op} {e : Effect n Op}
  {site site' : Site}

omit [RaftGob Op] [KVGob] in
theorem Site.willCall_of_inRaft (h : site.task.inRaft = true) : site.willCall = true := by
  unfold Site.willCall
  cases htask : site.task with
  | receiving | received | notifying =>
    rw [htask] at h
    cases h
  | _ => rfl

omit [RaftGob Op] in
/-- A message that is not a new command takes `applyTask` back to its `select`. -/
theorem KVServer.takeUp_of_not_new {kv kv' : KVServer} {message : ApplyMsg Op} {task : Task}
    (hnew : kv.isNew message = false) (h : kv.takeUp message = .ok (kv', task)) :
    task = .receiving := by
  unfold KVServer.takeUp at h
  split at h
  case isTrue hvalid =>
    rw [KVServer.isNew, hvalid, Bool.true_and, decide_eq_false_iff_not, Nat.not_lt] at hnew
    rw [if_pos hnew] at h
    exact (Prod.mk.inj (Except.ok.inj h)).2.symm
  case isFalse =>
    split at h
    · split at h
      · cases h
      · exact (Prod.mk.inj (Except.ok.inj h)).2.symm
    · exact (Prod.mk.inj (Except.ok.inj h)).2.symm

omit [RaftGob Op] [KVGob] in
theorem KVServer.getNotifyChannel_maxraftstate (kv : KVServer) (index : ℕ) :
    (kv.getNotifyChannel index).1.maxraftstate = kv.maxraftstate := by
  unfold KVServer.getNotifyChannel
  split <;> rfl

omit [RaftGob Op] [KVGob] in
theorem KVServer.notify_maxraftstate {kv kv' : KVServer} {index : ℕ} {opReply : OpReply}
    (h : kv.notify true index opReply = .ok kv') : kv'.maxraftstate = kv.maxraftstate := by
  obtain ⟨-, rfl⟩ := KVServer.send_spec h
  exact kv.getNotifyChannel_maxraftstate index

/-- A step of a peer that does not entangle leaves a server whose handler blocks with no call to
make. -/
theorem Does.willCall_follow (h : Does p c e) (hok : Deployment.entangles site p c = false)
    (hapart : ¬ p.muFree → site.willCall = false)
    (hfollow : Deployment.follow site p e = some site')
    (hblocked : ¬ e.peer.muFree) : site'.willCall = false := by
  -- without a crash and a message the server stays as it is
  have hstays : e.peer.incarnation = p.incarnation → e.handed = none → site' = site := by
    intro hinc hnone
    rw [Deployment.follow, if_neg (not_not.mpr hinc), hnone] at hfollow
    exact (Option.some.inj hfollow).symm
  cases h with
  | crashed | appendPanicked | installDone => exact absurd rfl hblocked
  | @sent entries i message hticker =>
    have hfree : ¬ p.muFree := hblocked
    have hnew : site.kv.isNew message = false := by
      simpa [Deployment.entangles, hticker, hfree] using hok
    rw [Deployment.follow, if_neg (not_not.mpr rfl)] at hfollow
    simp only [Effect.handed, List.findSome?_cons] at hfollow
    split at hfollow
    case isTrue =>
      obtain rfl := Option.some.inj hfollow
      exact hnew
    case isFalse => cases hfollow
  | installed hfree hcall hterm hindex =>
    rw [hstays rfl rfl]
    simpa [Deployment.entangles, hcall, hterm, hindex] using hok
  | _ =>
    rw [hstays rfl rfl]
    exact hapart hblocked

end Apart

namespace Deployment

section Runs

variable {n : ℕ} [RaftGob Op] [KVGob] {d d' : Deployment n} {p : Fin n}

omit [RaftGob Op] [KVGob] in
/-- While the handler blocks, `applyTask` has no call into Raft to make. -/
def Apart (d : Deployment n) : Prop :=
  ∀ p, ¬ (d.raft.peers p).muFree → (d.sites p).willCall = false

omit [RaftGob Op] [KVGob] in
theorem Apart.install (h : d.Apart) {net : List (Packet n Op)} {e : Effect n Op} {site : Site}
    (hsite : ¬ e.peer.muFree → site.willCall = false) : (d.install p net e site).Apart := by
  intro q hblocked
  by_cases hq : q = p
  · subst hq
    simp only [Deployment.install, System.install_peers_self, Function.update_self] at hblocked ⊢
    exact hsite hblocked
  · simp only [Deployment.install, System.install_peers_ne _ _ _ _ hq,
      Function.update_of_ne hq] at hblocked ⊢
    exact h q hblocked

omit [RaftGob Op] [KVGob] in
theorem Apart.setSite (h : d.Apart) {site : Site}
    (hsite : ¬ (d.raft.peers p).muFree → site.willCall = false) : (d.setSite p site).Apart := by
  intro q hblocked
  by_cases hq : q = p
  · subst hq
    simp only [Deployment.setSite, Function.update_self] at hblocked ⊢
    exact hsite hblocked
  · simp only [Deployment.setSite, Function.update_of_ne hq] at hblocked ⊢
    exact h q hblocked

omit [RaftGob Op] [KVGob] in
/-- What the request handlers do to a server is no matter. -/
theorem Apart.setKv (h : d.Apart) {kv : KVServer}
    (hlast : kv.lastApplied = (d.sites p).kv.lastApplied)
    (hmax : kv.maxraftstate = (d.sites p).kv.maxraftstate) :
    (d.setSite p { d.sites p with kv }).Apart := by
  refine h.setSite fun hblocked => ?_
  rw [← h p hblocked]
  simp only [Site.willCall, KVServer.isNew, hlast, hmax]

omit [RaftGob Op] [KVGob] in
/-- At its `select` the server has no call to make. -/
theorem entangles_receiving {site : Site} {peer : Peer n Op} {c : Cause n Op}
    (h : entangles site peer c = false) : entangles { site with task := .receiving } peer c =
      false := by
  cases c with
  | packet m =>
    unfold entangles
    dsimp only
    split
    · exact Bool.and_false _
    · rfl
  | own input => cases input <;> exact h

/-- A step of a peer that does not entangle. -/
theorem Apart.peerMove (h : d.Apart) {c : Cause n Op}
    (hok : entangles (d.sites p) (d.raft.peers p) c = false) (hmove : d.PeerMove p c d') :
    d'.Apart := by
  obtain ⟨-, hstep, htask, hfollow⟩ := hmove
  have hdoes := Peer.does_of_step hstep
  rcases htask with rfl | ⟨rfl, -⟩
  · exact h.install (hdoes.willCall_follow hok (h p) hfollow)
  · exact h.install (hdoes.willCall_follow (entangles_receiving hok) (fun _ => rfl) hfollow)

omit [RaftGob Op] in
/-- A step of `applyTask`: its calls into Raft return only while the handler does not block. -/
theorem Apart.taskMove (h : d.Apart) {site : Site}
    (hmove : TaskMove (d.raft.peers p) (d.sites p) site) : (d.setSite p site).Apart := by
  have hwill := h p
  unfold Site.willCall at hwill
  refine h.setSite fun hblocked => ?_
  cases hmove with
  | takenUp htask htake =>
    rw [htask] at hwill
    rw [KVServer.takeUp_of_not_new (hwill hblocked) htake]
    rfl
  | asked _ hfree | unasked _ hfree | measured _ hfree => exact absurd hfree hblocked
  | @notified index opReply kv htask hsent =>
    rw [htask] at hwill
    have hnever : kv.maxraftstate = -1 := by
      rw [KVServer.notify_maxraftstate hsent]
      simpa using hwill hblocked
    simp [Site.willCall, KVServer.afterReply, hnever]

theorem Apart.step (h : d.Apart) {m : Move n} (hok : d.Untangled m) (hstep : d.step m = some d') :
    d'.Apart := by
  cases m with
  | raft a =>
    obtain ⟨q, c, htarget, hmove⟩ := step_raft hstep
    refine h.peerMove ?_ hmove
    rw [Untangled, tangles, htarget] at hok
    exact hok
  | task q =>
    rcases step_task hstep with ⟨c, hfree, hmove⟩ | ⟨site, hmove, rfl⟩
    · exact h.peerMove hfree hmove
    · exact h.taskMove hmove
  | getNotifyChannel q index =>
    rw [step_getNotifyChannel hstep]
    exact h.setKv ((d.sites q).kv.getNotifyChannel_store index).2
      ((d.sites q).kv.getNotifyChannel_maxraftstate index)
  | removeNotifyChannel q index =>
    rw [step_removeNotifyChannel hstep]
    exact h.setKv rfl rfl
  | takeReply q ch =>
    rw [step_takeReply hstep]
    exact h.setKv rfl rfl

/-- In a run in which no snapshot is adopted while `applyTask` has a call into Raft to make, and
`applyTask` receives no new command while the `InstallSnapshot` handler blocks, the two never wait
for each other. -/
theorem no_deadlock {maxraftstate : ℤ} (h : Reach step Untangled (init maxraftstate) d)
    (p : Fin n) :
    ¬ d.Deadlocked p := by
  have hapart : d.Apart := by
    refine h.invariant (I := Apart) (fun s m t hs hok hstep => hs.step hok hstep) ?_
    intro q hblocked
    exact absurd rfl hblocked
  rintro ⟨hblocked, hcall⟩
  have hwill := hapart p hblocked
  rw [Site.willCall_of_inRaft hcall] at hwill
  cases hwill

end Runs

/-- Peer `0` is elected by peer `2`, commits a command with it, and passes command and commit index
to peer `1`, whose answers are delayed. Its server applies the command and compacts, so the next
round has a snapshot for peer `1`. -/
def untilSnapshot : List (Move 3) :=
  [.raft (.act 0 .tickerStep), .raft (.act 1 .tickerStep), .raft (.act 0 .electionTimeout),
    .raft (.act 0 (.startElection 0)), .raft (.deliver 1), .raft (.deliver 1),
    .raft (.act 0 (.start { key := "k", opType := .opPut, clientId := 1, seqId := 1 })),
    .raft (.act 0 (.replicationTick 0)), .raft (.deliver 2), .raft (.deliver 2), .raft (.deliver 1),
    .raft (.act 0 (.replicationTick 0)), .raft (.deliver 2), .raft (.act 0 .tickerStep),
    .raft (.act 0 .tickerStep), .raft (.act 0 .tickerStep), .task 0, .task 0, .task 0, .task 0,
    .task 0, .raft (.act 0 (.replicationTick 0))]

/-- The snapshot arrives before the `applyTask` of peer `1` has received the command. -/
theorem no_deadlock_at_select : ∃ d : Deployment 3, Reach step Untangled (init 1) d ∧
    ¬ (d.raft.peers 1).muFree ∧ ¬ d.Deadlocked 1 := by
  have hrun : ∃ d : Deployment 3, Reach step Untangled (init 1) d ∧ ¬ (d.raft.peers 1).muFree :=
    Reach.exists_of_exec (untilSnapshot ++ [.raft (.deliver 4)]) (by decide +kernel)
  obtain ⟨d, hd, hblocked⟩ := hrun
  exact ⟨d, hd, hblocked, no_deadlock hd 1⟩

/-- The `applyTask` of peer `1` has received and applied the command when the snapshot arrives. It
waits for `rf.mu` in `GetState`; the handler of the snapshot has it and waits for `applyTask`. -/
theorem waiting_for_each_other : ∃ d : Deployment 3,
    Reach step (fun _ _ => True) (init 1) d ∧ d.Deadlocked 1 ∧ (d.step (.task 1)).isNone ∧
      (d.step (.raft (.act 1 .finishInstall))).isNone :=
  Reach.exists_of_exec (untilSnapshot ++ [.raft (.act 1 .tickerStep), .raft (.act 1 .tickerStep),
    .raft (.act 1 .tickerStep), .task 1, .raft (.deliver 4)]) (by decide +kernel)

end Deployment

end LogicRaft
