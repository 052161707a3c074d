import Mathlib.Logic.Function.Basic
import LogicRaft.Common.Reach
import LogicRaft.Raft.Election
import LogicRaft.Raft.Replication

/-!
# The cluster

`n` peers, the requests and replies in flight between them, and what they have been seen to do.

A peer is its `Raft` state together with its goroutines: elections whose replies may still come, the
`replicationTicker`s, and an `InstallSnapshot` handler that blocks on `applyCh` with `rf.mu` held.
Everything else runs under the lock, so it is one step. A crash loses all of this but the persister,
and a Go panic is a crash at the point where it happens.

The network keeps calls and replies as packets. Delivering one removes it, so each request is
handled at most once and each reply is handled at most once; packets may be delivered in any order,
or never. A reply belongs to the goroutine that made the call, which does not outlive its
incarnation.

An append request carries the records that were there when its round built it. That the source
shares the array of the log with the request until it is encoded is the subject of
`Cluster.SharedLog`, where these steps run over a memory.

The `trace` records, newest first, what peers do that others can see. No step reads it.
-/

namespace LogicRaft

/-- A request or a reply. What a reply handler needs of its call travels with both. -/
inductive Payload (n : ℕ) (α : Type)
  | voteRequest (election : ℕ) (args : RequestVoteArgs n)
  | voteReply (election : ℕ) (reply : RequestVoteReply)
  | appendRequest (term : ℕ) (args : AppendEntriesArgs n α)
  | appendReply (term : ℕ) (args : AppendEntriesArgs n α) (reply : AppendEntriesReply)
  | snapshotRequest (term : ℕ) (args : InstallSnapshotArgs n)
  | snapshotReply (term : ℕ) (args : InstallSnapshotArgs n) (reply : InstallSnapshotReply)
deriving DecidableEq

structure Packet (n : ℕ) (α : Type) where
  src : Fin n
  dst : Fin n
  /-- the incarnation of the caller -/
  incarnation : ℕ
  payload : Payload n α
deriving DecidableEq

/-- What a peer is seen to do. -/
inductive Event (n : ℕ) (α : Type)
  /-- became candidate in a term -/
  | candidacy (p : Fin n) (term : ℕ)
  /-- answered a vote request with `VoteGranted = true` -/
  | voteGranted (p : Fin n) (args : RequestVoteArgs n)
  /-- became leader of a term -/
  | elected (p : Fin n) (term : ℕ)
  /-- accepted a command from `Start` -/
  | accepted (p : Fin n) (index term : ℕ) (command : α)
  /-- answered an append request with `Success = true` -/
  | appended (p : Fin n) (args : AppendEntriesArgs n α)
  /-- compacted its log in `Snapshot`; `term` is that of the record at `index` -/
  | compacted (p : Fin n) (index term : ℕ) (data : Option Bytes)
  /-- `applicationTicker` collected a batch from this log -/
  | collected (p : Fin n) (log : Log α)
  /-- put a message on `applyCh` -/
  | applied (p : Fin n) (msg : ApplyMsg α)
  /-- restarted with this `log.Base` -/
  | restarted (p : Fin n) (base : ℕ)
deriving DecidableEq

/-- What a peer can do on its own. -/
inductive Input (n : ℕ) (α : Type)
  /-- `electionTicker` finds the timeout expired -/
  | electionTimeout
  /-- the goroutine of the `k`-th election runs -/
  | startElection (k : ℕ)
  /-- the `k`-th `replicationTicker` runs one round -/
  | replicationTick (k : ℕ)
  /-- the service calls `Start` -/
  | start (command : α)
  /-- the service calls `Snapshot` -/
  | snapshot (index : ℕ) (data : Option Bytes)
  /-- `applicationTicker` takes its next step -/
  | tickerStep
  /-- the service receives the message a blocked `InstallSnapshot` sends -/
  | finishInstall
  /-- a crash, followed by `Make` with the saved persister -/
  | restart
deriving DecidableEq

/-- Why a peer takes a step: on its own, or because a packet is delivered. -/
inductive Cause (n : ℕ) (α : Type)
  | own (input : Input n α)
  | packet (packet : Packet n α)
deriving DecidableEq

structure Peer (n : ℕ) (α : Type) where
  rf : Raft n α
  incarnation : ℕ := 0
  elections : List Election := []
  /-- the parameters of the running `replicationTicker`s -/
  replicationTickers : List ℕ := []
  /-- an `InstallSnapshot` blocked in its send: the message and the reply to follow -/
  installing : Option (ApplyMsg α × Packet n α) := none

/-- What a step of one peer leaves behind: its new state, packets to send, events. -/
structure Effect (n : ℕ) (α : Type) where
  peer : Peer n α
  sends : List (Packet n α) := []
  events : List (Event n α) := []

namespace Peer

variable {n : ℕ} {α : Type} [RaftGob α]

/-- `rf.mu` is free unless an `InstallSnapshot` blocks in its send. -/
def muFree (p : Peer n α) : Prop := p.installing = none

omit [RaftGob α] in
instance (p : Peer n α) : Decidable p.muFree := by unfold muFree; cases p.installing <;>
  first | exact isTrue rfl | exact isFalse nofun

/-- A crash that leaves the persister of `rf`, and the restart after it. -/
def crash (p : Peer n α) (rf : Raft n α) : Effect n α where
  peer := { rf := Raft.make p.rf.me rf.persister, incarnation := p.incarnation + 1 }
  events := [.restarted p.rf.me (Raft.make p.rf.me rf.persister : Raft n α).log.base]

/-- A packet from this peer. -/
def packet (p : Peer n α) (dst : Fin n) (incarnation : ℕ) (payload : Payload n α) : Packet n α :=
  { src := p.rf.me, dst, incarnation, payload }

/-- The call of a replication round. -/
def replicationCall (p : Peer n α) (term : ℕ) (request : Fin n × ReplicationRequest n α) :
    Packet n α :=
  p.packet request.1 p.incarnation <| match request.2 with
    | .append args => .appendRequest term args
    | .snapshot args => .snapshotRequest term args

/-- The next step of `applicationTicker`. Neither building a message nor sending it needs the
lock. -/
def tickerStep (p : Peer n α) : Option (Effect n α) :=
  match p.rf.ticker with
  | .idle => if p.muFree then some { peer := { p with rf.ticker := .waiting } } else none
  | .waiting => none
  | .woken =>
    if p.muFree then
      match p.rf.collectLocked with
      | none => some (p.crash p.rf)
      | some entries => some
          { peer := { p with rf.ticker := .sending entries 0 }
            events := [.collected p.rf.me p.rf.log] }
    else none
  | .sending entries i =>
    match entries[i]? with
    | some entry => some
        { peer := { p with rf.ticker := .offering entries i (p.rf.applyMsg entry i) } }
    | none =>
      if p.muFree then some
        { peer := { p with
            rf.lastApplied := p.rf.lastApplied + entries.length, rf.ticker := .idle } }
      else none
  | .offering entries i msg => some
      { peer := { p with rf.ticker := .sending entries (i + 1) }
        events := [.applied p.rf.me msg] }

/-- Steps that take the lock, when it is free. -/
def actLocked (p : Peer n α) : Input n α → Option (Effect n α)
  | .electionTimeout =>
    if p.rf.role = .leader then none
    else
      let rf := p.rf.becomeCandidateLocked
      some
        { peer := { p with rf, elections := p.elections ++ [{ term := rf.currentTerm }] }
          events := [.candidacy rf.me rf.currentTerm] }
  | .startElection k =>
    match p.elections[k]? with
    | none => none
    | some e =>
      if e.started then none
      else match p.rf.startElection e.term with
        | none => some
            { peer := { p with elections := p.elections.set k { e with started := true } } }
        | some (votes, requests) => some
            { peer := { p with elections := p.elections.set k { e with started := true, votes } }
              sends := requests.map fun r => p.packet r.1 p.incarnation (.voteRequest k r.2) }
  | .replicationTick k =>
    match p.replicationTickers[k]? with
    | none => none
    | some term =>
      match p.rf.startReplication term with
      | .panic rf => some (p.crash rf)
      | .ok rf none => some
          { peer := { p with rf, replicationTickers := p.replicationTickers.eraseIdx k } }
      | .ok rf (some requests) => some
          { peer := { p with rf }, sends := requests.map (p.replicationCall term) }
  | .start command =>
    match p.rf.start command with
    | (rf, index, term, isLeader) => some
        { peer := { p with rf }
          events := if isLeader then [.accepted rf.me index term command] else [] }
  | .snapshot index data =>
    match p.rf.snapshot index data with
    | none => some (p.crash p.rf)
    | some rf => some
        { peer := { p with rf }
          events :=
            if index > p.rf.commitIndex ∨ index < p.rf.log.base then []
            else [.compacted rf.me index rf.log.baseTerm data] }
  | _ => none

/-- A step the peer takes on its own. -/
def act (p : Peer n α) : Input n α → Option (Effect n α)
  | .restart => some (p.crash p.rf)
  | .tickerStep => p.tickerStep
  | .finishInstall =>
    match p.installing with
    | none => none
    | some (msg, reply) => some
        { peer := { p with installing := none }
          sends := [reply]
          events := [.applied p.rf.me msg] }
  | input => if p.muFree then p.actLocked input else none

/-- The packet of the handler's reply. -/
def replyTo (p : Peer n α) (call : Packet n α) (payload : Payload n α) : Packet n α :=
  p.packet call.src call.incarnation payload

/-- A request from another peer is handled. -/
def handleRequest (p : Peer n α) (call : Packet n α) : Option (Effect n α) :=
  match call.payload with
  | .voteRequest k args =>
    match p.rf.requestVote args with
    | (rf, reply) => some
        { peer := { p with rf }
          sends := [p.replyTo call (.voteReply k reply)]
          events := if reply.voteGranted then [.voteGranted rf.me args] else [] }
  | .appendRequest term args =>
    match p.rf.appendEntries args with
    | .panic rf => some (p.crash rf)
    | .ok rf reply => some
        { peer := { p with rf }
          sends := [p.replyTo call (.appendReply term args reply)]
          events := if reply.success then [.appended rf.me args] else [] }
  | .snapshotRequest term args =>
    match p.rf.installSnapshot args with
    | (rf, reply, none) => some
        { peer := { p with rf }, sends := [p.replyTo call (.snapshotReply term args reply)] }
    | (rf, reply, some msg) => some
        { peer := { p with
            rf, installing := some (msg, p.replyTo call (.snapshotReply term args reply)) } }
  | _ => none

/-- A reply reaches the goroutine that waits for it. -/
def handleReply (p : Peer n α) (packet : Packet n α) : Option (Effect n α) :=
  match packet.payload with
  | .voteReply k reply =>
    match p.elections[k]? with
    | none => none
    | some e =>
      match p.rf.askVoteFromPeer e.votes reply with
      | (rf, votes, won) => some
          { peer := { p with
              rf
              elections := p.elections.set k { e with votes }
              replicationTickers := p.replicationTickers ++ if won then [e.term] else [] }
            events := if won then [.elected rf.me rf.currentTerm] else [] }
  | .appendReply term args reply =>
    match p.rf.replicateToPeer packet.src args term reply with
    | .panic rf => some (p.crash rf)
    | .ok rf _ => some { peer := { p with rf } }
  | .snapshotReply _ args reply =>
    some { peer := { p with rf := p.rf.snapshotToPeer packet.src args reply } }
  | _ => none

/-- A packet is delivered; handlers of requests and replies take the lock first. -/
def receive (p : Peer n α) (packet : Packet n α) : Option (Effect n α) :=
  if p.muFree then
    match packet.payload with
    | .voteRequest .. | .appendRequest .. | .snapshotRequest .. => p.handleRequest packet
    | .voteReply .. | .appendReply .. | .snapshotReply .. =>
      if packet.incarnation = p.incarnation then p.handleReply packet else none
  else none

/-- One step of a peer, `none` if it is not possible now. -/
def step (p : Peer n α) : Cause n α → Option (Effect n α)
  | .own input => p.act input
  | .packet packet => p.receive packet

end Peer

structure System (n : ℕ) (α : Type) where
  peers : Fin n → Peer n α
  net : List (Packet n α) := []
  trace : List (Event n α) := []

inductive Action (n : ℕ) (α : Type)
  /-- peer `p` takes a step of its own -/
  | act (p : Fin n) (input : Input n α)
  /-- the `k`-th packet in flight is delivered -/
  | deliver (k : ℕ)

namespace System

variable {n : ℕ} {α : Type} [RaftGob α]

/-- Every peer freshly made with an empty persister, nothing in flight. -/
def init : System n α where
  peers p := { rf := Raft.make p {} }

omit [RaftGob α] in
/-- Install the effect of a step of `p`; `net` is what the step leaves in flight. -/
def install (s : System n α) (p : Fin n) (net : List (Packet n α)) (e : Effect n α) :
    System n α where
  peers := Function.update s.peers p e.peer
  net := net ++ e.sends
  trace := e.events ++ s.trace

omit [RaftGob α] in
/-- The peer an action is a step of, and its cause; `none` if there is no such packet. -/
def target (s : System n α) : Action n α → Option (Fin n × Cause n α)
  | .act p input => some (p, .own input)
  | .deliver k => s.net[k]?.map fun packet => (packet.dst, .packet packet)

omit [RaftGob α] in
/-- What an action leaves in flight. -/
def inFlight (s : System n α) : Action n α → List (Packet n α)
  | .act _ _ => s.net
  | .deliver k => s.net.eraseIdx k

/-- One step of the cluster, with the entries of every request as they were built. In the source a
request shares them with the log until it is encoded; `Host.sharingStep` is this step over the
arrays of the logs, where a request may be altered. -/
def step (s : System n α) (a : Action n α) : Option (System n α) :=
  match s.target a with
  | none => none
  | some (p, cause) => ((s.peers p).step cause).map (s.install p (s.inFlight a))

/-- `s` occurs in some run. -/
def Reachable (s : System n α) : Prop := Reach step (fun _ _ => True) init s

end System

end LogicRaft
