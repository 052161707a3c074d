import LogicRaft.KV.Serving
import LogicRaft.Porcupine.KvModel

/-!
# Clerks (`client.go`) and the operations a test records (`test_test.go`)

A `Clerk` sends a request to one server after the other until it gets a result. A `Service` is the
whole of it: servers, handlers and peers (`Serving`), the clerks that call them, and the log of
operations that the tests hand to the checker, with a clock that all of them read.

Requests and replies travel as `labrpc` has them (`Labrpc.Network`). A `Call` is answered at most
once: by the reply of the handler it was delivered to, or with `false`, which says nothing about
what happens to the request. A request that is given up may still be delivered, and be carried out,
at any later time.
-/

namespace LogicRaft

open Porcupine (KvInput KvOutput KvOperation)

/-- What a test asks a clerk for. -/
inductive ClientOp
  | get (key : String)
  | put (key value : String)
  | append (key value : String)
deriving DecidableEq

/-- The input that a test records. -/
def ClientOp.input : ClientOp → KvInput
  | .get key => { op := 0, key }
  | .put key value => { op := 1, key, value }
  | .append key value => { op := 2, key, value }

/-- The arguments that `Get`, `Put` and `Append` send for a clerk with these numbers. -/
def ClientOp.request (clientId seqId : ℤ) : ClientOp → Request
  | .get key => .get { key }
  | .put key value => .putAppend { key, value, op := "Put", clientId, seqId }
  | .append key value => .putAppend { key, value, op := "Append", clientId, seqId }

/-! ## Clerks -/

/-- `servers` are the servers at the other end of the clerk's connections. -/
structure Clerk (n : ℕ) where
  servers : List (Fin n)
  leaderId : ℕ
  clientId : ℤ
  seqId : ℤ

/-- `MakeClerk`; the `clientId` is random. -/
def makeClerk {n : ℕ} (servers : List (Fin n)) (clientId : ℤ) : Clerk n :=
  { servers, leaderId := 0, clientId, seqId := 0 }

namespace Clerk

variable {n : ℕ} (ck : Clerk n)

def request (op : ClientOp) : Request := op.request ck.clientId ck.seqId

/-- `ck.servers[ck.leaderId]`; `none` where this is out of range. -/
def server : Option (Fin n) := ck.servers[ck.leaderId]?

/-- The request has failed: the next round goes to another server. -/
def retry : Clerk n := { ck with leaderId := (ck.leaderId + 1) % ck.servers.length }

/-- A round of the loop, from the return of `Call` on. There is no reply if `Call` has returned
`false`. `Get` returns a value, and so does `PutAppend`, an empty one; no value means another round.
-/
def round (request : Request) (reply : Option OpReply) : Clerk n × Option String :=
  match reply with
  | none => (ck.retry, none)
  | some reply =>
    if reply.err = .errWrongLeader ∨ reply.err = .errTimeout then (ck.retry, none)
    else match request with
      | .get _ => (ck, some reply.value)
      | .putAppend _ => ({ ck with seqId := ck.seqId + 1 }, some "")

end Clerk

/-! ## The service -/

/-- Where the goroutine of a client stands: `op` is what it has asked for and `start` when. -/
inductive Phase
  | idle
  /-- at the head of the loop of `Get` or `PutAppend` -/
  | looping (op : ClientOp) (request : Request) (start : ℤ)
  /-- in `Call`, which waits on the reply channel `id` -/
  | calling (op : ClientOp) (request : Request) (start : ℤ) (id : ℕ)
  /-- the clerk has returned -/
  | returned (op : ClientOp) (start : ℤ) (value : String)
  /-- the time of the return has been taken -/
  | ended (op : ClientOp) (start : ℤ) (value : String) (ret : ℤ)
deriving DecidableEq

/-- A request on its way, with the channel for its reply. -/
structure Rpc (n : ℕ) where
  id : ℕ
  dst : Fin n
  request : Request
deriving DecidableEq

/-- Whom a handler replies to, and whether it has returned. -/
structure Caller where
  id : ℕ
  answered : Bool := false
deriving DecidableEq

structure Service (n m : ℕ) where
  serving : Serving n
  /-- the callers of the handlers of each server -/
  callers : Fin n → List Caller
  clerks : Fin m → Clerk n
  phases : Fin m → Phase
  /-- the number of `Call`s so far -/
  calls : ℕ
  requests : List (Rpc n)
  replies : List (ℕ × OpReply)
  /-- `time.Since(t0)` -/
  clock : ℤ
  /-- `OpLog` -/
  operations : List KvOperation

inductive ServiceMove (n m : ℕ)
  /-- a step of the servers, their handlers and the cluster -/
  | serving (move : ServingMove n)
  /-- the client `c` takes the time and asks its clerk for `op` -/
  | begin (c : Fin m) (op : ClientOp)
  /-- the clerk of `c` calls a server -/
  | call (c : Fin m)
  /-- the `k`-th request on its way is delivered -/
  | deliver (k : ℕ)
  /-- the `j`-th handler of a server returns its reply -/
  | respond (p : Fin n) (j : ℕ)
  /-- the `Call` of `c` returns with the `k`-th reply on its way -/
  | receive (c : Fin m) (k : ℕ)
  /-- the `Call` of `c` returns `false` -/
  | fail (c : Fin m)
  /-- time passes -/
  | tick (d : ℕ)
  /-- the client takes the time of the return -/
  | finish (c : Fin m)
  /-- the client appends its operation to the log -/
  | log (c : Fin m)

namespace Service

variable {n m : ℕ}

/-- No server has done anything yet, and every client has a new clerk. -/
def init (maxraftstate : ℤ) (servers : Fin m → List (Fin n)) (clientIds : Fin m → ℤ) :
    Service n m where
  serving := .init maxraftstate
  callers _ := []
  clerks c := makeClerk (servers c) (clientIds c)
  phases _ := .idle
  calls := 0
  requests := []
  replies := []
  clock := 0
  operations := []

/-- The servers move on; nobody answers for the handlers of a server that has crashed. -/
def follow (s : Service n m) (t : Serving n) : Service n m :=
  { s with
    serving := t
    callers := fun p =>
      if (t.deployment.raft.peers p).incarnation =
        (s.serving.deployment.raft.peers p).incarnation then s.callers p
      else [] }

def setPhase (s : Service n m) (c : Fin m) (phase : Phase) : Service n m :=
  { s with phases := Function.update s.phases c phase }

/-- The `Call` of `c` has returned. -/
def resume (s : Service n m) (c : Fin m) (op : ClientOp) (request : Request) (start : ℤ)
    (reply : Option OpReply) : Service n m :=
  let (ck, value?) := (s.clerks c).round request reply
  { s with
    clerks := Function.update s.clerks c ck
    phases := Function.update s.phases c
      (match value? with
        | none => .looping op request start
        | some value => .returned op start value) }

variable [RaftGob Op] [KVGob]

def step (s : Service n m) : ServiceMove n m → Option (Service n m)
  | .serving move =>
    match move with
    -- servers are called by clerks
    | .call .. => none
    | move => (s.serving.step move).map s.follow
  | .begin c op =>
    match s.phases c with
    | .idle => some (s.setPhase c (.looping op ((s.clerks c).request op) s.clock))
    | _ => none
  | .call c =>
    match s.phases c with
    | .looping op request start => (s.clerks c).server.map fun dst =>
        { s.setPhase c (.calling op request start s.calls) with
          calls := s.calls + 1
          requests := s.requests ++ [{ id := s.calls, dst, request }] }
    | _ => none
  | .deliver k =>
    match s.requests[k]? with
    | none => none
    | some rpc => (s.serving.step (.call rpc.dst rpc.request)).map fun t =>
        { s with
          serving := t
          callers := Function.update s.callers rpc.dst (s.callers rpc.dst ++ [{ id := rpc.id }])
          requests := s.requests.eraseIdx k }
  | .respond p j =>
    match (s.serving.handlers p)[j]?, (s.callers p)[j]? with
    | some ⟨_, .replied _ reply _⟩, some ⟨id, false⟩ => some
        { s with
          callers := Function.update s.callers p ((s.callers p).set j ⟨id, true⟩)
          replies := s.replies ++ [(id, reply)] }
    | _, _ => none
  | .receive c k =>
    match s.phases c, s.replies[k]? with
    | .calling op request start id, some (id', reply) =>
      if id' = id then some
        { s.resume c op request start (some reply) with replies := s.replies.eraseIdx k }
      else none
    | _, _ => none
  | .fail c =>
    match s.phases c with
    | .calling op request start _ => some (s.resume c op request start none)
    | _ => none
  | .tick d => some { s with clock := s.clock + d }
  | .finish c =>
    match s.phases c with
    | .returned op start value => some (s.setPhase c (.ended op start value s.clock))
    | _ => none
  | .log c =>
    match s.phases c with
    | .ended op start value ret => some
        { s.setPhase c .idle with
          operations := s.operations ++
            [{ clientId := c, input := op.input, call := start, output := { value }, ret }] }
    | _ => none

/-- The step of the cluster that a move takes. -/
def action (s : Service n m) : ServiceMove n m → Option (Action n Op)
  | .serving move => s.serving.action move
  | _ => none

theorem step_serving {s s' : Service n m} {move : ServingMove n}
    (h : s.step (.serving move) = some s') : ∃ t, s.serving.step move = some t ∧
    s.follow t = s' := by
  simp only [step] at h
  split at h
  · cases h
  · exact Option.map_eq_some_iff.mp h

/-- Clients and clerks leave the cluster alone, and a delivered request only starts a handler. -/
theorem raft_of_step {s s' : Service n m} {a : ServiceMove n m} (h : s.step a = some s') :
    match s.action a with
    | none => s'.serving.deployment.raft = s.serving.deployment.raft
    | some b => s.serving.deployment.raft.step b = some s'.serving.deployment.raft := by
  cases a with
  | serving move =>
    obtain ⟨t, ht, rfl⟩ := step_serving h
    exact Serving.raft_of_step ht
  | deliver k =>
    simp only [step] at h
    split at h
    case h_1 => cases h
    case h_2 rpc _ =>
      obtain ⟨t, ht, rfl⟩ := Option.map_eq_some_iff.mp h
      exact Serving.raft_of_step ht
  | call c =>
    simp only [step] at h
    split at h
    case h_1 =>
      obtain ⟨dst, -, rfl⟩ := Option.map_eq_some_iff.mp h
      rfl
    case h_2 => cases h
  | receive c k =>
    simp only [step] at h
    split at h
    case h_1 =>
      split at h
      case isTrue =>
        obtain rfl := Option.some.inj h
        rfl
      case isFalse => cases h
    case h_2 => cases h
  | tick d =>
    obtain rfl := Option.some.inj h
    rfl
  | begin c op | respond p j | fail c | finish c | log c =>
    simp only [step] at h
    split at h
    case h_1 =>
      obtain rfl := Option.some.inj h
      rfl
    case h_2 => cases h

/-- The service as a machine with a cluster inside. -/
def host (n m : ℕ) : Host n Op (Service n m) (ServiceMove n m) where
  step := step
  raft s := s.serving.deployment.raft
  setNet s net := { s with serving.deployment.raft.net := net }
  action := action
  raft_of_none h ha := by
    have hraft := raft_of_step h
    rwa [ha] at hraft
  raft_of_some h ha := by
    have hraft := raft_of_step h
    rwa [ha] at hraft
  setNet_net _ := rfl
  raft_setNet _ _ := rfl

end Service

end LogicRaft
