import Mathlib
import LogicRaft.Common.Codec
import LogicRaft.Common.Reach

/-!
# The network of the tests (`labrpc.go`)

A `Call` offers its request to the network, unless the network is being cleaned up. One goroutine
takes requests up, counts them, and starts a goroutine of its own for each, `processReq`. It looks
up what is at the other end, lets a second goroutine run the handler there, waits for its reply or
for the server to be deleted, and answers on the channel that `Call` waits on. Meanwhile the tests
connect, enable and delete what they like. What is random in the source, or depends on the time, is
a choice of the move here. The counters have the widths of the source.

* A `Call` is executed at most once, and what it is answered with `true` is what its handler
  returned. The counters of servers and bytes count exactly this, up to their widths (`accounts`).
* Once a server is deleted, no `Call` that is still to be checked is answered with `true`, though
  its handler may still run to its end (`deleted_server_silent`).
* Nothing but its handler can keep a `Call` from returning, and only while its server is there
  (`call_returns`).
-/

namespace LogicRaft.Labrpc

variable {ε ν : Type}

/-- What `readEndnameInfo` finds, if there is a server at the other end. A server is named by its
address. -/
structure EndInfo (ν : Type) where
  servername : ν
  server : ℕ
  reliable : Bool
  longreordering : Bool
deriving DecidableEq

/-- Where `Call`, and then `processReq`, stands with a request. -/
inductive Stage (ν : Type)
  /-- `Call` is at its `select`: the request is taken up, or `done` is closed -/
  | sending
  /-- `done` was closed: `Call` has returned `false` and has sent nothing -/
  | refused
  | arrived
  /-- nothing is at the other end; a timer is to answer -/
  | unreachable
  /-- a server was found; the request may still get lost -/
  | reached (info : EndInfo ν)
  /-- in the loop that waits for the handler -/
  | waiting (info : EndInfo ν)
  /-- after the loop, with the reply unless the server was found dead -/
  | left (info : EndInfo ν) (reply : Option Bytes)
  /-- after the last look at the server, with the reply unless it was found dead -/
  | checked (info : EndInfo ν) (reply : Option Bytes)
  /-- a timer is to answer with the reply -/
  | delayed (reply : Bytes)
  /-- `Call` has its answer; no reply stands for `false` -/
  | answered (reply : Option Bytes)
deriving DecidableEq

/-- Where the goroutine that runs the handler stands, at the server with this address. -/
inductive Handling
  | absent
  | spawned (server : ℕ)
  | running (server : ℕ)
  | returned (server : ℕ) (reply : Bytes)
deriving DecidableEq

/-- A `Call`, from the moment on at which its arguments are encoded. -/
structure Call (ε ν : Type) where
  endname : ε
  args : Bytes
  stage : Stage ν := .sending
  handler : Handling := .absent
deriving DecidableEq

structure Network (ε ν : Type) where
  reliable : Bool := true
  longReordering : Bool := false
  ends : List ε := []
  enabled : ε → Bool := fun _ => false
  servers : ν → Option ℕ := fun _ => .none
  connections : ε → Option ν := fun _ => .none
  /-- the goroutine that takes up requests has not returned -/
  listening : Bool := true
  /-- `done` is closed -/
  done : Bool := false
  count : Int32 := 0
  bytes : Int64 := 0
  /-- `Server.count`, by the address of the server; `int` has 64 bits -/
  counts : ℕ → Int64 := fun _ => 0
  calls : List (Call ε ν) := []

/-- `MakeNetwork` -/
def makeNetwork : Network ε ν := {}

/-- The next step of `Call`, of `processReq` or of the goroutine of the handler. -/
inductive CallMove
  /-- `Call` sees that `done` is closed -/
  | refuse
  | read
  /-- an unreliable network drops the request -/
  | dropRequest
  | execute
  /-- `Server.dispatch` starts the handler -/
  | dispatch
  /-- the handler returns; whether it ever does is up to the service -/
  | handle (reply : Bytes)
  | receive
  /-- 100 milliseconds have passed -/
  | poll
  | check
  /-- an unreliable network drops the reply -/
  | dropReply
  | delayReply
  | answer
  /-- a timer runs out -/
  | timer
deriving DecidableEq

inductive NetMove (ε ν : Type)
  | reliable (yes : Bool)
  | longReordering (yes : Bool)
  | makeEnd (endname : ε)
  | addServer (servername : ν) (server : ℕ)
  | deleteServer (servername : ν)
  | connect (endname : ε) (servername : ν)
  | enable (endname : ε) (enabled : Bool)
  | cleanup
  /-- the goroutine that takes up requests sees that `done` is closed -/
  | stop
  /-- a client calls -/
  | call (endname : ε) (args : Bytes)
  /-- the request of the `k`-th `Call` is taken up -/
  | take (k : ℕ)
  /-- a step for the `k`-th `Call` -/
  | process (k : ℕ) (move : CallMove)
deriving DecidableEq

namespace Network

variable (rn : Network ε ν)

/-- `none` unless `enabled && servername != nil && server != nil` -/
def readEndnameInfo (endname : ε) : Option (EndInfo ν) :=
  if rn.enabled endname then
    (rn.connections endname).bind fun servername => (rn.servers servername).map fun server =>
      { servername, server, reliable := rn.reliable, longreordering := rn.longReordering }
  else none

def isServerDead (endname : ε) (info : EndInfo ν) : Bool :=
  rn.enabled endname == false || rn.servers info.servername != some info.server

end Network

/-- What a step does: to the call, to the counter of the server it starts at, and to `bytes`. -/
structure Outcome (ε ν : Type) where
  call : Call ε ν
  dispatched : Option ℕ := none
  bytes : ℕ := 0

def Call.step (rn : Network ε ν) (call : Call ε ν) : CallMove → Option (Outcome ε ν)
  | .refuse =>
    match call.stage with
    | .sending => if rn.done then some { call := { call with stage := .refused } } else none
    | _ => none
  | .read =>
    match call.stage with
    | .arrived =>
      match rn.readEndnameInfo call.endname with
      | some info => some { call := { call with stage := .reached info } }
      | none => some { call := { call with stage := .unreachable } }
    | _ => none
  | .dropRequest =>
    match call.stage with
    | .reached info =>
      if info.reliable then none else some { call := { call with stage := .answered none } }
    | _ => none
  | .execute =>
    match call.stage with
    | .reached info =>
      some { call := { call with stage := .waiting info, handler := .spawned info.server } }
    | _ => none
  | .dispatch =>
    match call.handler with
    | .spawned server =>
      some { call := { call with handler := .running server }, dispatched := some server }
    | _ => none
  | .handle reply =>
    match call.handler with
    | .running server => some { call := { call with handler := .returned server reply } }
    | _ => none
  | .receive =>
    match call.stage, call.handler with
    | .waiting info, .returned _ reply =>
      some { call := { call with stage := .left info (some reply) } }
    | _, _ => none
  | .poll =>
    match call.stage with
    | .waiting info =>
      some { call :=
        if rn.isServerDead call.endname info then { call with stage := .left info none }
        else call }
    | _ => none
  | .check =>
    match call.stage with
    | .left info reply =>
      let reply := if rn.isServerDead call.endname info then none else reply
      some { call := { call with stage := .checked info reply } }
    | _ => none
  | .dropReply =>
    match call.stage with
    | .checked info (some _) =>
      if info.reliable then none else some { call := { call with stage := .answered none } }
    | _ => none
  | .delayReply =>
    match call.stage with
    | .checked info (some reply) =>
      if info.longreordering then some { call := { call with stage := .delayed reply } } else none
    | _ => none
  | .answer =>
    match call.stage with
    | .checked _ none => some { call := { call with stage := .answered none } }
    | .checked _ (some reply) =>
      some { call := { call with stage := .answered (some reply) }, bytes := reply.length }
    | _ => none
  | .timer =>
    match call.stage with
    | .unreachable => some { call := { call with stage := .answered none } }
    | .delayed reply =>
      some { call := { call with stage := .answered (some reply) }, bytes := reply.length }
    | _ => none

/-- The `k`-th call has taken a step. -/
def Network.install (rn : Network ε ν) (k : ℕ) (o : Outcome ε ν) : Network ε ν :=
  { rn with
    calls := rn.calls.set k o.call
    bytes := rn.bytes + Int64.ofNat o.bytes
    counts := fun server => rn.counts server + if o.dispatched = some server then 1 else 0 }

/-- The request of the `k`-th call is taken up: `processReq` starts. -/
def Network.takeUp (rn : Network ε ν) (k : ℕ) (call : Call ε ν) : Network ε ν :=
  { rn with
    count := rn.count + 1
    bytes := rn.bytes + Int64.ofNat call.args.length
    calls := rn.calls.set k { call with stage := .arrived } }

def Network.step [DecidableEq ε] [DecidableEq ν] (rn : Network ε ν) :
    NetMove ε ν → Option (Network ε ν)
  | .reliable yes => some { rn with reliable := yes }
  | .longReordering yes => some { rn with longReordering := yes }
  | .makeEnd endname =>
    if endname ∈ rn.ends then none
    else some { rn with
      ends := endname :: rn.ends
      enabled := Function.update rn.enabled endname false
      connections := Function.update rn.connections endname none }
  | .addServer servername server =>
    some { rn with servers := Function.update rn.servers servername (some server) }
  | .deleteServer servername =>
    some { rn with servers := Function.update rn.servers servername none }
  | .connect endname servername =>
    some { rn with connections := Function.update rn.connections endname (some servername) }
  | .enable endname enabled =>
    some { rn with enabled := Function.update rn.enabled endname enabled }
  | .cleanup => if rn.done then none else some { rn with done := true }
  | .stop => if rn.done then some { rn with listening := false } else none
  | .call endname args => some { rn with calls := rn.calls ++ [{ endname, args }] }
  | .take k =>
    match rn.calls[k]? with
    | some call =>
      if rn.listening = true ∧ call.stage = .sending then some (rn.takeUp k call) else none
    | none => none
  | .process k move =>
    (rn.calls[k]?).bind fun call => (call.step rn move).map (rn.install k)

/-! ## What a step of a call can do -/

/-- The steps of a call, by what they find. -/
inductive Call.Goes (rn : Network ε ν) (call : Call ε ν) : Outcome ε ν → Prop
  | refused (hstage : call.stage = .sending) :
      Goes rn call { call := { call with stage := .refused } }
  | found {info : EndInfo ν} (hstage : call.stage = .arrived) :
      Goes rn call { call := { call with stage := .reached info } }
  | missed (hstage : call.stage = .arrived) :
      Goes rn call { call := { call with stage := .unreachable } }
  | requestLost {info : EndInfo ν} (hstage : call.stage = .reached info) :
      Goes rn call { call := { call with stage := .answered none } }
  | executed {info : EndInfo ν} (hstage : call.stage = .reached info) :
      Goes rn call { call := { call with stage := .waiting info, handler := .spawned info.server } }
  | dispatched {server : ℕ} (hhandler : call.handler = .spawned server) :
      Goes rn call { call := { call with handler := .running server }, dispatched := some server }
  | handled {server : ℕ} {reply : Bytes} (hhandler : call.handler = .running server) :
      Goes rn call { call := { call with handler := .returned server reply } }
  | received {info : EndInfo ν} {server : ℕ} {reply : Bytes} (hstage : call.stage = .waiting info)
      (hhandler : call.handler = .returned server reply) :
      Goes rn call { call := { call with stage := .left info (some reply) } }
  | alive : Goes rn call { call }
  | gaveUp {info : EndInfo ν} (hstage : call.stage = .waiting info) :
      Goes rn call { call := { call with stage := .left info none } }
  | passed {info : EndInfo ν} {reply : Option Bytes} (hstage : call.stage = .left info reply)
      (halive : rn.isServerDead call.endname info = false) :
      Goes rn call { call := { call with stage := .checked info reply } }
  | failed {info : EndInfo ν} {reply : Option Bytes} (hstage : call.stage = .left info reply) :
      Goes rn call { call := { call with stage := .checked info none } }
  | replyLost {info : EndInfo ν} {reply : Option Bytes}
      (hstage : call.stage = .checked info reply) :
      Goes rn call { call := { call with stage := .answered none } }
  | delayed {info : EndInfo ν} {reply : Bytes} (hstage : call.stage = .checked info (some reply)) :
      Goes rn call { call := { call with stage := .delayed reply } }
  | answered {reply : Bytes}
      (hstage : (∃ info, call.stage = .checked info (some reply)) ∨ call.stage = .delayed reply) :
      Goes rn call { call := { call with stage := .answered (some reply) }, bytes := reply.length }
  | timedOut (hstage : call.stage = .unreachable) :
      Goes rn call { call := { call with stage := .answered none } }

theorem Call.goes_of_step {rn : Network ε ν} {call : Call ε ν} {move : CallMove} {o : Outcome ε ν}
    (h : call.step rn move = some o) : call.Goes rn o := by
  cases move with
  | refuse =>
    simp only [Call.step] at h
    split at h
    case h_1 hstage =>
      obtain ⟨-, ho⟩ := Option.ite_none_right_eq_some.mp h
      obtain rfl := Option.some.inj ho
      exact .refused hstage
    case h_2 => cases h
  | read =>
    simp only [Call.step] at h
    split at h
    case h_1 hstage =>
      split at h <;> obtain rfl := Option.some.inj h
      · exact .found hstage
      · exact .missed hstage
    case h_2 => cases h
  | dropRequest =>
    simp only [Call.step] at h
    split at h
    case h_1 info hstage =>
      split at h
      · cases h
      · obtain rfl := Option.some.inj h
        exact .requestLost hstage
    case h_2 => cases h
  | execute =>
    simp only [Call.step] at h
    split at h
    case h_1 info hstage =>
      obtain rfl := Option.some.inj h
      exact .executed hstage
    case h_2 => cases h
  | dispatch =>
    simp only [Call.step] at h
    split at h
    case h_1 server hhandler =>
      obtain rfl := Option.some.inj h
      exact .dispatched hhandler
    case h_2 => cases h
  | handle reply =>
    simp only [Call.step] at h
    split at h
    case h_1 server hhandler =>
      obtain rfl := Option.some.inj h
      exact .handled hhandler
    case h_2 => cases h
  | receive =>
    simp only [Call.step] at h
    split at h
    case h_1 info server reply hstage hhandler =>
      obtain rfl := Option.some.inj h
      exact .received hstage hhandler
    case h_2 => cases h
  | poll =>
    simp only [Call.step] at h
    split at h
    case h_1 info hstage =>
      split at h <;> obtain rfl := Option.some.inj h
      · exact .gaveUp hstage
      · exact .alive
    case h_2 => cases h
  | check =>
    simp only [Call.step] at h
    split at h
    case h_1 info reply hstage =>
      obtain rfl := Option.some.inj h
      cases hdead : rn.isServerDead call.endname info with
      | true => exact .failed hstage
      | false => exact .passed hstage hdead
    case h_2 => cases h
  | dropReply =>
    simp only [Call.step] at h
    split at h
    case h_1 info reply hstage =>
      split at h
      · cases h
      · obtain rfl := Option.some.inj h
        exact .replyLost hstage
    case h_2 => cases h
  | delayReply =>
    simp only [Call.step] at h
    split at h
    case h_1 info reply hstage =>
      split at h
      · obtain rfl := Option.some.inj h
        exact .delayed hstage
      · cases h
    case h_2 => cases h
  | answer =>
    simp only [Call.step] at h
    split at h
    case h_1 info hstage =>
      obtain rfl := Option.some.inj h
      exact .replyLost hstage
    case h_2 info reply hstage =>
      obtain rfl := Option.some.inj h
      exact .answered (Or.inl ⟨info, hstage⟩)
    case h_3 => cases h
  | timer =>
    simp only [Call.step] at h
    split at h
    case h_1 hstage =>
      obtain rfl := Option.some.inj h
      exact .timedOut hstage
    case h_2 reply hstage =>
      obtain rfl := Option.some.inj h
      exact .answered (Or.inr hstage)
    case h_3 => cases h

/-- What a step of the network can do: it is one of a client that calls, it takes up a request, it
is a step for a call, or it changes neither calls nor counters, and puts a server in its place only
with `AddServer`. The goroutine that takes up requests stops only when `done` is closed. -/
inductive Network.Goes (rn : Network ε ν) (a : NetMove ε ν) : Network ε ν → Prop
  | configured {rn' : Network ε ν} (hcalls : rn'.calls = rn.calls) (hcount : rn'.count = rn.count)
      (hbytes : rn'.bytes = rn.bytes) (hcounts : rn'.counts = rn.counts)
      (hdone : rn.done = true → rn'.done = true)
      (hlistening : rn'.listening = false → rn.listening = false ∨ rn'.done = true)
      (hservers : ∀ name server, rn'.servers name = some server →
        rn.servers name = some server ∨ a = .addServer name server) : Goes rn a rn'
  | called (endname : ε) (args : Bytes) : Goes rn a { rn with
      calls := rn.calls ++ [{ endname, args }] }
  | taken {k : ℕ} {call : Call ε ν} (hcall : rn.calls[k]? = some call)
      (hstage : call.stage = .sending) : Goes rn a (rn.takeUp k call)
  | processed {k : ℕ} {call : Call ε ν} {o : Outcome ε ν} (hcall : rn.calls[k]? = some call)
      (hgoes : call.Goes rn o) : Goes rn a (rn.install k o)

theorem Network.goes_of_step [DecidableEq ε] [DecidableEq ν] {rn rn' : Network ε ν}
    {a : NetMove ε ν} (h : rn.step a = some rn') : rn.Goes a rn' := by
  have hsame : ∀ name server, rn.servers name = some server →
      rn.servers name = some server ∨ a = .addServer name server := fun _ _ => Or.inl
  cases a with
  | reliable | longReordering | connect | enable =>
    obtain rfl := Option.some.inj h
    exact .configured rfl rfl rfl rfl id Or.inl hsame
  | makeEnd endname =>
    obtain ⟨-, hrn'⟩ := Option.ite_none_left_eq_some.mp h
    obtain rfl := Option.some.inj hrn'
    exact .configured rfl rfl rfl rfl id Or.inl hsame
  | addServer servername server =>
    obtain rfl := Option.some.inj h
    refine .configured rfl rfl rfl rfl id Or.inl fun name server' hserver => ?_
    dsimp only at hserver
    by_cases hname : name = servername
    · subst hname
      rw [Function.update_self] at hserver
      exact Or.inr (by rw [Option.some.inj hserver])
    · rw [Function.update_of_ne hname] at hserver
      exact Or.inl hserver
  | deleteServer servername =>
    obtain rfl := Option.some.inj h
    refine .configured rfl rfl rfl rfl id Or.inl fun name server' hserver => ?_
    dsimp only at hserver
    by_cases hname : name = servername
    · subst hname
      rw [Function.update_self] at hserver
      cases hserver
    · rw [Function.update_of_ne hname] at hserver
      exact Or.inl hserver
  | cleanup =>
    obtain ⟨-, hrn'⟩ := Option.ite_none_left_eq_some.mp h
    obtain rfl := Option.some.inj hrn'
    exact .configured rfl rfl rfl rfl (fun _ => rfl) Or.inl hsame
  | stop =>
    obtain ⟨hdone, hrn'⟩ := Option.ite_none_right_eq_some.mp h
    obtain rfl := Option.some.inj hrn'
    exact .configured rfl rfl rfl rfl id (fun _ => Or.inr hdone) hsame
  | call endname args =>
    obtain rfl := Option.some.inj h
    exact .called endname args
  | take k =>
    simp only [step] at h
    split at h
    case h_1 call hcall =>
      obtain ⟨⟨-, hstage⟩, hrn'⟩ := Option.ite_none_right_eq_some.mp h
      obtain rfl := Option.some.inj hrn'
      exact .taken hcall hstage
    case h_2 => cases h
  | process k move =>
    obtain ⟨call, hcall, hmap⟩ := Option.bind_eq_some_iff.mp h
    obtain ⟨o, ho, rfl⟩ := Option.map_eq_some_iff.mp hmap
    exact .processed hcall (Call.goes_of_step ho)

/-! ## Accounts -/

/-- The reply that `processReq` has got hold of. -/
def Stage.reply? : Stage ν → Option Bytes
  | .left _ reply | .checked _ reply | .answered reply => reply
  | .delayed reply => some reply
  | _ => none

/-- `processReq` has not started the handler, and `Call` may even have returned before. -/
def Stage.early : Stage ν → Bool
  | .sending | .refused | .arrived | .reached _ => true
  | _ => false

/-- The server at which the handler was started. -/
def Handling.startedAt? : Handling → Option ℕ
  | .running server | .returned server _ => some server
  | _ => none

namespace Call

/-- Whether the call was dispatched at this server. -/
def startedAt (server : ℕ) (call : Call ε ν) : ℕ :=
  if call.handler.startedAt? = some server then 1 else 0

/-- Whether the network has taken up the request. -/
def taken (call : Call ε ν) : ℕ :=
  match call.stage with
  | .sending | .refused => 0
  | _ => 1

/-- The bytes of a call: those of the request once it is taken up, and those of the reply once there
is an answer. -/
def cost (call : Call ε ν) : ℕ :=
  match call.stage with
  | .sending | .refused => 0
  | .answered (some reply) => call.args.length + reply.length
  | _ => call.args.length

/-- The handler is started by `processReq`, and the reply is what it returned. -/
structure Ok (call : Call ε ν) : Prop where
  idle : call.stage.early = true → call.handler = .absent
  spawned : ∀ info, call.stage = .waiting info → call.handler ≠ .absent
  replied : ∀ reply, call.stage.reply? = some reply →
    ∃ server, call.handler = .returned server reply

variable {rn : Network ε ν} {call : Call ε ν} {o : Outcome ε ν}

/-- A step that leaves the handler alone and does not end in the loop. -/
theorem Ok.setStage (h : call.Ok) {stage : Stage ν}
    (hearly : stage.early = true → call.stage.early = true)
    (hwaiting : ∀ info, stage ≠ .waiting info) (hreply : ∀ reply, stage.reply? = some reply →
      ∃ server, call.handler = .returned server reply) : Ok { call with stage } where
  idle hstage := h.idle (hearly hstage)
  spawned info hstage := absurd hstage (hwaiting info)
  replied := hreply

/-- A step of the handler, which has been started and has not returned. -/
theorem Ok.setHandler (h : call.Ok) (hspawned : call.handler ≠ .absent)
    (hreturned : ∀ server reply, call.handler ≠ .returned server reply) {handler : Handling}
    (hnew : handler ≠ .absent) : Ok { call with handler } where
  idle hstage := absurd (h.idle hstage) hspawned
  spawned _ _ := hnew
  replied reply hreply := by
    obtain ⟨server, hhandler⟩ := h.replied reply hreply
    exact absurd hhandler (hreturned server reply)

theorem Goes.ok (hgoes : call.Goes rn o) (h : call.Ok) : o.call.Ok := by
  cases hgoes with
  | refused hstage | found hstage => exact h.setStage (fun _ => by rw [hstage]; rfl) nofun nofun
  | missed | requestLost | gaveUp | failed | replyLost | timedOut =>
    exact h.setStage nofun nofun nofun
  | executed => exact ⟨nofun, fun _ _ => nofun, nofun⟩
  | dispatched hhandler | handled hhandler =>
    exact h.setHandler (by simp [hhandler]) (by simp [hhandler]) nofun
  | received hstage hhandler =>
    refine h.setStage nofun nofun fun reply hreply => ?_
    obtain rfl := Option.some.inj hreply
    exact ⟨_, hhandler⟩
  | alive => exact h
  | passed hstage =>
    refine h.setStage nofun nofun fun reply hreply => h.replied reply ?_
    rw [hstage]
    exact hreply
  | delayed hstage =>
    refine h.setStage nofun nofun fun reply hreply => h.replied reply ?_
    rw [hstage]
    exact hreply
  | answered hstage =>
    refine h.setStage nofun nofun fun reply hreply => h.replied reply ?_
    rcases hstage with ⟨info, hstage⟩ | hstage <;> rw [hstage] <;> exact hreply

/-- Only `dispatch` starts the handler. -/
theorem Goes.startedAt_eq (hgoes : call.Goes rn o) (h : call.Ok) (server : ℕ) :
    o.call.startedAt server =
      call.startedAt server + if o.dispatched = some server then 1 else 0 := by
  cases hgoes with
  | executed hstage =>
    have habsent := h.idle (by rw [hstage]; rfl)
    simp [startedAt, habsent, Handling.startedAt?]
  | dispatched hhandler | handled hhandler => simp [startedAt, hhandler, Handling.startedAt?]
  | _ => simp [startedAt]

/-- Replies are paid for when they are sent. -/
theorem Goes.cost_eq (hgoes : call.Goes rn o) : o.call.cost = call.cost + o.bytes := by
  cases hgoes with
  | answered hstage => rcases hstage with ⟨info, hstage⟩ | hstage <;> simp [cost, hstage]
  | dispatched | handled | alive => rfl
  | refused hstage | found hstage | missed hstage | requestLost hstage | executed hstage
  | received hstage | gaveUp hstage | passed hstage | failed hstage | replyLost hstage
  | delayed hstage | timedOut hstage => simp [cost, hstage]

/-- Nothing happens to a handler that has returned. -/
theorem Goes.handler_of_returned (hgoes : call.Goes rn o) (h : call.Ok) {server : ℕ} {reply : Bytes}
    (hreturned : call.handler = .returned server reply) :
    o.call.handler = .returned server reply := by
  cases hgoes with
  | executed hstage =>
    rw [h.idle (by rw [hstage]; rfl)] at hreturned
    cases hreturned
  | dispatched hhandler | handled hhandler =>
    rw [hhandler] at hreturned
    cases hreturned
  | _ => exact hreturned

/-- A step for a call does not take up its request. -/
theorem Goes.taken_eq (hgoes : call.Goes rn o) : o.call.taken = call.taken := by
  cases hgoes with
  | answered hstage => rcases hstage with ⟨info, hstage⟩ | hstage <;> simp [taken, hstage]
  | dispatched | handled | alive => rfl
  | refused hstage | found hstage | missed hstage | requestLost hstage | executed hstage
  | received hstage | gaveUp hstage | passed hstage | failed hstage | replyLost hstage
  | delayed hstage | timedOut hstage => simp [taken, hstage]

end Call

/-- A place of a list has changed. -/
theorem sum_map_set {α : Type} {f : α → ℕ} {l : List α} {k : ℕ} {a : α} (h : l[k]? = some a)
    (b : α) : ((l.set k b).map f).sum + f a = (l.map f).sum + f b := by
  induction l generalizing k with
  | nil => cases h
  | cons c l ih =>
    cases k with
    | zero =>
      obtain rfl := Option.some.inj h
      simp only [List.set_cons_zero, List.map_cons, List.sum_cons]
      omega
    | succ k =>
      have hrest := ih (k := k) h
      simp only [List.set_cons_succ, List.map_cons, List.sum_cons]
      omega

/-- What a place of a list adds to a sum has grown. -/
theorem sum_map_set_add {α : Type} {f : α → ℕ} {l : List α} {k : ℕ} {a : α} (h : l[k]? = some a)
    {b : α} {d : ℕ} (hb : f b = f a + d) : ((l.set k b).map f).sum = (l.map f).sum + d := by
  have hset := sum_map_set (f := f) h b
  omega

namespace Network

/-- Each call is in order, and the counters are right. -/
structure Accounts (rn : Network ε ν) : Prop where
  calls : ∀ call ∈ rn.calls, call.Ok
  count : rn.count = Int32.ofNat (rn.calls.map Call.taken).sum
  counts : ∀ server, rn.counts server = Int64.ofNat (rn.calls.map (Call.startedAt server)).sum
  bytes : rn.bytes = Int64.ofNat (rn.calls.map Call.cost).sum
  stopped : rn.listening = false → rn.done = true

variable {rn rn' : Network ε ν}

/-- A step for a call. -/
theorem Accounts.install (h : rn.Accounts) {k : ℕ} {call : Call ε ν} {o : Outcome ε ν}
    (hcall : rn.calls[k]? = some call) (hgoes : call.Goes rn o) : (rn.install k o).Accounts := by
  have hok := h.calls call (List.mem_of_getElem? hcall)
  refine ⟨fun c hc => ?_, ?_, fun server => ?_, ?_, h.stopped⟩
  · rcases List.mem_or_eq_of_mem_set hc with hold | rfl
    · exact h.calls c hold
    · exact hgoes.ok hok
  · simp only [Network.install]
    rw [sum_map_set_add (d := 0) hcall hgoes.taken_eq]
    exact h.count
  · simp only [Network.install]
    rw [sum_map_set_add hcall (hgoes.startedAt_eq hok server), Int64.ofNat_add, h.counts]
    split <;> rfl
  · simp only [Network.install]
    rw [sum_map_set_add hcall hgoes.cost_eq, Int64.ofNat_add, h.bytes]

/-- A request is taken up. -/
theorem Accounts.takeUp (h : rn.Accounts) {k : ℕ} {call : Call ε ν}
    (hcall : rn.calls[k]? = some call) (hstage : call.stage = .sending) :
    (rn.takeUp k call).Accounts := by
  refine ⟨fun c hc => ?_, ?_, fun server => ?_, ?_, h.stopped⟩
  · rcases List.mem_or_eq_of_mem_set hc with hold | rfl
    · exact h.calls c hold
    · refine (h.calls call (List.mem_of_getElem? hcall)).setStage (fun _ => ?_) nofun nofun
      rw [hstage]
      rfl
  · simp only [Network.takeUp]
    rw [sum_map_set_add (d := 1) hcall (by simp [Call.taken, hstage]), Int32.ofNat_add, h.count]
    rfl
  · simp only [Network.takeUp]
    rw [sum_map_set_add (d := 0) (b := { call with stage := .arrived }) hcall rfl]
    exact h.counts server
  · simp only [Network.takeUp]
    rw [sum_map_set_add (d := call.args.length) hcall (by simp [Call.cost, hstage]),
      Int64.ofNat_add, h.bytes]

theorem Accounts.step (h : rn.Accounts) {a : NetMove ε ν} (hgoes : rn.Goes a rn') :
    rn'.Accounts := by
  cases hgoes with
  | configured hcalls hcount hbytes hcounts hdone hlistening =>
    refine ⟨hcalls ▸ h.calls, by rw [hcount, hcalls, h.count],
      fun server => by rw [hcounts, hcalls, h.counts], by rw [hbytes, hcalls, h.bytes],
      fun hstopped => ?_⟩
    exact (hlistening hstopped).elim (fun hold => hdone (h.stopped hold)) id
  | called endname args =>
    refine ⟨fun c hc => ?_, ?_, fun server => ?_, ?_, h.stopped⟩
    · rcases List.mem_append.mp hc with hold | hnew
      · exact h.calls c hold
      · rw [List.mem_singleton.mp hnew]
        exact ⟨fun _ => rfl, nofun, nofun⟩
    · simp [h.count, Call.taken]
    · simp [h.counts, Call.startedAt, Handling.startedAt?]
    · simp [h.bytes, Call.cost]
  | taken hcall hstage => exact h.takeUp hcall hstage
  | processed hcall hcallGoes => exact h.install hcall hcallGoes

/-- A call is started at one server at most, and only if its request was taken up. -/
theorem sum_startedAt_le {call : Call ε ν} (h : call.Ok) (servers : Finset ℕ) :
    ∑ server ∈ servers, call.startedAt server ≤ call.taken := by
  cases hstarted : call.handler.startedAt? with
  | none => simp [Call.startedAt, hstarted]
  | some server₀ =>
    have htaken : call.taken = 1 := by
      unfold Call.taken
      split
      case h_1 hstage | h_2 hstage =>
        rw [h.idle (by rw [hstage]; rfl)] at hstarted
        cases hstarted
      case h_3 => rfl
    simp only [Call.startedAt, hstarted, Option.some.injEq, Finset.sum_ite_eq]
    split <;> omega

theorem sum_counts_le {calls : List (Call ε ν)} (h : ∀ call ∈ calls, call.Ok)
    (servers : Finset ℕ) :
    ∑ server ∈ servers, (calls.map (Call.startedAt server)).sum ≤ (calls.map Call.taken).sum := by
  induction calls with
  | nil => simp
  | cons call calls ih =>
    have hone := sum_startedAt_le (h call (List.mem_cons_self ..)) servers
    have hrest := ih fun c hc => h c (List.mem_cons_of_mem _ hc)
    simp only [List.map_cons, List.sum_cons, Finset.sum_add_distrib]
    omega

theorem sum_taken_le (calls : List (Call ε ν)) : (calls.map Call.taken).sum ≤ calls.length := by
  induction calls with
  | nil => exact Nat.le_refl 0
  | cons call calls ih =>
    have hone : call.taken ≤ 1 := by
      unfold Call.taken
      split <;> omega
    rw [List.map_cons, List.sum_cons, List.length_cons]
    omega

section Runs

variable [DecidableEq ε] [DecidableEq ν]

theorem accounts_of_reach (h : Reach step (fun _ _ => True) (makeNetwork : Network ε ν) rn) :
    rn.Accounts :=
  h.invariant (I := Accounts) (fun _ _ _ hrn _ hstep => hrn.step (goes_of_step hstep))
    ⟨nofun, rfl, fun _ => rfl, rfl, nofun⟩

/-- In every run of the network: a `Call` that is answered with `true` gets what its handler
returned. All servers together, however many there are, have started a handler at most once for each
request that was taken up, and for no other. The counters are those of the source: that of a server
counts the calls whose handler was started there, `count` the requests taken up, and `bytes` their
arguments and the replies of those answered with `true`, in 64, 32 and 64 bits that wrap around. So
below `2 ^ 31` calls `GetTotalCount` is exact. -/
theorem accounts (h : Reach step (fun _ _ => True) (makeNetwork : Network ε ν) rn) :
    (∀ call ∈ rn.calls, ∀ reply, call.stage = .answered (some reply) →
      ∃ server, call.handler = .returned server reply) ∧
    (∀ servers : Finset ℕ, ∑ server ∈ servers, (rn.calls.map (Call.startedAt server)).sum ≤
      (rn.calls.map Call.taken).sum) ∧
    (∀ server, rn.counts server = Int64.ofNat (rn.calls.map (Call.startedAt server)).sum) ∧
    rn.count = Int32.ofNat (rn.calls.map Call.taken).sum ∧
    rn.bytes = Int64.ofNat (rn.calls.map Call.cost).sum ∧
    (rn.calls.length < 2 ^ 31 → rn.count.toInt = (rn.calls.map Call.taken).sum) := by
  have hok := accounts_of_reach h
  refine ⟨fun call hcall reply hstage => ?_, sum_counts_le hok.calls, hok.counts, hok.count,
    hok.bytes, fun hfew => ?_⟩
  · refine (hok.calls call hcall).replied reply ?_
    rw [hstage]
    rfl
  · rw [hok.count]
    exact Int32.toInt_ofNat_of_lt ((sum_taken_le rn.calls).trans_lt hfew)

end Runs

/-- A call is executed and answered. -/
def untilAnswered : List (NetMove ℕ ℕ) :=
  [.makeEnd 0, .connect 0 7, .enable 0 true, .addServer 7 100, .call 0 [1, 2], .take 0,
    .process 0 .read, .process 0 .execute, .process 0 .dispatch, .process 0 .poll,
    .process 0 (.handle [9]), .process 0 .receive, .process 0 .check, .process 0 .answer]

/-- The call is counted once at its server, and so are its three bytes. A second one is not taken up
before the network is cleaned up. -/
theorem accounts_untilAnswered : ∃ rn : Network ℕ ℕ,
    Reach step (fun _ _ => True) makeNetwork rn ∧
    rn.calls = [⟨0, [1, 2], .answered (some [9]), .returned 100 [9]⟩, ⟨0, [3], .refused, .absent⟩] ∧
    rn.counts 100 = 1 ∧ rn.bytes = 3 ∧ rn.count.toInt = 1 := by
  have hrun : ∃ rn : Network ℕ ℕ, Reach step (fun _ _ => True) makeNetwork rn ∧
      rn.calls =
        [⟨0, [1, 2], .answered (some [9]), .returned 100 [9]⟩, ⟨0, [3], .refused, .absent⟩] :=
    Reach.exists_of_exec (untilAnswered ++ [.call 0 [3], .cleanup, .process 1 .refuse])
      (by decide +kernel)
  obtain ⟨rn, hrn, hcalls⟩ := hrun
  obtain ⟨-, -, hcounts, -, hbytes, hcount⟩ := accounts hrn
  rw [hcalls] at hcounts hbytes hcount
  exact ⟨rn, hrn, hcalls, hcounts 100, hbytes, hcount (by decide)⟩

end Network

/-! ## Deleted servers -/

/-- `processReq` has found this server and has not looked at it for the last time. -/
def Stage.Unchecked (info : EndInfo ν) (stage : Stage ν) : Prop :=
  stage = .reached info ∨ stage = .waiting info ∨ ∃ reply, stage = .left info reply

/-- The call may still be executed, but will not be answered with `true`. -/
def Stage.Lost (info : EndInfo ν) (stage : Stage ν) : Prop :=
  stage.Unchecked info ∨ stage = .checked info none ∨ stage = .answered none

theorem Call.Goes.lost {rn : Network ε ν} {call : Call ε ν} {o : Outcome ε ν} {info : EndInfo ν}
    (hgoes : call.Goes rn o) (hdead : rn.servers info.servername ≠ some info.server)
    (h : call.stage.Lost info) : o.call.stage.Lost info := by
  have hof : ∀ stage, call.stage = stage → stage.Lost info := fun _ hstage => hstage ▸ h
  cases hgoes with
  | dispatched | handled | alive => exact h
  | refused hstage | found hstage | missed hstage | timedOut hstage =>
    have := hof _ hstage
    simp [Stage.Lost, Stage.Unchecked] at this
  | requestLost | replyLost => exact Or.inr (Or.inr rfl)
  | executed hstage =>
    obtain rfl : _ = info := by simpa [Stage.Lost, Stage.Unchecked] using hof _ hstage
    exact Or.inl (Or.inr (Or.inl rfl))
  | received hstage | gaveUp hstage =>
    obtain rfl : _ = info := by simpa [Stage.Lost, Stage.Unchecked] using hof _ hstage
    exact Or.inl (Or.inr (Or.inr ⟨_, rfl⟩))
  | passed hstage halive =>
    -- the server is not in its place
    obtain rfl : _ = info := by simpa [Stage.Lost, Stage.Unchecked] using hof _ hstage
    simp [Network.isServerDead, hdead] at halive
  | failed hstage =>
    obtain rfl : _ = info := by simpa [Stage.Lost, Stage.Unchecked] using hof _ hstage
    exact Or.inr (Or.inl rfl)
  | delayed hstage =>
    have := hof _ hstage
    simp [Stage.Lost, Stage.Unchecked] at this
  | answered hstage =>
    rcases hstage with ⟨info', hstage⟩ | hstage
    all_goals
      have := hof _ hstage
      simp [Stage.Lost, Stage.Unchecked] at this

namespace Network

variable [DecidableEq ε] [DecidableEq ν] {rn rn' : Network ε ν} {k : ℕ} {call : Call ε ν}

/-- Once the server that a `Call` was sent to has been deleted, and unless the same server is put
back under this name, the `Call` is never answered with `true` if `processReq` has not looked at the
server for the last time: whatever its handler does, and whatever else happens. -/
theorem deleted_server_silent {info : EndInfo ν} (hcall : rn.calls[k]? = some call)
    (hstage : call.stage.Unchecked info) (hdeleted : rn.servers info.servername ≠ some info.server)
    (h : Reach step (fun _ a => a ≠ .addServer info.servername info.server) rn rn') :
    ∃ call', rn'.calls[k]? = some call' ∧ ∀ reply, call'.stage ≠ .answered (some reply) := by
  have hlost : rn'.servers info.servername ≠ some info.server ∧
      ∃ call', rn'.calls[k]? = some call' ∧ call'.stage.Lost info := by
    refine h.invariant (I := fun rn => rn.servers info.servername ≠ some info.server ∧
      ∃ call', rn.calls[k]? = some call' ∧ call'.stage.Lost info) ?_
      ⟨hdeleted, call, hcall, Or.inl hstage⟩
    rintro rn a rn' ⟨hdead, call, hcall, hlost⟩ hok hstep
    cases goes_of_step hstep with
    | configured hcalls _ _ _ _ _ hservers =>
      refine ⟨fun hserver => ?_, call, hcalls ▸ hcall, hlost⟩
      exact (hservers _ _ hserver).elim hdead hok
    | called endname args =>
      refine ⟨hdead, call, ?_, hlost⟩
      rw [List.getElem?_append_left (List.getElem?_eq_some_iff.mp hcall).1, hcall]
    | @taken j c hc hstage =>
      refine ⟨hdead, ?_⟩
      by_cases hj : j = k
      · subst hj
        obtain rfl := Option.some.inj (hcall.symm.trans hc)
        rw [hstage] at hlost
        simp [Stage.Lost, Stage.Unchecked] at hlost
      · exact ⟨call, (List.getElem?_set_ne hj).trans hcall, hlost⟩
    | @processed j c o hc hgoes =>
      refine ⟨hdead, ?_⟩
      by_cases hj : j = k
      · subst hj
        obtain rfl := Option.some.inj (hcall.symm.trans hc)
        exact ⟨o.call, List.getElem?_set_self (List.getElem?_eq_some_iff.mp hcall).1,
          hgoes.lost hdead hlost⟩
      · exact ⟨call, (List.getElem?_set_ne hj).trans hcall, hlost⟩
  obtain ⟨-, call', hcall', hstage'⟩ := hlost
  refine ⟨call', hcall', fun reply hreply => ?_⟩
  rw [hreply] at hstage'
  simp [Stage.Lost, Stage.Unchecked] at hstage'

/-- The handler of a call runs. Its server is deleted, and another one takes the name. -/
def whileRunning : Network ℕ ℕ :=
  (exec step (fun _ _ => True) (untilAnswered.take 10 ++ [.deleteServer 7, .addServer 7 101])
    makeNetwork).getD makeNetwork

/-- The handler returns nevertheless, and its reply is thrown away. -/
theorem deleted_server_silent_whileRunning : ∃ rn : Network ℕ ℕ,
    Reach step (fun _ a => a ≠ .addServer 7 100) whileRunning rn ∧
    ∃ call, rn.calls[0]? = some call ∧ call.handler = .returned 100 [9] ∧
      ∀ reply, call.stage ≠ .answered (some reply) := by
  have hrun : ∃ rn : Network ℕ ℕ, Reach step (fun _ a => a ≠ .addServer 7 100) whileRunning rn ∧
      rn.calls[0]?.map Call.handler = some (.returned 100 [9]) :=
    Reach.exists_of_exec [.process 0 (.handle [9]), .process 0 .receive, .process 0 .check,
      .process 0 .answer] (by decide +kernel)
  obtain ⟨rn, hrn, hhandler⟩ := hrun
  have hcall : whileRunning.calls[0]? =
      some ⟨0, [1, 2], .waiting ⟨7, 100, true, false⟩, .running 100⟩ := by decide +kernel
  obtain ⟨call, hself, hsilent⟩ :=
    deleted_server_silent hcall (Or.inr (Or.inl rfl)) (by decide +kernel) hrn
  rw [hself] at hhandler
  exact ⟨rn, hrn, call, hself, Option.some.inj hhandler, hsilent⟩

end Network

/-! ## Calls return -/

/-- `Call` has returned. -/
def Stage.returned : Stage ν → Bool
  | .refused | .answered _ => true
  | _ => false

/-- `processReq` waits for a handler that runs, at a server that is still in its place. -/
def Call.Awaits (rn : Network ε ν) (call : Call ε ν) : Prop :=
  ∃ info server, call.stage = .waiting info ∧ call.handler = .running server ∧
    rn.isServerDead call.endname info = false

/-- How far a call is from its return. -/
def Call.rank (call : Call ε ν) : ℕ :=
  match call.stage with
  | .sending => 10
  | .arrived => 9
  | .reached _ => 8
  | .waiting _ =>
    match call.handler with
    | .absent => 7
    | .spawned _ => 6
    | .running _ => 5
    | .returned .. => 4
  | .left .. => 3
  | .checked .. => 2
  | .delayed _ | .unreachable => 1
  | .refused | .answered _ => 0

/-- A move of the goroutines that work for a call, or of a timer, but not its handler's return. -/
def CallMove.isOwn : CallMove → Bool
  | .handle _ => false
  | _ => true

/-- A step for the `k`-th call that is not up to its handler. -/
def NetMove.OwnOf (k : ℕ) : NetMove ε ν → Prop
  | .take j => j = k
  | .process j move => j = k ∧ move.isOwn = true
  | _ => False

/-- Once the request is taken up there is a step towards the return, or it is up to the handler. -/
theorem Call.Ok.exists_step {call : Call ε ν} (h : call.Ok) (rn : Network ε ν)
    (hsent : call.stage ≠ .sending) (hopen : call.stage.returned = false)
    (hawaits : ¬ call.Awaits rn) :
    ∃ move o, move.isOwn = true ∧ call.step rn move = some o ∧ o.call.rank < call.rank := by
  cases hstage : call.stage with
  | sending => exact absurd hstage hsent
  | arrived =>
    cases hinfo : rn.readEndnameInfo call.endname with
    | none => exact ⟨.read, _, rfl, by rw [step, hstage, hinfo], by simp [rank, hstage]⟩
    | some info => exact ⟨.read, _, rfl, by rw [step, hstage, hinfo], by simp [rank, hstage]⟩
  | unreachable => exact ⟨.timer, _, rfl, by rw [step, hstage], by simp [rank, hstage]⟩
  | reached info => exact ⟨.execute, _, rfl, by rw [step, hstage], by simp [rank, hstage]⟩
  | waiting info =>
    cases hhandler : call.handler with
    | absent => exact absurd hhandler (h.spawned info hstage)
    | spawned server =>
      exact ⟨.dispatch, _, rfl, by rw [step, hhandler], by simp [rank, hstage, hhandler]⟩
    | running server =>
      -- only the next look at the server ends the loop
      have hdead : rn.isServerDead call.endname info = true := by
        by_contra halive
        exact hawaits ⟨info, server, hstage, hhandler, by simpa using halive⟩
      exact ⟨.poll, _, rfl, by rw [step, hstage], by simp [rank, hstage, hhandler, hdead]⟩
    | returned server reply =>
      exact ⟨.receive, _, rfl, by rw [step, hstage, hhandler], by simp [rank, hstage, hhandler]⟩
  | left info reply => exact ⟨.check, _, rfl, by rw [step, hstage], by simp [rank, hstage]⟩
  | checked info reply =>
    cases reply with
    | none => exact ⟨.answer, _, rfl, by rw [step, hstage], by simp [rank, hstage]⟩
    | some reply => exact ⟨.answer, _, rfl, by rw [step, hstage], by simp [rank, hstage]⟩
  | delayed reply => exact ⟨.timer, _, rfl, by rw [step, hstage], by simp [rank, hstage]⟩
  | refused | answered reply =>
    rw [hstage] at hopen
    cases hopen

namespace Network

variable [DecidableEq ε] [DecidableEq ν] {rn : Network ε ν} {k : ℕ} {call : Call ε ν}

/-- A step of the network that brings the `k`-th call nearer to its return. -/
def Nears (rn : Network ε ν) (k : ℕ) (call : Call ε ν) (rn' : Network ε ν) (call' : Call ε ν) :
    Prop :=
  (∃ a : NetMove ε ν, a.OwnOf k ∧ rn.step a = some rn') ∧ rn'.Accounts ∧
    rn'.calls[k]? = some call' ∧ call'.rank < call.rank ∧
    ∀ server reply, call.handler = .returned server reply → call'.handler = .returned server reply

theorem Accounts.nears_of_step (h : rn.Accounts) (hcall : rn.calls[k]? = some call)
    {move : CallMove} {o : Outcome ε ν} (hown : move.isOwn = true)
    (ho : call.step rn move = some o) (hlt : o.call.rank < call.rank) :
    rn.Nears k call (rn.install k o) o.call := by
  have hgoes := Call.goes_of_step ho
  refine ⟨⟨.process k move, ⟨rfl, hown⟩, ?_⟩, h.install hcall hgoes,
    List.getElem?_set_self (List.getElem?_eq_some_iff.mp hcall).1, hlt, fun server reply =>
      hgoes.handler_of_returned (h.calls call (List.mem_of_getElem? hcall))⟩
  rw [Network.step, hcall, Option.bind_some, ho, Option.map_some]

/-- At its `select` a `Call` goes on because requests are taken up until `done` is closed. -/
theorem Accounts.exists_nears (h : rn.Accounts) (hcall : rn.calls[k]? = some call)
    (hopen : call.stage.returned = false) (hawaits : ¬ call.Awaits rn) :
    ∃ rn' call', rn.Nears k call rn' call' := by
  by_cases hsending : call.stage = .sending
  · cases hlistening : rn.listening with
    | true =>
      refine ⟨rn.takeUp k call, { call with stage := .arrived }, ⟨.take k, rfl, ?_⟩,
        h.takeUp hcall hsending, List.getElem?_set_self (List.getElem?_eq_some_iff.mp hcall).1,
        by simp [Call.rank, hsending], fun _ _ => id⟩
      simp only [Network.step, hcall]
      rw [if_pos ⟨hlistening, hsending⟩]
    | false =>
      have hrefuse : call.step rn .refuse = some { call := { call with stage := .refused } } := by
        rw [Call.step, hsending, h.stopped hlistening]
        rfl
      exact ⟨_, _, h.nears_of_step hcall rfl hrefuse (by simp [Call.rank, hsending])⟩
  · obtain ⟨move, o, hown, ho, hlt⟩ :=
      (h.calls call (List.mem_of_getElem? hcall)).exists_step rn hsending hopen hawaits
    exact ⟨_, _, h.nears_of_step hcall hown ho hlt⟩

/-- Steps for the call alone lead to its return, or to where it is up to the handler. -/
theorem Accounts.returns (h : rn.Accounts) (hcall : rn.calls[k]? = some call) :
    ∃ rn' call', Reach Network.step (fun _ a => a.OwnOf k) rn rn' ∧ rn'.Accounts ∧
      rn'.calls[k]? = some call' ∧ (call'.stage.returned = true ∨ call'.Awaits rn') ∧
      ∀ server reply, call.handler = .returned server reply →
        call'.handler = .returned server reply := by
  induction hrank : call.rank using Nat.strong_induction_on generalizing rn call with
  | _ r ih =>
    by_cases hdone : call.stage.returned = true ∨ call.Awaits rn
    · exact ⟨rn, call, Reach.refl rn, h, hcall, hdone, fun _ _ => id⟩
    · rw [not_or] at hdone
      obtain ⟨rn₁, call₁, ⟨a, hown, hstep⟩, h₁, hcall₁, hlt, hreturned₁⟩ :=
        h.exists_nears hcall (by simpa using hdone.1) hdone.2
      obtain ⟨rn', call', hrun, h', hcall', hend, hreturned⟩ := ih _ (hrank ▸ hlt) h₁ hcall₁ rfl
      have hfirst : Reach Network.step (fun _ (b : NetMove ε ν) => b.OwnOf k) rn rn₁ :=
        Reach.single hown hstep
      exact ⟨rn', call', hfirst.trans hrun, h', hcall', hend,
        fun server reply hh => hreturned server reply (hreturned₁ server reply hh)⟩

/-- Once its handler has returned, nothing keeps a call from its answer. -/
theorem Accounts.returns_of_returned (h : rn.Accounts) (hcall : rn.calls[k]? = some call)
    {server : ℕ} {reply : Bytes} (hhandler : call.handler = .returned server reply) :
    ∃ rn' call', Reach Network.step (fun _ a => a.OwnOf k) rn rn' ∧
      rn'.calls[k]? = some call' ∧ call'.stage.returned = true := by
  obtain ⟨rn', call', hrun, -, hcall', hend, hreturned⟩ := h.returns hcall
  refine ⟨rn', call', hrun, hcall', hend.resolve_right ?_⟩
  rintro ⟨info, server', -, hrunning, -⟩
  rw [hreturned server reply hhandler] at hrunning
  cases hrunning

/-- In no state of a run is a `Call` stuck for another reason than its handler, whatever has become
of ends, servers and other calls. Steps of the goroutines that work for this call and of its timers,
none of them the return of its handler, make it return, or lead to where it waits for a handler that
runs at a server still in its place. If the handler returns then, with any reply, such steps again
make it return. -/
theorem call_returns (h : Reach step (fun _ _ => True) (makeNetwork : Network ε ν) rn)
    (hcall : rn.calls[k]? = some call) :
    ∃ rn' call', Reach Network.step (fun _ a => a.OwnOf k) rn rn' ∧ rn'.calls[k]? = some call' ∧
      (call'.stage.returned = true ∨ (call'.Awaits rn' ∧
        ∀ reply, ∃ rn₁ rn₂ call₂, rn'.step (.process k (.handle reply)) = some rn₁ ∧
          Reach Network.step (fun _ a => a.OwnOf k) rn₁ rn₂ ∧ rn₂.calls[k]? = some call₂ ∧
          call₂.stage.returned = true)) := by
  obtain ⟨rn', call', hrun, hok, hcall', hend, -⟩ := (accounts_of_reach h).returns hcall
  refine ⟨rn', call', hrun, hcall', hend.imp_right fun hawaits => ⟨hawaits, fun reply => ?_⟩⟩
  obtain ⟨info, server, -, hrunning, -⟩ := hawaits
  have hhandle : call'.step rn' (.handle reply) =
      some { call := { call' with handler := .returned server reply } } := by
    rw [Call.step, hrunning]
  have hstep : rn'.step (.process k (.handle reply)) = some (rn'.install k
      { call := { call' with handler := .returned server reply } }) := by
    rw [Network.step, hcall', Option.bind_some, hhandle, Option.map_some]
  obtain ⟨rn₂, call₂, hrun₂, hcall₂, hreturned⟩ :=
    (hok.install hcall' (Call.goes_of_step hhandle)).returns_of_returned
      (List.getElem?_set_self (List.getElem?_eq_some_iff.mp hcall').1) rfl
  exact ⟨_, rn₂, call₂, hstep, hrun₂, hcall₂, hreturned⟩

/-- A call at its `select`, before anything has been done for it. -/
theorem call_returns_untilAnswered : ∃ rn : Network ℕ ℕ,
    Reach step (fun _ _ => True) makeNetwork rn ∧ rn.calls = [⟨0, [1, 2], .sending, .absent⟩] ∧
    ∃ rn' call', Reach step (fun _ a => a.OwnOf 0) rn rn' ∧ rn'.calls[0]? = some call' ∧
      (call'.stage.returned = true ∨ (call'.Awaits rn' ∧
        ∀ reply, ∃ rn₁ rn₂ call₂, rn'.step (.process 0 (.handle reply)) = some rn₁ ∧
          Reach step (fun _ a => a.OwnOf 0) rn₁ rn₂ ∧ rn₂.calls[0]? = some call₂ ∧
          call₂.stage.returned = true)) := by
  have hrun : ∃ rn : Network ℕ ℕ, Reach step (fun _ _ => True) makeNetwork rn ∧
      rn.calls = [⟨0, [1, 2], .sending, .absent⟩] :=
    Reach.exists_of_exec (untilAnswered.take 5) (by decide +kernel)
  obtain ⟨rn, hrn, hcalls⟩ := hrun
  exact ⟨rn, hrn, hcalls, call_returns hrn (by rw [hcalls]; rfl)⟩

end Network

end LogicRaft.Labrpc
