import LogicRaft.KV.Channels
import LogicRaft.KV.Requests

/-!
# Channels that nobody removes

`Serving` is a deployment together with the handlers of the requests its servers have been called
with. A step of a handler is a move of the deployment (`Handler.next`), so every run of `Serving` is
one of the deployment below it. A crash takes the handlers of its server along.

A handler makes the channel of its index, and its goroutine removes it. But `applyTask` makes one
too, if it finds none, whenever the server is leader: also for an index whose handler has timed out
and cleaned up, and for one that no handler of this incarnation ever had. Nobody removes these
(`leaked_channel`). Channels leak at such a step and at no other (`noLeaks_step_iff`).
-/

namespace LogicRaft

variable {n : ℕ}

structure Serving (n : ℕ) where
  deployment : Deployment n
  handlers : Fin n → List Handler

inductive ServingMove (n : ℕ)
  /-- a step of the cluster -/
  | raft (a : Action n Op)
  /-- the next step of the `applyTask` of a server -/
  | task (p : Fin n)
  /-- a client calls `Get` or `PutAppend` -/
  | call (p : Fin n) (request : Request)
  /-- the `j`-th handler of a server takes its next step -/
  | run (p : Fin n) (j : ℕ)
  /-- `ClientRequestTimeout` passes in the `select` of the `j`-th handler -/
  | timeout (p : Fin n) (j : ℕ)

/-- The handler still waits for its result, or the goroutine that removes the channel of the index
is still to run. -/
def Handler.holds (h : Handler) (index : ℕ) : Bool :=
  match h.stage with
  | .started i _ | .waiting i _ _ | .replied (some (i, _)) _ true => i == index
  | _ => false

section Steps

variable [RaftGob Op] [KVGob]

/-- The next step of a handler: the move of the deployment it takes, if any, and where it stands
then. `none` if it has to wait, is done, or panics. -/
def Handler.next (h : Handler) (d : Deployment n) (p : Fin n) : Option (Option (Move n) × Stage) :=
  let kv := (d.sites p).kv
  match h.stage with
  | .called =>
    match h.request with
    | .get _ => none
    | .putAppend args =>
      if (d.sites p).task.holdsMu then none
      else if kv.requestDuplicated args.clientId args.seqId then
        some (none, .replied none { err := (kv.lastReply args.clientId).err } false)
      else some (none, .starting)
  | .starting =>
    match h.request.op? with
    | none => none
    | some op =>
      match (d.raft.peers p).rf.start op with
      | (_, index, term, true) => some (some (.raft (.act p (.start op))), .started index term)
      | (_, _, _, false) => some (some (.raft (.act p (.start op))),
          .replied none { err := .errWrongLeader } false)
  | .started index term =>
    some (some (.getNotifyChannel p index), .waiting index term (kv.getNotifyChannel index).2)
  | .waiting index term ch =>
    kv.chans[ch]?.join.map fun opReply =>
      (some (.takeReply p ch), .replied (some (index, term)) (h.request.answer opReply) true)
  | .replied (some (index, term)) reply true =>
    some (some (.removeNotifyChannel p index), .replied (some (index, term)) reply false)
  | .replied .. => none

namespace Serving

def init (maxraftstate : ℤ) : Serving n where
  deployment := .init maxraftstate
  handlers _ := []

omit [RaftGob Op] [KVGob] in
/-- The deployment moves on; the handlers of a server that has crashed are gone. -/
def follow (s : Serving n) (d : Deployment n) : Serving n where
  deployment := d
  handlers p :=
    if (d.raft.peers p).incarnation = (s.deployment.raft.peers p).incarnation then s.handlers p
    else []

omit [RaftGob Op] [KVGob] in
/-- The `j`-th handler of `p` moves on. -/
def setStage (s : Serving n) (p : Fin n) (j : ℕ) (h : Handler) (stage : Stage) : Serving n :=
  { s with handlers := Function.update s.handlers p ((s.handlers p).set j { h with stage }) }

def step (s : Serving n) : ServingMove n → Option (Serving n)
  | .raft a =>
    match a with
    -- only handlers call `Start`
    | .act _ (.start _) => none
    | a => (s.deployment.step (.raft a)).map s.follow
  | .task p => (s.deployment.step (.task p)).map s.follow
  | .call p request => some { s with
      handlers := Function.update s.handlers p (s.handlers p ++ [⟨request, request.entry⟩]) }
  | .run p j =>
    match (s.handlers p)[j]? with
    | none => none
    | some h =>
      match h.next s.deployment p with
      | none => none
      | some (none, stage) => some (s.setStage p j h stage)
      | some (some m, stage) =>
        (s.deployment.step m).map fun d => (s.follow d).setStage p j h stage
  | .timeout p j =>
    match (s.handlers p)[j]? with
    | some ⟨request, .waiting index term ch⟩ => some
        (s.setStage p j ⟨request, .waiting index term ch⟩
          (.replied (some (index, term)) { err := .errTimeout } true))
    | _ => none

omit [RaftGob Op] [KVGob] in
/-- Every key of `notifyChans` is the index of a handler that still holds it. -/
def NoLeaks (s : Serving n) : Prop :=
  ∀ p index, index ∈ (s.deployment.sites p).kv.notifyChans →
    ∃ h ∈ s.handlers p, h.holds index = true

omit [RaftGob Op] [KVGob] in
/-- `applyTask` sends a reply only for an index that a handler of the server holds. -/
def Awaited (s : Serving n) : ServingMove n → Prop
  | .task p =>
    match (s.deployment.sites p).task with
    | .notifying index _ => ∃ h ∈ s.handlers p, h.holds index = true
    | _ => True
  | _ => True

instance (s : Serving n) (m : ServingMove n) : Decidable (s.Awaited m) := by
  unfold Awaited
  split
  · split <;> infer_instance
  · infer_instance

end Serving

end Steps

/-! ## Keys and those who hold them -/

theorem KVServer.mem_getNotifyChannel {kv : KVServer} {index i : ℕ} :
    i ∈ (kv.getNotifyChannel index).1.notifyChans ↔ i = index ∨ i ∈ kv.notifyChans := by
  unfold getNotifyChannel
  split
  case h_1 ch hch =>
    have hmem : index ∈ kv.notifyChans := Finmap.mem_of_lookup_eq_some hch
    refine ⟨Or.inr, ?_⟩
    rintro (rfl | hi)
    · exact hmem
    · exact hi
  case h_2 => exact Finmap.mem_insert

theorem KVServer.mem_notify {kv kv' : KVServer} {index i : ℕ} {opReply : OpReply}
    (h : kv.notify true index opReply = .ok kv') :
    i ∈ kv'.notifyChans ↔ i = index ∨ i ∈ kv.notifyChans := by
  obtain ⟨-, rfl⟩ := send_spec h
  exact mem_getNotifyChannel

/-- Every channel in the table has a handler that holds it. -/
def Covered (kv : KVServer) (handlers : List Handler) : Prop :=
  ∀ i ∈ kv.notifyChans, ∃ h ∈ handlers, h.holds i = true

namespace Covered

variable {kv kv' : KVServer} {handlers : List Handler} {j : ℕ} {h' : Handler}

theorem congr (hcovered : Covered kv handlers) (hmap : kv'.notifyChans = kv.notifyChans) :
    Covered kv' handlers := by
  intro i hi
  rw [hmap] at hi
  exact hcovered i hi

/-- A handler moves on, and holds on to the indices that are still in the table. -/
theorem set (hcovered : ∀ i ∈ kv.notifyChans,
      (j < handlers.length ∧ h'.holds i = true) ∨ ∃ x ∈ handlers, x.holds i = true)
    (hkeep : ∀ x, handlers[j]? = some x → ∀ i ∈ kv.notifyChans, x.holds i = true →
      h'.holds i = true) :
    Covered kv (handlers.set j h') := by
  intro i hi
  rcases hcovered i hi with ⟨hlt, hholds⟩ | ⟨x, hx, hholds⟩
  · exact ⟨h', List.mem_set hlt h', hholds⟩
  · obtain ⟨k, hk, rfl⟩ := List.mem_iff_getElem.mp hx
    have hget := List.getElem?_eq_getElem hk
    by_cases hkj : j = k
    · subst hkj
      exact ⟨h', List.mem_set hk h', hkeep _ hget i hi hholds⟩
    · have hold : (handlers.set j h')[k]? = some handlers[k] := by
        rw [List.getElem?_set_ne hkj, hget]
      exact ⟨_, List.mem_of_getElem? hold, hholds⟩

end Covered

section Moves

variable [RaftGob Op] [KVGob] {d d' : Deployment n} {p : Fin n}

omit [RaftGob Op] in
/-- `applyTask` makes a channel only to send on it. -/
theorem TaskMove.notifyChans {peer : Peer n Op} {site site' : Site} (h : TaskMove peer site site')
    (hne : ∀ i opReply, site.task ≠ .notifying i opReply) :
    site'.kv.notifyChans = site.kv.notifyChans := by
  cases h with
  | takenUp _ htake => exact (KVServer.takeUp_pending htake).2.1
  | notified htask => exact absurd htask (hne _ _)
  | asked | unasked | measured => rfl

/-- A step of a peer leaves the channels of a server alone, unless it is a crash. -/
theorem Deployment.PeerMove.notifyChans {c : Cause n Op} (h : d.PeerMove p c d')
    (hd : d.raft.Reachable) (q : Fin n) :
    (d'.raft.peers q).incarnation = (d.raft.peers q).incarnation ∧
        (d'.sites q).kv.notifyChans = (d.sites q).kv.notifyChans ∨
      (d'.raft.peers q).incarnation ≠ (d.raft.peers q).incarnation ∧
        (d'.sites q).kv.notifyChans = ∅ := by
  obtain @⟨a, e, task, site, -, hstep, -, hfollow⟩ := h
  by_cases hq : q = p
  · subst hq
    simp only [install, System.install_peers_self, Function.update_self]
    have happly := (Peer.does_of_step hstep).applyStep (hd.saved q)
    cases happly.follows hfollow with
    | restarted hinc _ hmap => exact Or.inr ⟨by omega, hmap⟩
    | received hinc _ _ hsite | undisturbed hinc _ hsite =>
      rw [hsite]
      exact Or.inl ⟨hinc, rfl⟩
  · refine Or.inl ⟨?_, ?_⟩
    · simp only [install, System.install_peers_ne _ _ _ _ hq]
    · simp only [install, Function.update_of_ne hq]

/-- Everything a step of a handler can be. -/
inductive Handler.Nexts (p : Fin n) : Handler → Option (Move n) → Stage → Prop
  | checked {args : PutAppendArgs} {stage : Stage} : Nexts p ⟨.putAppend args, .called⟩ none stage
  | submitted {request : Request} {op : Op} {stage : Stage} :
      Nexts p ⟨request, .starting⟩ (some (.raft (.act p (.start op)))) stage
  | registered {request : Request} {index term ch : ℕ} :
      Nexts p ⟨request, .started index term⟩ (some (.getNotifyChannel p index))
        (.waiting index term ch)
  | received {request : Request} {index term ch : ℕ} {reply : OpReply} :
      Nexts p ⟨request, .waiting index term ch⟩ (some (.takeReply p ch))
        (.replied (some (index, term)) reply true)
  | cleaned {request : Request} {index term : ℕ} {reply : OpReply} :
      Nexts p ⟨request, .replied (some (index, term)) reply true⟩
        (some (.removeNotifyChannel p index)) (.replied (some (index, term)) reply false)

omit [KVGob] in
theorem Handler.nexts_of_next {h : Handler} {m : Option (Move n)} {stage : Stage}
    (hnext : h.next d p = some (m, stage)) : h.Nexts p m stage := by
  obtain ⟨request, stage₀⟩ := h
  unfold next at hnext
  dsimp only at hnext
  cases stage₀ with
  | called =>
    cases request with
    | get args => cases hnext
    | putAppend args =>
      dsimp only at hnext
      split at hnext
      · cases hnext
      · split at hnext
        · cases hnext
          exact .checked
        · cases hnext
          exact .checked
  | starting =>
    dsimp only at hnext
    split at hnext
    · cases hnext
    · split at hnext
      · cases hnext
        exact .submitted
      · cases hnext
        exact .submitted
  | started index term =>
    cases hnext
    exact .registered
  | waiting index term ch =>
    obtain ⟨opReply, -, heq⟩ := Option.map_eq_some_iff.mp hnext
    cases heq
    exact .received
  | replied start reply cleanup =>
    match start, cleanup with
    | some (index, term), true =>
      cases hnext
      exact .cleaned
    | some (index, term), false => cases hnext
    | none, _ => cases hnext

end Moves

/-! ## Runs -/

namespace Serving

section Runs

variable [RaftGob Op] [KVGob] {s s' : Serving n} {m : ServingMove n} {maxraftstate : ℤ}

theorem step_raft {a : Action n Op} (h : s.step (.raft a) = some s') :
    ∃ d, s.deployment.step (.raft a) = some d ∧ s.follow d = s' := by
  simp only [step] at h
  split at h
  · cases h
  · exact Option.map_eq_some_iff.mp h

/-- A handler moves alone, or its server moves with it. -/
theorem step_run {p : Fin n} {j : ℕ} (h : s.step (.run p j) = some s') :
    ∃ x, (s.handlers p)[j]? = some x ∧
      ((∃ stage, x.next s.deployment p = some (none, stage) ∧ s.setStage p j x stage = s') ∨
        ∃ m stage d, x.next s.deployment p = some (some m, stage) ∧ s.deployment.step m = some d ∧
          (s.follow d).setStage p j x stage = s') := by
  simp only [step] at h
  split at h
  case h_1 => cases h
  case h_2 x hj =>
    refine ⟨x, hj, ?_⟩
    split at h
    case h_1 => cases h
    case h_2 stage hnext => exact Or.inl ⟨stage, hnext, Option.some.inj h⟩
    case h_3 m stage hnext =>
      obtain ⟨d, hm, rfl⟩ := Option.map_eq_some_iff.mp h
      exact Or.inr ⟨m, stage, d, hnext, hm, rfl⟩

/-- Only a handler that waits times out. -/
theorem step_timeout {p : Fin n} {j : ℕ} (h : s.step (.timeout p j) = some s') :
    ∃ request index term ch, (s.handlers p)[j]? = some ⟨request, .waiting index term ch⟩ ∧
      s.setStage p j ⟨request, .waiting index term ch⟩
        (.replied (some (index, term)) { err := .errTimeout } true) = s' := by
  simp only [step] at h
  split at h
  case h_1 request index term ch hj => exact ⟨request, index, term, ch, hj, Option.some.inj h⟩
  case h_2 => cases h

/-- Every step is one of the deployment, or leaves it as it is. -/
theorem step_deployment (h : s.step m = some s') :
    s'.deployment = s.deployment ∨ ∃ m, s.deployment.step m = some s'.deployment := by
  cases m with
  | raft a =>
    obtain ⟨d, hd, rfl⟩ := step_raft h
    exact Or.inr ⟨_, hd⟩
  | task p =>
    obtain ⟨d, hd, rfl⟩ := Option.map_eq_some_iff.mp h
    exact Or.inr ⟨_, hd⟩
  | call p request =>
    obtain rfl := Option.some.inj h
    exact Or.inl rfl
  | run p j =>
    obtain ⟨x, -, ⟨stage, -, rfl⟩ | ⟨m, stage, d, -, hm, rfl⟩⟩ := step_run h
    · exact Or.inl rfl
    · exact Or.inr ⟨m, hm⟩
  | timeout p j =>
    obtain ⟨request, index, term, ch, -, rfl⟩ := step_timeout h
    exact Or.inl rfl

/-- The step of the cluster that a move takes. -/
def action (s : Serving n) : ServingMove n → Option (Action n Op)
  | .raft a => s.deployment.action (.raft a)
  | .task p => s.deployment.action (.task p)
  | .run p j =>
    ((s.handlers p)[j]?.bind fun h => h.next s.deployment p).bind fun x =>
      x.1.bind s.deployment.action
  | _ => none

theorem raft_of_step (h : s.step m = some s') :
    match s.action m with
    | none => s'.deployment.raft = s.deployment.raft
    | some a => s.deployment.raft.step a = some s'.deployment.raft := by
  cases m with
  | raft a =>
    obtain ⟨d, hd, rfl⟩ := step_raft h
    exact Deployment.raft_of_step hd
  | task p =>
    obtain ⟨d, hd, rfl⟩ := Option.map_eq_some_iff.mp h
    exact Deployment.raft_of_step hd
  | call p request =>
    obtain rfl := Option.some.inj h
    rfl
  | run p j =>
    obtain ⟨x, hx, hmoved⟩ := step_run h
    rw [action, hx, Option.bind_some]
    rcases hmoved with ⟨stage, hnext, rfl⟩ | ⟨m, stage, d, hnext, hm, rfl⟩
    · rw [hnext]
      rfl
    · rw [hnext]
      exact Deployment.raft_of_step hm
  | timeout p j =>
    obtain ⟨request, index, term, ch, -, rfl⟩ := step_timeout h
    rfl

/-- The servers with their handlers, as a machine with a cluster inside. -/
def host (n : ℕ) : Host n Op (Serving n) (ServingMove n) where
  step := step
  raft s := s.deployment.raft
  setNet s net := { s with deployment.raft.net := net }
  action := action
  raft_of_none h ha := by
    have hraft := raft_of_step h
    rwa [ha] at hraft
  raft_of_some h ha := by
    have hraft := raft_of_step h
    rwa [ha] at hraft
  setNet_net _ := rfl
  raft_setNet _ _ := rfl

/-- Below the handlers runs the deployment. -/
theorem reach_deployment {ok : Serving n → ServingMove n → Prop}
    (h : Reach step ok (init maxraftstate) s) :
    Reach Deployment.step (fun _ _ => True) (.init maxraftstate) s.deployment := by
  refine h.invariant (I := fun s => Reach Deployment.step (fun _ _ => True) (.init maxraftstate)
    s.deployment) ?_ (Reach.refl _)
  intro s m s' hs _ hstep
  rcases step_deployment hstep with heq | ⟨m, hm⟩
  · rw [heq]
    exact hs
  · exact hs.trans (.single trivial hm)

omit [RaftGob Op] [KVGob] in
/-- A step that leaves the channels alone, unless it is a crash. -/
theorem NoLeaks.follow (h : s.NoLeaks) {d : Deployment n}
    (hmap : ∀ q, (d.raft.peers q).incarnation = (s.deployment.raft.peers q).incarnation ∧
        (d.sites q).kv.notifyChans = (s.deployment.sites q).kv.notifyChans ∨
      (d.raft.peers q).incarnation ≠ (s.deployment.raft.peers q).incarnation ∧
        (d.sites q).kv.notifyChans = ∅) : (s.follow d).NoLeaks := by
  intro q
  rcases hmap q with ⟨hinc, hsame⟩ | ⟨-, hempty⟩
  · simp only [Serving.follow, if_pos hinc]
    exact Covered.congr (h q) hsame
  · intro i hi
    simp only [Serving.follow, hempty] at hi
    exact absurd hi (Finmap.notMem_empty)

omit [RaftGob Op] [KVGob] in
/-- A server moves alone. -/
theorem NoLeaks.setSite (h : s.NoLeaks) {p : Fin n} {site : Site}
    (hp : Covered site.kv (s.handlers p)) : (s.follow (s.deployment.setSite p site)).NoLeaks := by
  intro q
  simp only [Serving.follow, Deployment.setSite, if_true]
  by_cases hq : q = p
  · subst hq
    rw [Function.update_self]
    exact hp
  · rw [Function.update_of_ne hq]
    exact h q

omit [RaftGob Op] [KVGob] in
/-- A handler moves on: the others hold what they held. -/
theorem NoLeaks.setStage {p : Fin n} {j : ℕ} {x : Handler} {stage : Stage}
    (hother : ∀ q, q ≠ p → Covered (s.deployment.sites q).kv (s.handlers q))
    (hp : Covered (s.deployment.sites p).kv ((s.handlers p).set j { x with stage })) :
    (s.setStage p j x stage).NoLeaks := by
  intro q
  simp only [Serving.setStage]
  by_cases hq : q = p
  · subst hq
    rw [Function.update_self]
    exact hp
  · rw [Function.update_of_ne hq]
    exact hother q hq

omit [RaftGob Op] [KVGob] in
/-- A handler moves on together with its server. -/
theorem NoLeaks.setSite_setStage (h : s.NoLeaks) {p : Fin n} {site : Site} {j : ℕ} {x : Handler}
    {stage : Stage} (hp : Covered site.kv ((s.handlers p).set j { x with stage })) :
    ((s.follow (s.deployment.setSite p site)).setStage p j x stage).NoLeaks := by
  refine .setStage (fun q hq => ?_) ?_
  · simp only [Serving.follow, Deployment.setSite, if_true, Function.update_of_ne hq]
    exact h q
  · simp only [Serving.follow, Deployment.setSite, if_true, Function.update_self]
    exact hp

omit [RaftGob Op] [KVGob] in
/-- A handler that keeps what it holds may move on. -/
theorem NoLeaks.setStage_of_holds (h : s.NoLeaks) {p : Fin n} {j : ℕ} {x : Handler} {stage : Stage}
    (hkeep : ∀ y, (s.handlers p)[j]? = some y → ∀ i, y.holds i = true →
      ({ x with stage } : Handler).holds i = true) : (s.setStage p j x stage).NoLeaks :=
  .setStage (fun q _ => h q) (.set (fun i hi => Or.inr (h p i hi)) fun y hy i _ => hkeep y hy i)

/-- A step of a handler. -/
theorem NoLeaks.run (h : s.NoLeaks) (hd : s.deployment.raft.Reachable) {p : Fin n} {j : ℕ}
    (hstep : s.step (.run p j) = some s') : s'.NoLeaks := by
  simp only [step] at hstep
  split at hstep
  case h_1 => cases hstep
  case h_2 x hx =>
    have hlt : j < (s.handlers p).length := (List.getElem?_eq_some_iff.mp hx).1
    have hself : ∀ y, (s.handlers p)[j]? = some y → y = x :=
      fun y hy => Option.some.inj (hy.symm.trans hx)
    split at hstep
    case h_1 => cases hstep
    case h_2 stage hnext =>
      obtain rfl := Option.some.inj hstep
      refine h.setStage_of_holds fun y hy i hi => ?_
      rw [hself y hy] at hi
      cases Handler.nexts_of_next hnext with
      | checked => cases hi
    case h_3 m stage hnext =>
      obtain ⟨d, hm, rfl⟩ := Option.map_eq_some_iff.mp hstep
      cases Handler.nexts_of_next hnext with
      | submitted =>
        obtain ⟨q, c, -, hmove⟩ := Deployment.step_raft hm
        refine (h.follow (hmove.notifyChans hd)).setStage_of_holds fun y hy i hi => ?_
        simp only [Serving.follow] at hy
        split at hy
        · rw [hself y hy] at hi
          cases hi
        · cases hy
      | @registered request index term ch =>
        rw [Deployment.step_getNotifyChannel hm]
        refine h.setSite_setStage (.set (fun i hi => ?_) fun y hy i _ hi => ?_)
        · rcases KVServer.mem_getNotifyChannel.mp hi with rfl | hold
          · exact Or.inl ⟨hlt, beq_self_eq_true _⟩
          · exact Or.inr (h p i hold)
        · rw [hself y hy] at hi
          exact hi
      | received =>
        rw [Deployment.step_takeReply hm]
        refine h.setSite_setStage (.set (fun i hi => Or.inr (h p i hi)) fun y hy i _ hi => ?_)
        rw [hself y hy] at hi
        exact hi
      | @cleaned request index term reply =>
        rw [Deployment.step_removeNotifyChannel hm]
        -- the handler lets go of the index whose channel is removed
        refine h.setSite_setStage (.set (fun i hi => Or.inr (h p i (Finmap.mem_erase.mp hi).2))
          fun y hy i hmem hi => ?_)
        rw [hself y hy] at hi
        exact absurd (beq_iff_eq.mp hi).symm (Finmap.mem_erase.mp hmem).1

/-- A step of `applyTask`. -/
theorem NoLeaks.task_iff (h : s.NoLeaks) (hd : s.deployment.raft.Reachable) {p : Fin n}
    (hstep : s.step (.task p) = some s') : s'.NoLeaks ↔ s.Awaited (.task p) := by
  obtain ⟨d, hm, rfl⟩ := Option.map_eq_some_iff.mp hstep
  by_cases hnotifying : ∃ i opReply, (s.deployment.sites p).task = .notifying i opReply
  · obtain ⟨i, opReply, htask⟩ := hnotifying
    obtain ⟨kv, hsent, rfl⟩ := Deployment.step_notifying htask hm
    simp only [Awaited, htask]
    refine ⟨fun hleaks => ?_, fun hheld => h.setSite fun k hk => ?_⟩
    · have hcovered := hleaks p i
      simp only [Serving.follow, Deployment.setSite, if_true, Function.update_self] at hcovered
      exact hcovered ((KVServer.mem_notify hsent).mpr (Or.inl rfl))
    · rcases (KVServer.mem_notify hsent).mp hk with rfl | hold
      · exact hheld
      · exact h p k hold
  · have hne : ∀ i opReply, (s.deployment.sites p).task ≠ .notifying i opReply :=
      fun i opReply htask => hnotifying ⟨i, opReply, htask⟩
    have hok : s.Awaited (.task p) := by
      unfold Awaited
      dsimp only
      split
      case h_1 htask => exact absurd htask (hne _ _)
      case h_2 => trivial
    refine iff_of_true ?_ hok
    rcases Deployment.step_task hm with ⟨c, -, hmove⟩ | ⟨site, hmove, rfl⟩
    · exact h.follow (hmove.notifyChans hd)
    · exact h.setSite (Covered.congr (h p) (hmove.notifyChans hne))

/-- Channels leak at a step that sends a reply nobody holds the index of, and at no other. -/
theorem noLeaks_step_iff (h : s.NoLeaks) (hd : s.deployment.raft.Reachable)
    (hstep : s.step m = some s') : s'.NoLeaks ↔ s.Awaited m := by
  cases m with
  | task p => exact h.task_iff hd hstep
  | run p j => exact iff_of_true (h.run hd hstep) trivial
  | raft a =>
    refine iff_of_true ?_ trivial
    obtain ⟨d, hm, rfl⟩ := step_raft hstep
    obtain ⟨q, c, -, hmove⟩ := Deployment.step_raft hm
    exact h.follow (hmove.notifyChans hd)
  | call p request =>
    refine iff_of_true ?_ trivial
    obtain rfl := Option.some.inj hstep
    intro q i hi
    obtain ⟨x, hx, hholds⟩ := h q i hi
    by_cases hq : q = p
    · subst hq
      simp only [Function.update_self]
      exact ⟨x, List.mem_append_left _ hx, hholds⟩
    · simp only [Function.update_of_ne hq]
      exact ⟨x, hx, hholds⟩
  | timeout p j =>
    refine iff_of_true ?_ trivial
    simp only [step] at hstep
    split at hstep
    case h_1 request index term ch hx =>
      obtain rfl := Option.some.inj hstep
      refine h.setStage_of_holds fun y hy i hi => ?_
      rw [Option.some.inj (hy.symm.trans hx)] at hi
      exact hi
    case h_2 => cases hstep

/-- In a run in which `applyTask` sends replies only for indices that a handler of its server holds,
every key of `notifyChans` is the index of a handler that still waits for its result or whose
goroutine has yet to remove the channel. -/
theorem no_leaked_channels (h : Reach step Awaited (init maxraftstate) s) : s.NoLeaks := by
  refine h.invariant_along (I := NoLeaks) ?_ fun p index hindex => ?_
  · intro s m s' hs hleaks hok hstep
    exact (noLeaks_step_iff hleaks (Deployment.reachable_raft (reach_deployment hs)) hstep).mpr hok
  · exact absurd hindex Finmap.notMem_empty

end Runs

/-- Peer `0` is elected. A client puts a key there; the handler has made its channel and waits. -/
def untilWaiting : List (ServingMove 3) :=
  [.raft (.act 0 .tickerStep), .raft (.act 0 .electionTimeout), .raft (.act 0 (.startElection 0)),
    .raft (.deliver 0), .raft (.deliver 1),
    .call 0 (.putAppend { key := "k", value := "v", op := "Put", clientId := 1, seqId := 1 }),
    .run 0 0, .run 0 0, .run 0 0]

/-- The command is committed and handed to `applyTask`, which sends the reply. -/
def untilReply : List (ServingMove 3) :=
  [.raft (.act 0 (.replicationTick 0)), .raft (.deliver 1), .raft (.deliver 2),
    .raft (.act 0 .tickerStep), .raft (.act 0 .tickerStep), .raft (.act 0 .tickerStep), .task 0,
    .task 0, .task 0]

/-- The reply comes in time: there is a channel, and the handler still holds it. -/
theorem no_leaked_channels_in_time : ∃ s : Serving 3, Reach step Awaited (init (-1)) s ∧
    1 ∈ (s.deployment.sites 0).kv.notifyChans ∧ s.NoLeaks := by
  have hrun : ∃ s : Serving 3, Reach step Awaited (init (-1)) s ∧
      1 ∈ (s.deployment.sites 0).kv.notifyChans :=
    Reach.exists_of_exec (untilWaiting ++ untilReply) (by decide +kernel)
  obtain ⟨s, hs, hkey⟩ := hrun
  exact ⟨s, hs, hkey, no_leaked_channels hs⟩

/-- The handler times out and its goroutine removes the channel before the command is committed. The
server is still leader when it applies the command, so `applyTask` makes a new channel; the only
handler is done. -/
theorem leaked_channel : ∃ s : Serving 3, Reach step (fun _ _ => True) (init (-1)) s ∧
    ¬ s.NoLeaks := by
  have hrun : ∃ s : Serving 3, Reach step (fun _ _ => True) (init (-1)) s ∧
      (1 ∈ (s.deployment.sites 0).kv.notifyChans ∧
        ∀ h ∈ s.handlers 0, h.holds 1 = false) :=
    Reach.exists_of_exec (untilWaiting ++ [.timeout 0 0, .run 0 0] ++ untilReply)
      (by decide +kernel)
  obtain ⟨s, hs, hkey, hdone⟩ := hrun
  refine ⟨s, hs, fun hleaks => ?_⟩
  obtain ⟨h, hmem, hholds⟩ := hleaks 0 1 hkey
  rw [hdone h hmem] at hholds
  cases hholds

end Serving

end LogicRaft
