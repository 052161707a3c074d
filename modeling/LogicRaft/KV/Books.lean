import LogicRaft.KV.Ledger
import LogicRaft.KV.OwnReplies

/-!
# Books about a run of the service

A run of the service is explained by a ledger. What has to be remembered to keep it is in the
`Books`: besides the ledger, for which operation of which client every `Call` was made, and which
operations have been recorded. This module says what the books know about each part of the service.

* No operation is executed before it was asked for. A leader gives a command an index behind
  everything in the sequence, or else the entry it makes for it never gets into the sequence
  (`System.Orderly.fresh`).
* Every answer is that of the operation's own entry (`RepliesAt`), or comes from the duplicate
  table, which then knows the operation itself: a client has at most one write that is not answered
  (`ServersOk.replyOk`).
-/

namespace LogicRaft

open Porcupine (KvOperation)

variable {n m : ℕ}

/-! ## Entries come after what was there -/

/-- An entry with this index and term, if it is in the sequence, comes after the first `k`. -/
def Fresh (tr : List (Event n Op)) (k index term : ℕ) : Prop :=
  k < index ∨ ∃ r, (appliedLog tr)[index - 1]? = some r ∧ r.term ≠ term

theorem Fresh.mono {tr : List (Event n Op)} {k k' index term : ℕ} (h : Fresh tr k index term)
    (ev : List (Event n Op)) (hle : k' ≤ k) : Fresh (ev ++ tr) k' index term := by
  rcases h with hlt | ⟨r, hr, hterm⟩
  · exact Or.inl (hle.trans_lt hlt)
  · exact Or.inr ⟨r, appliedLog_get ev hr, hterm⟩

/-- The entry is in the sequence. -/
theorem Fresh.lt {tr : List (Event n Op)} {k index term : ℕ} (h : Fresh tr k index term)
    {r : LogRecord Op} (hr : (appliedLog tr)[index - 1]? = some r) (hterm : r.term = term) :
    k < index := by
  rcases h with hlt | ⟨r', hr', hne⟩
  · exact hlt
  · rw [Option.some.inj (hr.symm.trans hr')] at hterm
    exact absurd hterm hne

/-- A leader makes new entries behind the sequence; an entry of a leader that has fallen back does
not get into it. -/
theorem System.Orderly.fresh [RaftGob Op] {s : System n Op}
    (h : Reach System.step System.Orderly System.init s)
    {p q : Fin n} {c : Cause n Op} {e : Effect n Op} (hdoes : Does (s.peers p) c e) {index term : ℕ}
    {op : Op} (hx : .accepted q index term op ∈ e.events) :
    Fresh s.trace (appliedLog s.trace).length index term := by
  obtain ⟨-, hfree, hrole, rfl, rfl, -⟩ := hdoes.accepted_spec hx
  rcases Nat.lt_or_ge (appliedLog s.trace).length (s.peers p).rf.log.size with hlt | hge
  · exact Or.inl hlt
  · have hpos := System.Orderly.lastHanded_lt_size h hfree
    have hlt : (s.peers p).rf.log.size - 1 < (appliedLog s.trace).length := by omega
    refine Or.inr ⟨_, List.getElem?_eq_getElem hlt, fun hterm => ?_⟩
    obtain ⟨q', command, hmem, -⟩ :=
      System.Orderly.accepted_of_applied h (List.getElem?_eq_getElem hlt)
    rw [hterm, Nat.sub_add_cancel (by omega)] at hmem
    exact System.Orderly.fresh_index h hrole q' command hmem

/-! ## What a step of the servers is to their callers -/

/-- Handlers keep their places and requests, and get indices from `Start` only. -/
structure Moved (p : Fin n) (ev : List (Event n Op)) (handlers handlers' : List Handler) :
    Prop where
  length : handlers'.length = handlers.length
  handler : ∀ (j : ℕ) x', handlers'[j]? = some x' → ∃ x, handlers[j]? = some x ∧
    x'.request = x.request ∧ ∀ i T, x'.start? = some (i, T) →
      x.start? = some (i, T) ∨ ∃ op, .accepted p i T op ∈ ev

theorem Moved.refl (p : Fin n) (ev : List (Event n Op)) (handlers : List Handler) :
    Moved p ev handlers handlers :=
  ⟨rfl, fun _ x hx => ⟨x, hx, rfl, fun _ _ hstart => Or.inl hstart⟩⟩

theorem Moved.set {p : Fin n} {ev : List (Event n Op)} {handlers : List Handler} {j : ℕ}
    {x : Handler} (hj : handlers[j]? = some x) {stage : Stage}
    (hstart : ∀ i T, Handler.start? { x with stage } = some (i, T) →
      x.start? = some (i, T) ∨ ∃ op, .accepted p i T op ∈ ev) :
    Moved p ev handlers (handlers.set j { x with stage }) := by
  refine ⟨List.length_set .., fun k y hy => ?_⟩
  by_cases hk : j = k
  · subst hk
    rw [List.getElem?_set_self (List.getElem?_eq_some_iff.mp hj).1] at hy
    obtain rfl := Option.some.inj hy
    exact ⟨x, hj, rfl, hstart⟩
  · rw [List.getElem?_set_ne hk] at hy
    exact ⟨y, hy, rfl, fun _ _ hstart => Or.inl hstart⟩

namespace Serving

/-- What a step is to the handlers, unless it is a call. Whoever hands in a command is one of them,
and the entry is a new one. -/
structure Frame (s s' : Serving n) (ev : List (Event n Op)) : Prop where
  trace : s'.deployment.raft.trace = ev ++ s.deployment.raft.trace
  accepted : ∀ q i T op, .accepted q i T op ∈ ev →
    (∃ x ∈ s.handlers q, x.request.op? = some op) ∧
      Fresh s.deployment.raft.trace (appliedLog s.deployment.raft.trace).length i T
  handlers : ∀ p,
    (s'.deployment.raft.peers p).incarnation = (s.deployment.raft.peers p).incarnation ∧
        Moved p ev (s.handlers p) (s'.handlers p) ∨
      (s'.deployment.raft.peers p).incarnation ≠ (s.deployment.raft.peers p).incarnation ∧
        s'.handlers p = []

variable {s s' : Serving n} {p : Fin n}

theorem Frame.refl (s : Serving n) : s.Frame s [] :=
  ⟨rfl, fun _ _ _ _ hx => (by cases hx), fun p => Or.inl ⟨rfl, .refl p [] _⟩⟩

/-- The server moves without its handlers. -/
theorem Frame.setSite (s : Serving n) (p : Fin n) (site : Site) :
    s.Frame (s.follow (s.deployment.setSite p site)) [] := by
  rw [follow_setSite]
  exact ⟨rfl, fun _ _ _ _ hx => (by cases hx), fun q => Or.inl ⟨rfl, .refl q [] _⟩⟩

/-- A peer moves. -/
theorem Frame.install [RaftGob Op] (net : List (Packet n Op)) {c : Cause n Op} {e : Effect n Op}
    (hrun : Reach System.step System.Orderly System.init s.deployment.raft)
    (hstep : (s.deployment.raft.peers p).step c = some e)
    (hstart : ∀ op, c = .own (.start op) → ∃ x ∈ s.handlers p, x.request.op? = some op)
    (site : Site) :
    s.Frame (s.follow (s.deployment.install p net e site)) e.events := by
  have hdoes := Peer.does_of_step hstep
  refine ⟨System.install_trace .., fun q i T op hx => ⟨?_, System.Orderly.fresh hrun hdoes hx⟩,
    fun q => ?_⟩
  · obtain ⟨hc, -⟩ := hdoes.accepted_spec hx
    obtain rfl : q = p :=
      (hdoes.peer_of_mem hx).trans ((System.Reachable.of_reach hrun).me p)
    exact hstart op hc
  · by_cases hinc :
      ((s.follow (s.deployment.install p net e site)).deployment.raft.peers q).incarnation =
        (s.deployment.raft.peers q).incarnation
    · refine Or.inl ⟨hinc, ?_⟩
      rw [show (s.follow (s.deployment.install p net e site)).handlers q = s.handlers q from
        if_pos hinc]
      exact .refl q _ _
    · exact Or.inr ⟨hinc, if_neg hinc⟩

/-- A handler moves on after that. -/
theorem Frame.setStage {ev : List (Event n Op)} (h : s.Frame s' ev) {j : ℕ} {x : Handler}
    (hj : (s.handlers p)[j]? = some x) (hsame : s'.handlers p = s.handlers p) {stage : Stage}
    (hstart : ∀ i T, Handler.start? { x with stage } = some (i, T) →
      x.start? = some (i, T) ∨ ∃ op, .accepted p i T op ∈ ev) :
    s.Frame (s'.setStage p j x stage) ev := by
  refine ⟨h.trace, h.accepted, fun q => ?_⟩
  by_cases hq : q = p
  · subst hq
    have hinc : (s'.deployment.raft.peers q).incarnation =
        (s.deployment.raft.peers q).incarnation := by
      rcases h.handlers q with ⟨hinc, -⟩ | ⟨-, hnil⟩
      · exact hinc
      · rw [← hsame, hnil] at hj
        cases hj
    refine Or.inl ⟨hinc, ?_⟩
    simp only [Serving.setStage, Function.update_self, hsame]
    exact .set hj hstart
  · simp only [Serving.setStage, Function.update_of_ne hq]
    exact h.handlers q

section Step

variable [RaftGob Op] [KVGob]

/-- A step of `applyTask` is nothing to the handlers, or takes them along. -/
theorem frame_of_task (h : s.RepliesOk) {d : Deployment n} (hstep : TaskStep s.deployment p d) :
    ∃ ev, s.Frame (s.follow d) ev := by
  cases hstep with
  | takenUp | asked | unasked | notified | measured => exact ⟨[], .setSite s p _⟩
  | panicked htask htake =>
    obtain ⟨kv', task', htake', -⟩ := (h.replicas.sites p).takeUp htask
    cases htake.symm.trans htake'
  | compacted _ hstep _ =>
    exact ⟨_, .install _ h.replicas.run hstep (fun op hc => by cases hc) _⟩

/-- `Start` makes the entry that it gives the handler the index of. -/
theorem frame_of_start (h : s.RepliesOk) {j : ℕ} {request : Request}
    (hj : (s.handlers p)[j]? = some ⟨request, .starting⟩) {op : Op} {rf : Raft n Op}
    {index term : ℕ} {isLeader : Bool} (hop : request.op? = some op)
    (hstart : (s.deployment.raft.peers p).rf.start op = (rf, index, term, isLeader))
    {d : Deployment n} (hstep : s.deployment.step (.raft (.act p (.start op))) = some d)
    {stage : Stage} (hstage : ∀ i T, Handler.start? ⟨request, stage⟩ = some (i, T) →
      isLeader = true ∧ i = index ∧ T = term) :
    ∃ ev, s.Frame ((s.follow d).setStage p j ⟨request, .starting⟩ stage) ev := by
  obtain ⟨e, he, hmap⟩ := Option.bind_eq_some_iff.mp hstep
  obtain ⟨site, hfollow, rfl⟩ := Option.map_eq_some_iff.mp hmap
  have hmem := List.mem_of_getElem? hj
  have hframe := Frame.install (s.deployment.raft.inFlight (.act p (.start op))) h.replicas.run he
    (fun op' hc => ⟨_, hmem, by cases hc; exact hop⟩) site
  obtain ⟨-, heffect⟩ := Peer.step_start he hstart
  have hinc : e.peer.incarnation = (s.deployment.raft.peers p).incarnation := by rw [heffect]
  refine ⟨e.events, hframe.setStage hj ?_ fun i T hit => Or.inr ⟨op, ?_⟩⟩
  · rw [follow_install_self, if_pos hinc]
  · obtain ⟨rfl, rfl, rfl⟩ := hstage i T hit
    have hnew : .accepted rf.me i T op ∈ e.events := by simp [heffect]
    rwa [show rf.me = p from ((Peer.does_of_step he).peer_of_mem hnew).trans
      ((System.Reachable.of_reach h.replicas.run).me p)] at hnew

/-- A step of a handler. -/
theorem frame_of_run (h : s.RepliesOk) {j : ℕ} (hstep : s.step (.run p j) = some s') :
    ∃ ev, s.Frame s' ev := by
  obtain ⟨x, hj, ⟨stage, hnext, rfl⟩ | ⟨m, stage, d, hnext, hm, rfl⟩⟩ := step_run hstep
  · cases Handler.goes_of_next hnext with
    | duplicate | fresh => exact ⟨[], (Frame.refl s).setStage hj rfl nofun⟩
  · have hsite : ∀ site, (s.follow (s.deployment.setSite p site)).handlers p = s.handlers p := by
      intro site
      rw [follow_setSite]
    cases Handler.goes_of_next hnext with
    | @accepted request op rf index term hop hstart =>
      refine frame_of_start h hj hop hstart hm fun i T hit => ?_
      obtain ⟨rfl, rfl⟩ := Prod.mk.inj (Option.some.inj hit)
      exact ⟨rfl, rfl, rfl⟩
    | refused hop hstart => exact frame_of_start h hj hop hstart hm nofun
    | registered =>
      rw [Deployment.step_getNotifyChannel hm]
      exact ⟨[], (Frame.setSite s p _).setStage hj (hsite _) fun i T hit => Or.inl hit⟩
    | received =>
      rw [Deployment.step_takeReply hm]
      exact ⟨[], (Frame.setSite s p _).setStage hj (hsite _) fun i T hit => Or.inl hit⟩
    | cleaned =>
      rw [Deployment.step_removeNotifyChannel hm]
      exact ⟨[], (Frame.setSite s p _).setStage hj (hsite _) fun i T hit => Or.inl hit⟩

/-- Every step but a call. -/
theorem frame_of_step {move : ServingMove n} (h : s.RepliesOk)
    (hcall : ∀ p request, move ≠ .call p request) (hstep : s.step move = some s') :
    ∃ ev, s.Frame s' ev := by
  cases move with
  | raft a =>
    simp only [step] at hstep
    split at hstep
    case h_1 => cases hstep
    case h_2 hstart =>
      obtain ⟨d, hd, rfl⟩ := Option.map_eq_some_iff.mp hstep
      obtain ⟨q, c, htarget, ⟨-, he, -, -⟩⟩ := Deployment.step_raft hd
      -- only handlers call `Start`
      refine ⟨_, .install _ h.replicas.run he (fun op hc => ?_) _⟩
      subst hc
      exact absurd (System.act_of_target htarget) (hstart q op)
  | task p =>
    obtain ⟨d, hd, rfl⟩ := Option.map_eq_some_iff.mp hstep
    exact frame_of_task h (Deployment.taskStep_cases hd)
  | call p request => exact absurd rfl (hcall p request)
  | run p j => exact frame_of_run h hstep
  | timeout p j =>
    obtain ⟨request, index, term, ch, hj, rfl⟩ := step_timeout hstep
    exact ⟨[], (Frame.refl s).setStage hj rfl fun i T hit => Or.inl hit⟩

end Step

end Serving

/-! ## Keeping the books -/

/-- What is remembered of a run: the ledger, for every `Call` which operation of which client it was
made for, and for every recorded operation which one it is. -/
structure Books (m : ℕ) extends Ledger m where
  issuer : ℕ → Option (Fin m × ℕ)
  items : List (Ledger.Item m)

namespace Books

variable {B B' : Books m} {calls calls' id : ℕ} {t : Ticket}

/-- The `Call` with this channel is one of the first `calls`, and was made for the operation `t`. -/
def Issued (B : Books m) (calls id : ℕ) (t : Ticket) : Prop :=
  id < calls ∧ ∃ c k, B.issuer id = some (c, k) ∧ (B.tickets c)[k]? = some t

/-- Tickets stay, and so do the issuers of the first `calls`. -/
structure Le (calls : ℕ) (B B' : Books m) : Prop where
  tickets : ∀ c, B.tickets c <+: B'.tickets c
  issuer : ∀ id < calls, B'.issuer id = B.issuer id

theorem Le.refl (calls : ℕ) (B : Books m) : Le calls B B :=
  ⟨fun _ => List.prefix_refl _, fun _ _ => rfl⟩

theorem Issued.mono (h : B.Issued calls id t) (hle : Le calls B B') (hcalls : calls ≤ calls') :
    B'.Issued calls' id t := by
  obtain ⟨hid, c, k, hissuer, ht⟩ := h
  exact ⟨hid.trans_le hcalls, c, k, (hle.issuer id hid).trans hissuer,
    getElem?_of_grown (hle.tickets c) ht⟩

theorem Issued.mem (h : B.Issued calls id t) : ∃ c, t ∈ B.tickets c := by
  obtain ⟨-, c, k, -, ht⟩ := h
  exact ⟨c, List.mem_of_getElem? ht⟩

end Books

/-! ## Servers -/

section Servers

variable [RaftGob Op] [KVGob] {s s' : Serving n} {callers : Fin n → List Caller} {calls calls' : ℕ}
  {B B' : Books m}

/-- Handlers work for the operations they were called for, and what leaders have accepted are
commands of operations; their entries come after the operation was asked for. -/
structure ServersOk (s : Serving n) (callers : Fin n → List Caller) (calls : ℕ) (B : Books m) :
    Prop where
  replies : s.RepliesOk
  submitted : ∀ q i T op, .accepted q i T op ∈ s.deployment.raft.trace → op.isWrite = true →
    ∃ c, ∃ t ∈ B.tickets c, t.command = op ∧ Fresh s.deployment.raft.trace t.floor i T
  length : ∀ p, (callers p).length = (s.handlers p).length
  handlers : ∀ p (j : ℕ) x caller, (s.handlers p)[j]? = some x → (callers p)[j]? = some caller →
    ∃ t, B.Issued calls caller.id t ∧ x.request = t.request ∧
      ∀ i T, x.start? = some (i, T) → Fresh s.deployment.raft.trace t.floor i T
  floors : ∀ c, ∀ t ∈ B.tickets c, t.floor ≤ (appliedOps s.deployment.raft.trace).length

namespace ServersOk

/-- Every write in the sequence was asked for before. -/
theorem asked (h : ServersOk s callers calls B) {i : ℕ} {op : Op}
    (hop : (appliedOps s.deployment.raft.trace)[i]? = some op) (hw : op.isWrite = true) :
    ∃ c, ∃ t ∈ B.tickets c, t.command = op ∧ t.floor ≤ i := by
  have hrun := h.replies.replicas.run
  rw [System.Orderly.appliedOps_get hrun, Option.bind_eq_some_iff] at hop
  obtain ⟨r, hr, hcommand⟩ := hop
  obtain ⟨q, op', hmem, hop'⟩ := System.Orderly.accepted_of_applied hrun hr
  obtain rfl := Option.some.inj (hcommand.symm.trans hop')
  obtain ⟨c, t, ht, hcommand, hfresh⟩ := h.submitted q _ _ op hmem hw
  exact ⟨c, t, ht, hcommand, Nat.lt_succ_iff.mp (hfresh.lt hr rfl)⟩

/-- New tickets and calls. -/
theorem mono (h : ServersOk s callers calls B) (hle : Books.Le calls B B') (hcalls : calls ≤ calls')
    (hfloors : ∀ c, ∀ t ∈ B'.tickets c, t.floor ≤ (appliedOps s.deployment.raft.trace).length) :
    ServersOk s callers calls' B' where
  replies := h.replies
  submitted q i T op hmem hw := by
    obtain ⟨c, t, ht, hrest⟩ := h.submitted q i T op hmem hw
    exact ⟨c, t, (hle.tickets c).subset ht, hrest⟩
  length := h.length
  handlers p j x caller hx hcaller := by
    obtain ⟨t, hissued, hrest⟩ := h.handlers p j x caller hx hcaller
    exact ⟨t, hissued.mono hle hcalls, hrest⟩
  floors := hfloors

/-- The caller of a handler. -/
theorem exists_caller (h : ServersOk s callers calls B) {p : Fin n} {j : ℕ} {x : Handler}
    (hx : (s.handlers p)[j]? = some x) : ∃ caller, (callers p)[j]? = some caller := by
  have hlt := (List.getElem?_eq_some_iff.mp hx).1
  exact ⟨_, List.getElem?_eq_getElem (h.length p ▸ hlt)⟩

/-- A step of the servers. -/
theorem frame (h : ServersOk s callers calls B) {ev : List (Event n Op)} (hframe : s.Frame s' ev)
    (hreplies : s'.RepliesOk) :
    ServersOk s' (fun p => if (s'.deployment.raft.peers p).incarnation =
      (s.deployment.raft.peers p).incarnation then callers p else []) calls B := by
  have hpre : appliedOps s.deployment.raft.trace <+: appliedOps s'.deployment.raft.trace := by
    rw [hframe.trace]
    exact appliedOps_grows _ _
  -- what is accepted now comes after everything that was asked for
  have hnew : ∀ q i T op, .accepted q i T op ∈ ev → ∀ c, ∀ t ∈ B.tickets c,
      Fresh s'.deployment.raft.trace t.floor i T := by
    intro q i T op hmem c t ht
    have hfloor := h.floors c t ht
    rw [System.Orderly.length_appliedOps h.replies.replicas.run] at hfloor
    rw [hframe.trace]
    exact (hframe.accepted q i T op hmem).2.mono ev hfloor
  have hold : ∀ k i T, Fresh s.deployment.raft.trace k i T →
      Fresh s'.deployment.raft.trace k i T := by
    intro k i T hfresh
    rw [hframe.trace]
    exact hfresh.mono ev (Nat.le_refl k)
  refine ⟨hreplies, fun q i T op hmem hw => ?_, fun p => ?_, fun p j x' caller hx' hcaller => ?_,
    fun c t ht => (h.floors c t ht).trans hpre.length_le⟩
  · rw [hframe.trace] at hmem
    rcases List.mem_append.mp hmem with hmem | hmem
    · obtain ⟨⟨x, hx, hop⟩, -⟩ := hframe.accepted q i T op hmem
      obtain ⟨j, hj⟩ := List.mem_iff_getElem?.mp hx
      obtain ⟨caller, hcaller⟩ := h.exists_caller hj
      obtain ⟨t, hissued, hrequest, -⟩ := h.handlers q j x caller hj hcaller
      obtain ⟨c, ht⟩ := hissued.mem
      rw [hrequest, t.op?_request] at hop
      exact ⟨c, t, ht, Option.some.inj hop, hnew q i T op hmem c t ht⟩
    · obtain ⟨c, t, ht, hcommand, hfresh⟩ := h.submitted q i T op hmem hw
      exact ⟨c, t, ht, hcommand, hold _ _ _ hfresh⟩
  · rcases hframe.handlers p with ⟨hinc, hmoved⟩ | ⟨hinc, hnil⟩
    · rw [if_pos hinc, hmoved.length, h.length p]
    · rw [if_neg hinc, hnil]
      rfl
  · rcases hframe.handlers p with ⟨hinc, hmoved⟩ | ⟨-, hnil⟩
    · rw [if_pos hinc] at hcaller
      obtain ⟨x, hx, hrequest, hstart⟩ := hmoved.handler j x' hx'
      obtain ⟨t, hissued, hsame, hfresh⟩ := h.handlers p j x caller hx hcaller
      refine ⟨t, hissued, hrequest.trans hsame, fun i T hit => ?_⟩
      rcases hstart i T hit with hit | ⟨op, hmem⟩
      · exact hold _ _ _ (hfresh i T hit)
      · obtain ⟨c, ht⟩ := hissued.mem
        exact hnew p i T op hmem c t ht
    · rw [hnil] at hx'
      cases hx'

/-- A request is delivered. -/
theorem called (h : ServersOk s callers calls B) {p : Fin n} {id : ℕ} {t : Ticket}
    (hissued : B.Issued calls id t) (hstep : s.step (.call p t.request) = some s') :
    ServersOk s' (Function.update callers p (callers p ++ [{ id := id }])) calls B := by
  have hreplies := h.replies.step (m := .call p t.request) ⟨trivial, trivial⟩ hstep
  obtain rfl := Option.some.inj hstep
  refine ⟨hreplies, h.submitted, fun q => ?_, fun q j x caller hx hcaller => ?_, h.floors⟩
  · by_cases hq : q = p
    · subst hq
      simp only [Function.update_self, List.length_append, h.length q, List.length_singleton]
    · simp only [Function.update_of_ne hq, h.length q]
  · by_cases hq : q = p
    · subst hq
      simp only [Function.update_self] at hx hcaller
      rcases getElem?_concat_cases hx with hold | ⟨rfl, rfl⟩
      · rw [List.getElem?_append_left (h.length q ▸ (List.getElem?_eq_some_iff.mp hold).1)]
          at hcaller
        exact h.handlers q j x caller hold hcaller
      · rw [← h.length q, List.getElem?_concat_length] at hcaller
        obtain rfl := Option.some.inj hcaller
        refine ⟨t, hissued, rfl, fun i T hit => ?_⟩
        cases hrequest : t.request <;> rw [hrequest] at hit <;> cases hit
    · simp only [Function.update_of_ne hq] at hx hcaller
      exact h.handlers q j x caller hx hcaller

/-- A handler has returned. -/
theorem answered (h : ServersOk s callers calls B) {p : Fin n} {j id : ℕ} {answered : Bool}
    (hj : (callers p)[j]? = some ⟨id, answered⟩) :
    ServersOk s (Function.update callers p ((callers p).set j ⟨id, true⟩)) calls B := by
  refine ⟨h.replies, h.submitted, fun q => ?_, fun q k x caller hx hcaller => ?_, h.floors⟩
  · by_cases hq : q = p
    · subst hq
      rw [Function.update_self, List.length_set, h.length q]
    · rw [Function.update_of_ne hq, h.length q]
  · by_cases hq : q = p
    · subst hq
      rw [Function.update_self] at hcaller
      by_cases hk : j = k
      · subst hk
        rw [List.getElem?_set_self (List.getElem?_eq_some_iff.mp hj).1] at hcaller
        obtain rfl := Option.some.inj hcaller
        exact h.handlers q j x ⟨id, answered⟩ hx hj
      · rw [List.getElem?_set_ne hk] at hcaller
        exact h.handlers q k x caller hx hcaller
    · rw [Function.update_of_ne hq] at hcaller
      exact h.handlers q k x caller hx hcaller

end ServersOk

/-! ## Replies -/

/-- A reply says that the request failed, or comes from a command of the operation. If it is a read,
the command was executed after it was asked for and the reply is what was there. -/
def ReplyOk (ops : List Op) (t : Ticket) (reply : OpReply) : Prop :=
  reply.err = .errWrongLeader ∨ reply.err = .errTimeout ∨
    ∃ i : ℕ, ops[i]? = some t.command ∧ (t.isWrite = false → t.floor ≤ i) ∧
      ∀ key, t.op = .get key → reply.value = (Store.replay (ops.take i)).values key

omit [RaftGob Op] [KVGob] in
theorem ReplyOk.mono {ops ops' : List Op} {t : Ticket} {reply : OpReply} (h : ReplyOk ops t reply)
    (hpre : ops <+: ops') : ReplyOk ops' t reply := by
  refine h.imp_right (Or.imp_right ?_)
  rintro ⟨i, hi, hfloor, hvalue⟩
  refine ⟨i, getElem?_of_grown hpre hi, hfloor, fun key hkey => ?_⟩
  rw [take_of_grown hpre (List.getElem?_eq_some_iff.mp hi).1.le]
  exact hvalue key hkey

/-- What handlers reply. -/
theorem ServersOk.replyOk {ids : Fin m → ℤ} (hids : Function.Injective ids)
    (h : ServersOk s callers calls B) (hledger : B.Ok ids (appliedOps s.deployment.raft.trace))
    {p : Fin n} {j : ℕ} {x : Handler} {caller : Caller} (hx : (s.handlers p)[j]? = some x)
    (hcaller : (callers p)[j]? = some caller) {start : Option (ℕ × ℕ)} {reply : OpReply}
    {cleanup : Bool} (hstage : x.stage = .replied start reply cleanup) :
    ∃ t, B.Issued calls caller.id t ∧ ReplyOk (appliedOps s.deployment.raft.trace) t reply := by
  obtain ⟨t, hissued, hrequest, hfresh⟩ := h.handlers p j x caller hx hcaller
  refine ⟨t, hissued, ?_⟩
  have hp := h.replies.replies p
  have hmem := List.mem_of_getElem? hx
  have hhonest := hp.honest x hmem
  have hpre := handedOps_grows p s.deployment.raft.trace
  rw [hstage] at hhonest
  match start with
  | none =>
    refine hhonest.imp_right fun hdup => Or.inr ?_
    -- the duplicate table knows the operation itself
    obtain ⟨args, hargs, k, ⟨op, hop, hclient, rfl⟩, hle⟩ := hdup
    obtain ⟨hw, hclient', hseq'⟩ := ClientOp.ids_request (hrequest.symm.trans hargs)
    obtain ⟨hid, hnumber⟩ := ClientOp.ids_command hw t.clientId t.seqId
    obtain ⟨hop, hwop⟩ := List.mem_filter.mp hop
    obtain ⟨i, hi⟩ := List.mem_iff_getElem?.mp (hpre.subset hop)
    obtain ⟨-, c, number, -, ht⟩ := hissued
    obtain ⟨k, -, hcopy⟩ := hledger.executed hids ht hw hi hwop
      (hclient.trans (hclient'.trans hid.symm)) (hnumber.trans_le (hseq'.symm.trans_le hle))
    refine ⟨k, hcopy, fun hread => ?_, fun key hkey => ?_⟩
    · cases hread.symm.trans hw
    · rw [hkey] at hw
      cases hw
  | some (index, term) =>
    by_cases herr : reply.err = .errTimeout
    · exact Or.inr (Or.inl herr)
    refine Or.inr (Or.inr ?_)
    obtain ⟨op, opReply, hop, hanswer, rfl⟩ := hhonest.resolve_left herr
    rw [hrequest, t.op?_request] at hop
    obtain rfl := Option.some.inj hop
    obtain ⟨r, hr, hterm⟩ := hp.settled x hmem index term _ cleanup hstage herr
    have hlt := (hfresh index term (by rw [Handler.start?, hstage])).lt hr hterm
    obtain ⟨k, rfl, hget, rfl⟩ := hanswer.mono hpre
    refine ⟨k, hget, fun _ => Nat.lt_succ_iff.mp hlt, fun key hkey => ?_⟩
    rw [hrequest, Ticket.request, Ticket.command, hkey, Store.applyOp_get _ rfl]
    rfl

end Servers

/-- Whatever is on its way belongs to an operation. -/
structure MailOk (requests : List (Rpc n)) (replies : List (ℕ × OpReply)) (ops : List Op)
    (calls : ℕ) (B : Books m) : Prop where
  requests : ∀ rpc ∈ requests, ∃ t, B.Issued calls rpc.id t ∧ rpc.request = t.request
  replies : ∀ y ∈ replies, ∃ t, B.Issued calls y.1 t ∧ ReplyOk ops t y.2

theorem MailOk.mono {requests : List (Rpc n)} {replies : List (ℕ × OpReply)} {ops ops' : List Op}
    {calls calls' : ℕ} {B B' : Books m} (h : MailOk requests replies ops calls B)
    (hle : Books.Le calls B B') (hcalls : calls ≤ calls') (hpre : ops <+: ops') :
    MailOk requests replies ops' calls' B' where
  requests rpc hrpc := by
    obtain ⟨t, hissued, hrequest⟩ := h.requests rpc hrpc
    exact ⟨t, hissued.mono hle hcalls, hrequest⟩
  replies y hy := by
    obtain ⟨t, hissued, hreply⟩ := h.replies y hy
    exact ⟨t, hissued.mono hle hcalls, hreply.mono hpre⟩

/-! ## Clients -/

section Clients

variable {B B' : Books m} {calls calls' : ℕ} {c : Fin m}

/-- Client `c` waits for the operation `t`. -/
def Books.Open (B : Books m) (c : Fin m) (t : Ticket) : Prop :=
  (B.tickets c).length = (B.receipts c).length + 1 ∧ (B.tickets c)[(B.receipts c).length]? = some t

/-- The last operation of client `c` is `t`, with the answer `r`. -/
def Books.Closed (B : Books m) (c : Fin m) (t : Ticket) (r : Receipt) : Prop :=
  ∃ k, (B.tickets c).length = k + 1 ∧ (B.receipts c).length = k + 1 ∧
    (B.tickets c)[k]? = some t ∧ (B.receipts c)[k]? = some r

/-- Where a client stands, and what the books say. -/
inductive PhaseOk (B : Books m) (calls : ℕ) (seqId : ℤ) (c : Fin m) : Phase → Prop
  | idle (hlen : (B.tickets c).length = (B.receipts c).length) : PhaseOk B calls seqId c .idle
  | looping {t : Ticket} (hopen : B.Open c t) (hseq : t.seqId = seqId) :
      PhaseOk B calls seqId c (.looping t.op t.request t.call)
  | calling {t : Ticket} {id : ℕ} (hopen : B.Open c t) (hseq : t.seqId = seqId) (hid : id < calls)
      (hissuer : B.issuer id = some (c, (B.receipts c).length)) :
      PhaseOk B calls seqId c (.calling t.op t.request t.call id)
  | returned {t : Ticket} {r : Receipt} (hclosed : B.Closed c t r) :
      PhaseOk B calls seqId c (.returned t.op t.call r.value)
  | ended {t : Ticket} {r : Receipt} {ret : ℤ} (hclosed : B.Closed c t r) (hret : r.time ≤ ret) :
      PhaseOk B calls seqId c (.ended t.op t.call r.value ret)

/-- A clerk numbers its writes one after the other, and the next write gets a number above all those
that are over. -/
structure ClientOk (B : Books m) (calls : ℕ) (c : Fin m) (id : ℤ) (ck : Clerk n) (phase : Phase) :
    Prop where
  clientId : ck.clientId = id
  behind : ∀ (k : ℕ) t, k < (B.receipts c).length → (B.tickets c)[k]? = some t → t.isWrite = true →
    t.seqId < ck.seqId
  phase : PhaseOk B calls ck.seqId c phase

/-- Nothing new for this client. -/
theorem ClientOk.congr {id : ℤ} {ck : Clerk n} {phase : Phase} (h : ClientOk B calls c id ck phase)
    (htickets : B'.tickets c = B.tickets c) (hreceipts : B'.receipts c = B.receipts c)
    (hissuer : ∀ id < calls, B'.issuer id = B.issuer id) (hcalls : calls ≤ calls') :
    ClientOk B' calls' c id ck phase := by
  have hopen : ∀ {t}, B.Open c t → B'.Open c t := by
    intro t hopen
    rwa [Books.Open, htickets, hreceipts]
  have hclosed : ∀ {t r}, B.Closed c t r → B'.Closed c t r := by
    intro t r hclosed
    rwa [Books.Closed, htickets, hreceipts]
  refine ⟨h.clientId, by rw [htickets, hreceipts]; exact h.behind, ?_⟩
  cases h.phase with
  | idle hlen => exact .idle (by rw [htickets, hreceipts, hlen])
  | looping ht hseq => exact .looping (hopen ht) hseq
  | calling ht hseq hid hid' =>
    refine .calling (hopen ht) hseq (hid.trans_le hcalls) ?_
    rw [hissuer _ hid, hid', hreceipts]
  | returned ht => exact .returned (hclosed ht)
  | ended ht hret => exact .ended (hclosed ht) hret

/-- Only the accounts of client `c` have changed. -/
structure Books.Only (c : Fin m) (calls : ℕ) (B B' : Books m) : Prop where
  tickets : ∀ c' ≠ c, B'.tickets c' = B.tickets c'
  receipts : ∀ c' ≠ c, B'.receipts c' = B.receipts c'
  issuer : ∀ id < calls, B'.issuer id = B.issuer id

theorem Books.Only.refl (c : Fin m) (calls : ℕ) (B : Books m) : Only c calls B B :=
  ⟨fun _ _ => rfl, fun _ _ => rfl, fun _ _ => rfl⟩

/-- A step of client `c`. -/
theorem ClientOk.update {ids : Fin m → ℤ} {clerks : Fin m → Clerk n} {phases : Fin m → Phase}
    (h : ∀ c', ClientOk B calls c' (ids c') (clerks c') (phases c'))
    (honly : Books.Only c calls B B') (hcalls : calls ≤ calls') {ck : Clerk n} {phase : Phase}
    (hc : ClientOk B' calls' c (ids c) ck phase) (c' : Fin m) :
    ClientOk B' calls' c' (ids c') (Function.update clerks c ck c')
      (Function.update phases c phase c') := by
  by_cases hne : c' = c
  · subst hne
    rwa [Function.update_self, Function.update_self]
  · rw [Function.update_of_ne hne, Function.update_of_ne hne]
    exact (h c').congr (honly.tickets c' hne) (honly.receipts c' hne) honly.issuer hcalls

/-- A step of client `c` outside its clerk. -/
theorem ClientOk.setPhase {ids : Fin m → ℤ} {clerks : Fin m → Clerk n} {phases : Fin m → Phase}
    (h : ∀ c', ClientOk B calls c' (ids c') (clerks c') (phases c'))
    (honly : Books.Only c calls B B') (hcalls : calls ≤ calls') {phase : Phase}
    (hc : ClientOk B' calls' c (ids c) (clerks c) phase) (c' : Fin m) :
    ClientOk B' calls' c' (ids c') (clerks c') (Function.update phases c phase c') := by
  have hupdate := ClientOk.update h honly hcalls hc c'
  rwa [Function.update_eq_self] at hupdate

/-- How many operations of a client have been recorded. -/
def Books.recorded (B : Books m) (c : Fin m) : Phase → ℕ
  | .returned .. | .ended .. => (B.receipts c).length - 1
  | _ => (B.receipts c).length

theorem Books.recorded_update {phases : Fin m → Phase} {phase : Phase} (honly : Only c calls B B')
    (hc : B'.recorded c phase = B.recorded c (phases c)) (c' : Fin m) :
    B'.recorded c' (Function.update phases c phase c') = B.recorded c' (phases c') := by
  by_cases hne : c' = c
  · subst hne
    rwa [Function.update_self]
  · rw [Function.update_of_ne hne]
    unfold recorded
    rw [honly.receipts c' hne]

/-- The recorded operations are those of the ledger that are over. -/
structure ItemsOk (operations : List KvOperation) (phases : Fin m → Phase) (B : Books m) :
    Prop where
  operations : operations = B.items.map Ledger.Item.operation
  nodup : (B.items.map fun x => (x.client, x.number)).Nodup
  item : ∀ x ∈ B.items, x.number < B.recorded x.client (phases x.client) ∧
    (B.tickets x.client)[x.number]? = some x.ticket ∧
    ∃ r, (B.receipts x.client)[x.number]? = some r ∧ r.value = x.value ∧ r.time ≤ x.ret
  complete : ∀ c k, k < B.recorded c (phases c) → ∃ x ∈ B.items, x.client = c ∧ x.number = k

/-- Nothing new is recorded. -/
theorem ItemsOk.congr {operations : List KvOperation} {phases phases' : Fin m → Phase}
    (h : ItemsOk operations phases B) (hitems : B'.items = B.items)
    (htickets : ∀ c, B.tickets c <+: B'.tickets c) (hreceipts : ∀ c, B.receipts c <+: B'.receipts c)
    (hrecorded : ∀ c, B'.recorded c (phases' c) = B.recorded c (phases c)) :
    ItemsOk operations phases' B' := by
  refine ⟨by rw [hitems, h.operations], by rw [hitems]; exact h.nodup, fun x hx => ?_,
    fun c k hk => ?_⟩
  · rw [hitems] at hx
    obtain ⟨hlt, ht, r, hr, hrest⟩ := h.item x hx
    exact ⟨by rwa [hrecorded], getElem?_of_grown (htickets _) ht, r,
      getElem?_of_grown (hreceipts _) hr, hrest⟩
  · rw [hrecorded] at hk
    rw [hitems]
    exact h.complete c k hk

/-- The last operation of client `c` is recorded. -/
theorem ItemsOk.record {operations : List KvOperation} {phases : Fin m → Phase}
    (h : ItemsOk operations phases B) {x : Ledger.Item m} {r : Receipt}
    (hclosed : B.Closed x.client x.ticket r) (hnumber : x.number + 1 = (B.receipts x.client).length)
    (hvalue : r.value = x.value) (htime : r.time ≤ x.ret)
    (hrecorded : B.recorded x.client (phases x.client) = x.number) :
    ItemsOk (operations ++ [x.operation]) (Function.update phases x.client .idle)
      { B with items := B.items ++ [x] } := by
  have hfor : ∀ c k, k < B.recorded c (Function.update phases x.client .idle c) ↔
      k < B.recorded c (phases c) ∨ (x.client = c ∧ x.number = k) := by
    intro c k
    by_cases hc : c = x.client
    · subst hc
      have hidle : B.recorded x.client .idle = (B.receipts x.client).length := rfl
      rw [Function.update_self, hidle, hrecorded, ← hnumber]
      omega
    · rw [Function.update_of_ne hc]
      simp [Ne.symm hc]
  obtain ⟨k, hlen, hlen', ht, hr⟩ := hclosed
  obtain rfl : k = x.number := by omega
  refine ⟨by simp [h.operations], ?_, fun y hy => ?_, fun c k hk => ?_⟩
  · rw [List.map_append, List.nodup_append]
    refine ⟨h.nodup, List.nodup_singleton _, ?_⟩
    rintro _ hold _ hnew rfl
    -- its number has not been recorded yet
    obtain ⟨y, hy, hpair⟩ := List.mem_map.mp hold
    rw [List.map_singleton, List.mem_singleton] at hnew
    obtain ⟨hclient, hnumber'⟩ := Prod.mk.inj (hpair.trans hnew)
    have hlt := (h.item y hy).1
    rw [hclient, hrecorded, hnumber'] at hlt
    exact lt_irrefl _ hlt
  · rcases List.mem_append.mp hy with hold | hnew
    · obtain ⟨hlt, hrest⟩ := h.item y hold
      exact ⟨(hfor _ _).mpr (Or.inl hlt), hrest⟩
    · rw [List.mem_singleton.mp hnew]
      exact ⟨(hfor _ _).mpr (Or.inr ⟨rfl, rfl⟩), ht, r, hr, hvalue, htime⟩
  · rcases (hfor c k).mp hk with hold | ⟨rfl, rfl⟩
    · obtain ⟨y, hy, hrest⟩ := h.complete c k hold
      exact ⟨y, List.mem_append_left _ hy, hrest⟩
    · exact ⟨x, by simp, rfl, rfl⟩

end Clients

end LogicRaft
