import LogicRaft.KV.Replicas
import LogicRaft.KV.Serving

/-!
# Whose reply a handler of the cluster gets

`own_answer` is about one server above the contract of Raft. Here the contract is replaced by the
cluster itself: servers, handlers and peers run together (`Serving`), and a handler is given its
index by the `Start` of its own peer. If the services are handed one sequence, and `applyTask`
notifies only while the term of everyone who waits for the index is the current one, a handler is
answered with the result of the very entry that was made for it, at its place in this sequence
(`own_reply`).

That the entry is the handler's own, and not only one with the same command, is the point where the
term is needed: two reads of one key are the same command.
-/

namespace LogicRaft

variable {n : ℕ}

/-! ## Channels and their indices -/

/-- Every channel has an index, and a reply in it has property `P` for this index. -/
structure KVServer.Owned (owner : List ℕ) (P : ℕ → OpReply → Prop) (kv : KVServer) : Prop where
  length : owner.length = kv.chans.length
  lookup : ∀ index ch, kv.notifyChans.lookup index = some ch → owner[ch]? = some index
  full : ∀ (ch : ℕ) opReply, kv.chans[ch]? = some (some opReply) →
    ∃ index, owner[ch]? = some index ∧ P index opReply

namespace KVServer.Owned

variable {owner : List ℕ} {P Q : ℕ → OpReply → Prop} {kv kv' : KVServer} {index : ℕ}
  {opReply : OpReply}

/-- A server that has just started has no channels. -/
theorem fresh (hmap : kv.notifyChans = ∅) (hchans : kv.chans = []) : kv.Owned [] P where
  length := by rw [hchans]; rfl
  lookup index ch hch := by
    rw [hmap] at hch
    cases hch
  full ch opReply hch := by
    rw [hchans] at hch
    cases hch

theorem congr (h : kv.Owned owner P) (hPQ : ∀ i r, P i r → Q i r)
    (hmap : kv'.notifyChans = kv.notifyChans) (hchans : kv'.chans = kv.chans) :
    kv'.Owned owner Q := by
  refine ⟨by rw [hchans, h.length], by rw [hmap]; exact h.lookup, fun ch opReply hch => ?_⟩
  rw [hchans] at hch
  obtain ⟨index, howner, hP⟩ := h.full ch opReply hch
  exact ⟨index, howner, hPQ index opReply hP⟩

/-- The channel of an index is made when it is first asked for. -/
theorem getNotifyChannel (h : kv.Owned owner P) (index : ℕ) :
    ∃ owner', owner <+: owner' ∧ (kv.getNotifyChannel index).1.Owned owner' P ∧
      owner'[(kv.getNotifyChannel index).2]? = some index := by
  unfold KVServer.getNotifyChannel
  split
  case h_1 ch hch => exact ⟨owner, List.prefix_refl _, h, h.lookup index ch hch⟩
  case h_2 =>
    have hpre := List.prefix_append owner [index]
    have hnew : (owner ++ [index])[kv.chans.length]? = some index := by
      rw [← h.length, List.getElem?_concat_length]
    refine ⟨owner ++ [index], hpre, ⟨?_, fun i ch hch => ?_, fun ch opReply hch => ?_⟩, hnew⟩
    · rw [List.length_append, List.length_append, h.length]
      rfl
    · by_cases hi : i = index
      · subst hi
        obtain rfl := Option.some.inj ((Finmap.lookup_insert _).symm.trans hch)
        exact hnew
      · exact getElem?_of_grown hpre
          (h.lookup i ch ((Finmap.lookup_insert_of_ne _ hi).symm.trans hch))
    · -- the new channel is empty
      have hlt : ch < kv.chans.length := by
        by_contra hge
        rw [List.getElem?_append_right (Nat.not_lt.mp hge)] at hch
        simp [List.getElem?_singleton] at hch
      rw [List.getElem?_append_left hlt] at hch
      obtain ⟨i, howner, hP⟩ := h.full ch opReply hch
      exact ⟨i, getElem?_of_grown hpre howner, hP⟩

/-- A channel is filled with a reply for its index, or emptied. -/
theorem set (h : kv.Owned owner P) (ch : ℕ) (content : Option OpReply)
    (hcontent : ∀ opReply, content = some opReply → ∃ index, owner[ch]? = some index ∧
      P index opReply) :
    Owned owner P { kv with chans := kv.chans.set ch content } := by
  refine ⟨h.length.trans (List.length_set ..).symm, h.lookup, fun ch' opReply hch' => ?_⟩
  by_cases heq : ch = ch'
  · subst heq
    rw [List.getElem?_set_self'] at hch'
    obtain ⟨_, _, hopReply⟩ := Option.map_eq_some_iff.mp hch'
    exact hcontent opReply hopReply
  · rw [List.getElem?_set_ne heq] at hch'
    exact h.full ch' opReply hch'

theorem notify (h : kv.Owned owner P) (hP : P index opReply)
    (hsent : kv.notify true index opReply = .ok kv') :
    ∃ owner', owner <+: owner' ∧ kv'.Owned owner' P := by
  obtain ⟨owner', hpre, hok, howner⟩ := h.getNotifyChannel index
  obtain ⟨-, rfl⟩ := send_spec hsent
  refine ⟨owner', hpre, hok.set _ _ fun r hr => ?_⟩
  obtain rfl := Option.some.inj hr
  exact ⟨index, howner, hP⟩

theorem removeNotifyChannel (h : kv.Owned owner P) (index : ℕ) :
    (kv.removeNotifyChannel index).Owned owner P := by
  refine ⟨h.length, fun i ch hch => ?_, h.full⟩
  by_cases hi : i = index
  · subst hi
    exact absurd ((Finmap.lookup_erase _ _).symm.trans hch) (by simp)
  · exact h.lookup i ch ((Finmap.lookup_erase_ne hi).symm.trans hch)

end KVServer.Owned

/-! ## What a server owes its handlers -/

/-- What `Start` returned to a handler. -/
def Handler.start? (h : Handler) : Option (ℕ × ℕ) :=
  match h.stage with
  | .started index term | .waiting index term _ | .replied (some (index, term)) _ _ =>
    some (index, term)
  | _ => none

theorem Handler.start?_of_pending? {h : Handler} {x : ℕ × ℕ} (hpending : h.pending? = some x) :
    h.start? = some x := by
  unfold pending? at hpending
  unfold start?
  split at hpending
  case h_1 heq | h_2 heq =>
    rw [heq]
    exact hpending
  case h_3 => cases hpending

/-- The commands that the service of `p` was handed, those that went into a snapshot included. -/
def handedOps (p : Fin n) (tr : List (Event n Op)) : List Op :=
  (appliedOps tr).take (lastHanded p tr)

theorem handedOps_grows (p : Fin n) (tr : List (Event n Op)) : handedOps p tr <+: appliedOps tr :=
  List.take_prefix _ _

theorem handedOps_mono {p : Fin n} {ev tr : List (Event n Op)}
    (hle : lastHanded p tr ≤ lastHanded p (ev ++ tr)) : handedOps p tr <+: handedOps p (ev ++ tr) :=
  ((appliedOps_grows ev tr).take _).trans (List.take_prefix_take_left hle)

/-- `opReply` is the result of the entry at `index`, which is that of everyone who waits for it. -/
def Fills (tr : List (Event n Op)) (p : Fin n) (handlers : List Handler) (index : ℕ)
    (opReply : OpReply) : Prop :=
  ∃ op r, Answer (handedOps p tr) index op opReply ∧ (appliedLog tr)[index - 1]? = some r ∧
    ∀ x ∈ handlers, ∀ term, x.pending? = some (index, term) → x.request.op? = some op ∧
      r.term = term

namespace Fills

variable {p : Fin n} {ev tr : List (Event n Op)} {handlers handlers' : List Handler} {index : ℕ}
  {opReply : OpReply}

theorem mono (h : Fills tr p handlers index opReply)
    (hpre : handedOps p tr <+: handedOps p (ev ++ tr)) :
    Fills (ev ++ tr) p handlers index opReply := by
  obtain ⟨op, r, hanswer, hr, hall⟩ := h
  exact ⟨op, r, hanswer.mono hpre, appliedLog_get ev hr, hall⟩

/-- Those who are new to an index come before its result. -/
theorem move (h : Fills tr p handlers index opReply)
    (hpending : ∀ x ∈ handlers', ∀ term, x.pending? = some (index, term) →
      (∃ y ∈ handlers, y.pending? = some (index, term) ∧ y.request = x.request) ∨
        (handedOps p tr).length < index) : Fills tr p handlers' index opReply := by
  obtain ⟨op, r, hanswer, hr, hall⟩ := h
  refine ⟨op, r, hanswer, hr, fun x hx term hx' => ?_⟩
  rcases hpending x hx term hx' with ⟨y, hy, hy', hrequest⟩ | hlt
  · rw [← hrequest]
    exact hall y hy term hy'
  · obtain ⟨k, rfl, hop, -⟩ := hanswer
    have := (List.getElem?_eq_some_iff.mp hop).1
    omega

end Fills

theorem Task.ne_notifying_of_pending {task : Task} (h : task.pending = none) (index : ℕ)
    (opReply : OpReply) : task ≠ .notifying index opReply := by
  rintro rfl
  cases h

/-- `applyTask` asks for the leader before it notifies. -/
theorem KVServer.takeUp_ne_notifying [KVGob] {kv kv' : KVServer} {message : ApplyMsg Op}
    {task : Task} (h : kv.takeUp message = .ok (kv', task)) (index : ℕ) (opReply : OpReply) :
    task ≠ .notifying index opReply := by
  rintro rfl
  unfold takeUp at h
  split at h
  · split at h
    · cases h
    · split at h <;> cases h
  · split at h
    · split at h <;> cases h
    · cases h

/-- What holds of a server and its handlers: their indices come from `Start`, replies are honest and
those that are results belong to the entry of the handler, and so does everything on its way to a
handler. -/
structure RepliesAt (tr : List (Event n Op)) (p : Fin n) (site : Site) (handlers : List Handler) :
    Prop where
  submitted : ∀ x ∈ handlers, ∀ index term, x.start? = some (index, term) →
    ∃ op, x.request.op? = some op ∧ .accepted p index term op ∈ tr
  honest : ∀ x ∈ handlers, x.request.Honest (handedOps p tr) x.stage
  settled : ∀ x ∈ handlers, ∀ index term reply cleanup,
    x.stage = .replied (some (index, term)) reply cleanup → reply.err ≠ .errTimeout →
    ∃ r, (appliedLog tr)[index - 1]? = some r ∧ r.term = term
  chans : ∃ owner, site.kv.Owned owner (Fills tr p handlers) ∧
    ∀ x ∈ handlers, ∀ index term ch, x.stage = .waiting index term ch → owner[ch]? = some index
  notifying : ∀ index opReply, site.task = .notifying index opReply →
    Fills tr p handlers index opReply

namespace RepliesAt

variable {p : Fin n} {ev tr : List (Event n Op)} {site site' : Site} {handlers : List Handler}

/-- A server that has just started has no handlers. -/
theorem fresh (hmap : site.kv.notifyChans = ∅) (hchans : site.kv.chans = [])
    (htask : site.task = .receiving) : RepliesAt tr p site [] where
  submitted x hx := by cases hx
  honest x hx := by cases hx
  settled x hx := by cases hx
  chans := ⟨[], .fresh hmap hchans, fun x hx => by cases hx⟩
  notifying index opReply hnotifying := by
    rw [htask] at hnotifying
    cases hnotifying

theorem mono (h : RepliesAt tr p site handlers)
    (hpre : handedOps p tr <+: handedOps p (ev ++ tr)) : RepliesAt (ev ++ tr) p site handlers where
  submitted x hx index term hstart := by
    obtain ⟨op, hop, hmem⟩ := h.submitted x hx index term hstart
    exact ⟨op, hop, List.mem_append_right _ hmem⟩
  honest x hx := (h.honest x hx).mono hpre
  settled x hx index term reply cleanup hstage herr := by
    obtain ⟨r, hr, hterm⟩ := h.settled x hx index term reply cleanup hstage herr
    exact ⟨r, appliedLog_get ev hr, hterm⟩
  chans := by
    obtain ⟨owner, howned, hwaiting⟩ := h.chans
    exact ⟨owner, howned.congr (fun i r hfills => hfills.mono hpre) rfl rfl, hwaiting⟩
  notifying index opReply htask := (h.notifying index opReply htask).mono hpre

/-- The server moves on and leaves the channels as they are. -/
theorem atTask (h : RepliesAt tr p site handlers)
    (hmap : site'.kv.notifyChans = site.kv.notifyChans) (hchans : site'.kv.chans = site.kv.chans)
    (hnotifying : ∀ index opReply, site'.task = .notifying index opReply →
      Fills tr p handlers index opReply) : RepliesAt tr p site' handlers where
  submitted := h.submitted
  honest := h.honest
  settled := h.settled
  chans := by
    obtain ⟨owner, howned, hwaiting⟩ := h.chans
    exact ⟨owner, howned.congr (fun i r hfills => hfills) hmap hchans, hwaiting⟩
  notifying := hnotifying

/-- `applyTask` sends the reply. -/
theorem notified (h : RepliesAt tr p site handlers) {index : ℕ} {opReply : OpReply} {kv : KVServer}
    (htask : site.task = .notifying index opReply)
    (hsent : site.kv.notify true index opReply = .ok kv) :
    RepliesAt tr p { kv, task := kv.afterReply index } handlers where
  submitted := h.submitted
  honest := h.honest
  settled := h.settled
  chans := by
    obtain ⟨owner, howned, hwaiting⟩ := h.chans
    obtain ⟨owner', hpre, howned'⟩ := howned.notify (h.notifying index opReply htask) hsent
    exact ⟨owner', howned', fun x hx i t ch hstage =>
      getElem?_of_grown hpre (hwaiting x hx i t ch hstage)⟩
  notifying i r hnotifying :=
    absurd hnotifying (Task.ne_notifying_of_pending (kv.afterReply_pending index) i r)

/-- A handler that has not asked for anything yet. -/
theorem called (h : RepliesAt tr p site handlers) (request : Request) :
    RepliesAt tr p site (handlers ++ [⟨request, request.entry⟩]) := by
  have hnew : Handler.start? ⟨request, request.entry⟩ = none := by cases request <;> rfl
  have hcases : ∀ x ∈ handlers ++ [⟨request, request.entry⟩],
      x ∈ handlers ∨ x = ⟨request, request.entry⟩ := by simp
  have hfills : ∀ index opReply, Fills tr p handlers index opReply →
      Fills tr p (handlers ++ [⟨request, request.entry⟩]) index opReply := by
    refine fun index opReply hfills => hfills.move fun x hx term hpending => ?_
    rcases hcases x hx with hold | rfl
    · exact Or.inl ⟨x, hold, hpending, rfl⟩
    · cases hnew.symm.trans (Handler.start?_of_pending? hpending)
  refine ⟨fun x hx index term hstart => ?_, fun x hx => ?_,
    fun x hx index term reply cleanup hstage => ?_, ?_, ?_⟩
  · rcases hcases x hx with hold | rfl
    · exact h.submitted x hold index term hstart
    · cases hnew.symm.trans hstart
  · rcases hcases x hx with hold | rfl
    · exact h.honest x hold
    · cases request <;> trivial
  · rcases hcases x hx with hold | rfl
    · exact h.settled x hold index term reply cleanup hstage
    · cases request <;> cases hstage
  · obtain ⟨owner, howned, hwaiting⟩ := h.chans
    refine ⟨owner, howned.congr hfills rfl rfl, fun x hx index term ch hstage => ?_⟩
    rcases hcases x hx with hold | rfl
    · exact hwaiting x hold index term ch hstage
    · cases request <;> cases hstage
  · exact fun index opReply htask => hfills index opReply (h.notifying index opReply htask)

/-- A handler moves on. -/
theorem set (h : RepliesAt tr p site handlers) {j : ℕ} {x : Handler} (hj : handlers[j]? = some x)
    {kv : KVServer} {stage : Stage}
    (hstart : ∀ index term, Handler.start? { x with stage } = some (index, term) →
      x.start? = some (index, term) ∨ ∃ op, x.request.op? = some op ∧
      .accepted p index term op ∈ tr)
    (hpending : ∀ index term, Handler.pending? { x with stage } = some (index, term) →
      x.pending? = some (index, term) ∨ (handedOps p tr).length < index)
    (hhonest : x.request.Honest (handedOps p tr) stage)
    (hsettled : ∀ index term reply cleanup, stage = .replied (some (index, term)) reply cleanup →
      reply.err ≠ .errTimeout → ∃ r, (appliedLog tr)[index - 1]? = some r ∧ r.term = term)
    (hchans : ∀ owner, site.kv.Owned owner (Fills tr p handlers) → ∃ owner', owner <+: owner' ∧
      kv.Owned owner' (Fills tr p handlers) ∧
        ∀ index term ch, stage = .waiting index term ch → owner'[ch]? = some index) :
    RepliesAt tr p { site with kv } (handlers.set j { x with stage }) := by
  have hmem := List.mem_of_getElem? hj
  have hcases : ∀ y ∈ handlers.set j { x with stage }, y ∈ handlers ∨ y = { x with stage } :=
    fun y hy => List.mem_or_eq_of_mem_set hy
  have hfills : ∀ index opReply, Fills tr p handlers index opReply →
      Fills tr p (handlers.set j { x with stage }) index opReply := by
    refine fun index opReply hfills => hfills.move fun y hy term hy' => ?_
    rcases hcases y hy with hold | rfl
    · exact Or.inl ⟨y, hold, hy', rfl⟩
    · exact (hpending index term hy').imp_left fun hx => ⟨x, hmem, hx, rfl⟩
  refine ⟨fun y hy index term hy' => ?_, fun y hy => ?_,
    fun y hy index term reply cleanup hstage herr => ?_, ?_, ?_⟩
  · rcases hcases y hy with hold | rfl
    · exact h.submitted y hold index term hy'
    · rcases hstart index term hy' with hx | haccepted
      · exact h.submitted x hmem index term hx
      · exact haccepted
  · rcases hcases y hy with hold | rfl
    · exact h.honest y hold
    · exact hhonest
  · rcases hcases y hy with hold | rfl
    · exact h.settled y hold index term reply cleanup hstage herr
    · exact hsettled index term reply cleanup hstage herr
  · obtain ⟨owner, howned, hwaiting⟩ := h.chans
    obtain ⟨owner', hpre, howned', hwaiting'⟩ := hchans owner howned
    refine ⟨owner', howned'.congr hfills rfl rfl, fun y hy index term ch hstage => ?_⟩
    rcases hcases y hy with hold | rfl
    · exact getElem?_of_grown hpre (hwaiting y hold index term ch hstage)
    · exact hwaiting' index term ch hstage
  · exact fun index opReply htask => hfills index opReply (h.notifying index opReply htask)

end RepliesAt

/-! ## Steps of handlers -/

section Steps

variable [RaftGob Op]

/-- What `Start` returns is what it does. -/
theorem Peer.step_start {peer : Peer n Op} {e : Effect n Op} {op : Op}
    (h : peer.step (.own (.start op)) = some e) {rf : Raft n Op} {index term : ℕ} {isLeader : Bool}
    (hstart : peer.rf.start op = (rf, index, term, isLeader)) :
    peer.muFree ∧ e = { peer := { peer with rf }
                        events := if isLeader then [.accepted rf.me index term op] else [] } := by
  simp only [Peer.step, Peer.act] at h
  split at h
  case isTrue hfree =>
    simp only [Peer.actLocked, hstart] at h
    exact ⟨hfree, (Option.some.inj h).symm⟩
  case isFalse => cases h

variable [KVGob]

omit [KVGob] in
/-- Everything a step of a handler can be, with what it has found. -/
inductive Handler.Goes (d : Deployment n) (p : Fin n) : Handler → Option (Move n) → Stage → Prop
  | duplicate {args : PutAppendArgs}
      (hdup : (d.sites p).kv.requestDuplicated args.clientId args.seqId = true) :
      Goes d p ⟨.putAppend args, .called⟩ none
        (.replied none { err := ((d.sites p).kv.lastReply args.clientId).err } false)
  | fresh {args : PutAppendArgs} : Goes d p ⟨.putAppend args, .called⟩ none .starting
  | accepted {request : Request} {op : Op} {rf : Raft n Op} {index term : ℕ}
      (hop : request.op? = some op)
      (hstart : (d.raft.peers p).rf.start op = (rf, index, term, true)) :
      Goes d p ⟨request, .starting⟩ (some (.raft (.act p (.start op)))) (.started index term)
  | refused {request : Request} {op : Op} {rf : Raft n Op} {index term : ℕ}
      (hop : request.op? = some op)
      (hstart : (d.raft.peers p).rf.start op = (rf, index, term, false)) :
      Goes d p ⟨request, .starting⟩ (some (.raft (.act p (.start op))))
        (.replied none { err := .errWrongLeader } false)
  | registered {request : Request} {index term : ℕ} :
      Goes d p ⟨request, .started index term⟩ (some (.getNotifyChannel p index))
        (.waiting index term ((d.sites p).kv.getNotifyChannel index).2)
  | received {request : Request} {index term ch : ℕ} {opReply : OpReply}
      (hch : (d.sites p).kv.chans[ch]? = some (some opReply)) :
      Goes d p ⟨request, .waiting index term ch⟩ (some (.takeReply p ch))
        (.replied (some (index, term)) (request.answer opReply) true)
  | cleaned {request : Request} {index term : ℕ} {reply : OpReply} :
      Goes d p ⟨request, .replied (some (index, term)) reply true⟩
        (some (.removeNotifyChannel p index)) (.replied (some (index, term)) reply false)

omit [KVGob] in
theorem Handler.goes_of_next {d : Deployment n} {p : Fin n} {h : Handler} {m : Option (Move n)}
    {stage : Stage} (hnext : h.next d p = some (m, stage)) : h.Goes d p m stage := by
  obtain ⟨request, stage₀⟩ := h
  unfold next at hnext
  dsimp only at hnext
  cases stage₀ with
  | called =>
    cases request with
    | get args => cases hnext
    | putAppend args =>
      dsimp only at hnext
      split at hnext
      case isTrue => cases hnext
      case isFalse =>
        split at hnext
        case isTrue hdup =>
          cases hnext
          exact .duplicate hdup
        case isFalse =>
          cases hnext
          exact .fresh
  | starting =>
    dsimp only at hnext
    split at hnext
    case h_1 => cases hnext
    case h_2 op hop =>
      split at hnext
      case h_1 hstart =>
        cases hnext
        exact .accepted hop hstart
      case h_2 hstart =>
        cases hnext
        exact .refused hop hstart
  | started index term =>
    cases hnext
    exact .registered
  | waiting index term ch =>
    obtain ⟨opReply, hch, heq⟩ := Option.map_eq_some_iff.mp hnext
    cases heq
    exact .received (Option.join_eq_some_iff.mp hch)
  | replied start reply cleanup =>
    match start, cleanup with
    | some (index, term), true =>
      cases hnext
      exact .cleaned
    | some (index, term), false => cases hnext
    | none, _ => cases hnext

end Steps

/-! ## Runs -/

namespace Serving

/-- `applyTask` notifies a handler only in the term in which `Start` accepted its command. -/
def SameTerm (s : Serving n) : ServingMove n → Prop
  | .task p =>
    match (s.deployment.sites p).task with
    | .asking index _ => (s.deployment.raft.peers p).rf.role = .leader →
        ∀ x ∈ s.handlers p, ∀ y ∈ x.pending?, y.1 = index →
          y.2 = (s.deployment.raft.peers p).rf.currentTerm
    | _ => True
  | _ => True

instance (s : Serving n) (m : ServingMove n) : Decidable (s.SameTerm m) :=
  match m with
  | .task p =>
    match htask : (s.deployment.sites p).task with
    | .asking index _ =>
      decidable_of_iff ((s.deployment.raft.peers p).rf.role = .leader →
          ∀ x ∈ s.handlers p, ∀ y ∈ x.pending?, y.1 = index →
            y.2 = (s.deployment.raft.peers p).rf.currentTerm)
        (by rw [SameTerm, htask])
    | .receiving | .received _ | .notifying .. | .measuring _ | .compacting .. =>
      .isTrue (by rw [SameTerm, htask]; trivial)
  | .raft _ | .call .. | .run .. | .timeout .. => .isTrue trivial

/-- A step of the cluster breaks no log and installs no snapshot out of turn. -/
def Orderly (s : Serving n) : ServingMove n → Prop
  | .raft a => s.deployment.Orderly (.raft a)
  | _ => True

instance (s : Serving n) (m : ServingMove n) : Decidable (s.Orderly m) :=
  match m with
  | .raft a => inferInstanceAs (Decidable (s.deployment.Orderly (.raft a)))
  | .task _ | .call .. | .run .. | .timeout .. => .isTrue trivial

def Regular (s : Serving n) (m : ServingMove n) : Prop := s.Orderly m ∧ s.SameTerm m

instance (s : Serving n) (m : ServingMove n) : Decidable (s.Regular m) :=
  inferInstanceAs (Decidable (_ ∧ _))

section Runs

variable [RaftGob Op] [KVGob] {s s' : Serving n} {p : Fin n}

/-- What holds in every state of a run. -/
structure RepliesOk (s : Serving n) : Prop where
  replicas : s.deployment.ReplicasOk
  replies : ∀ p, RepliesAt s.deployment.raft.trace p (s.deployment.sites p) (s.handlers p)

omit [RaftGob Op] [KVGob] in
theorem follow_setSite (s : Serving n) (p : Fin n) (site : Site) :
    s.follow (s.deployment.setSite p site) =
      { s with deployment := s.deployment.setSite p site } := by
  simp only [follow, Deployment.setSite, if_true]

omit [RaftGob Op] [KVGob] in
theorem follow_install_self (s : Serving n) (p : Fin n) (net : List (Packet n Op))
    (e : Effect n Op) (site : Site) :
    (s.follow (s.deployment.install p net e site)).handlers p =
      if e.peer.incarnation = (s.deployment.raft.peers p).incarnation then s.handlers p
        else [] := by
  simp only [follow, Deployment.install, System.install_peers_self]

omit [RaftGob Op] [KVGob] in
theorem follow_install_ne (s : Serving n) {p q : Fin n} (hq : q ≠ p) (net : List (Packet n Op))
    (e : Effect n Op) (site : Site) :
    (s.follow (s.deployment.install p net e site)).handlers q = s.handlers q := by
  simp only [follow, Deployment.install, System.install_peers_ne _ _ _ _ hq, if_true]

namespace RepliesOk

/-- A server and its handlers move without their peer. -/
theorem update (h : s.RepliesOk) {site : Site} {handlers : List Handler}
    (hreplicas : (s.deployment.setSite p site).ReplicasOk)
    (hp : RepliesAt s.deployment.raft.trace p site handlers) :
    RepliesOk { deployment := s.deployment.setSite p site
                handlers := Function.update s.handlers p handlers } := by
  refine ⟨hreplicas, fun q => ?_⟩
  simp only [Deployment.setSite]
  by_cases hq : q = p
  · subst hq
    rwa [Function.update_self, Function.update_self]
  · rw [Function.update_of_ne hq, Function.update_of_ne hq]
    exact h.replies q

theorem setSite (h : s.RepliesOk) {site : Site}
    (hreplicas : (s.deployment.setSite p site).ReplicasOk)
    (hp : RepliesAt s.deployment.raft.trace p site (s.handlers p)) :
    (s.follow (s.deployment.setSite p site)).RepliesOk := by
  have hok := h.update hreplicas hp
  rwa [Function.update_eq_self, ← follow_setSite] at hok

/-- A peer takes a step and its server follows. -/
theorem peer_step (h : s.RepliesOk) {net : List (Packet n Op)} {c : Cause n Op} {e : Effect n Op}
    {site₀ site : Site} (hreplicas : (s.deployment.install p net e site).ReplicasOk)
    (hstep : (s.deployment.raft.peers p).step c = some e)
    (hkv : site₀.kv = (s.deployment.sites p).kv)
    (htask : site₀.task = (s.deployment.sites p).task ∨ site₀.task = .receiving)
    (hfollow : Deployment.follow site₀ (s.deployment.raft.peers p) e = some site) :
    (s.follow (s.deployment.install p net e site)).RepliesOk := by
  have hrun := h.replicas.run
  have hs := System.Reachable.of_reach hrun
  have hdoes := Peer.does_of_step hstep
  refine ⟨hreplicas, fun q => ?_⟩
  by_cases hq : q = p
  · subst hq
    rw [follow_install_self]
    simp only [follow, Deployment.install, System.install_trace, Function.update_self]
    split
    case isTrue hinc =>
      have hpre := handedOps_mono (System.Orderly.lastHanded_mono hrun hdoes hinc)
      have hold := (h.replies q).mono hpre
      cases (hdoes.applyStep (hs.saved q)).follows hfollow with
      | restarted hnew => omega
      | received _ _ _ hsite =>
        rw [hsite]
        exact hold.atTask (by rw [hkv]) (by rw [hkv]) fun i r hnotifying => by cases hnotifying
      | undisturbed _ _ hsite =>
        rw [hsite]
        refine hold.atTask (by rw [hkv]) (by rw [hkv]) fun i r hnotifying => ?_
        rcases htask with htask | htask
        · exact hold.notifying i r (htask.symm.trans hnotifying)
        · cases htask.symm.trans hnotifying
    case isFalse hinc =>
      -- the handlers are gone with the server
      rw [Deployment.follow, if_pos hinc] at hfollow
      obtain ⟨kv, hstart, rfl⟩ := Option.map_eq_some_iff.mp hfollow
      obtain ⟨st, -, rfl⟩ := Option.map_eq_some_iff.mp hstart
      exact .fresh rfl rfl rfl
  · rw [follow_install_ne s hq]
    simp only [follow, Deployment.install, System.install_trace, Function.update_of_ne hq]
    refine (h.replies q).mono (handedOps_mono (Nat.le_of_eq ?_))
    rw [lastHanded_of_others fun x hx heq => hq ?_]
    rw [← heq, hdoes.peer_of_mem hx, hs.me p]

/-- A leader that asks for the term of everyone who waits for the entry finds it to be theirs. -/
theorem fills (h : s.RepliesOk) {index : ℕ} {opReply : OpReply}
    (htask : (s.deployment.sites p).task = .asking index opReply)
    (hfree : (s.deployment.raft.peers p).muFree)
    (hrole : (s.deployment.raft.peers p).rf.role = .leader) (hterm : s.SameTerm (.task p)) :
    Fills s.deployment.raft.trace p (s.handlers p) index opReply := by
  have hrun := h.replicas.run
  obtain ⟨rfl, hkv, op, hanswer⟩ := (h.replicas.sites p).of_replying (Or.inl htask)
  obtain ⟨k, hk, hop, hreply⟩ := hanswer
  have hlen := (System.Orderly.within hrun).handed p
  have hlt : k < (appliedLog s.deployment.raft.trace).length := by omega
  obtain ⟨r, hr⟩ : ∃ r, (appliedLog s.deployment.raft.trace)[k]? = some r :=
    ⟨_, List.getElem?_eq_getElem hlt⟩
  have hop' := System.Orderly.appliedOps_get hrun k
  rw [hop, hr, Option.bind_some] at hop'
  refine ⟨op, r, ⟨k, hk, ?_, ?_⟩, ?_, fun x hx term hpending => ?_⟩
  · rw [handedOps, List.getElem?_take_of_lt (by omega), hop]
  · rw [handedOps, List.take_take, Nat.min_eq_left (by omega), hreply]
  · rwa [hk, Nat.add_sub_cancel]
  · simp only [SameTerm, htask] at hterm
    obtain rfl : term = _ := hterm hrole x hx _ hpending rfl
    obtain ⟨op', hrequest, haccepted⟩ :=
      (h.replies p).submitted x hx _ _ (Handler.start?_of_pending? hpending)
    obtain ⟨r', hr', hsame, hcommand⟩ := System.Orderly.own_command hrun haccepted
      (System.Orderly.lastHanded_le hrun hfree) (by omega) hlen
    rw [hk, Nat.add_sub_cancel, hr] at hr'
    obtain rfl := Option.some.inj hr'
    exact ⟨hrequest.trans (hcommand.symm.trans hop'.symm), hsame⟩

/-- A step of `applyTask`. -/
theorem task_step (h : s.RepliesOk) (hterm : s.SameTerm (.task p)) {d : Deployment n}
    (hstep : TaskStep s.deployment p d) : (s.follow d).RepliesOk := by
  have hreplicas := h.replicas.task_step hstep
  have hp := h.replies p
  cases hstep with
  | takenUp htask htake =>
    obtain ⟨-, hmap, hchans⟩ := KVServer.takeUp_pending htake
    exact h.setSite hreplicas (hp.atTask hmap hchans fun i r hnotifying =>
      absurd hnotifying (KVServer.takeUp_ne_notifying htake i r))
  | panicked htask htake =>
    obtain ⟨kv', task', htake', -⟩ := (h.replicas.sites p).takeUp htask
    cases htake.symm.trans htake'
  | asked htask hfree hrole =>
    refine h.setSite hreplicas (hp.atTask rfl rfl fun i r hnotifying => ?_)
    obtain ⟨rfl, rfl⟩ := Task.notifying.inj hnotifying
    exact h.fills htask hfree hrole hterm
  | unasked htask =>
    exact h.setSite hreplicas (hp.atTask rfl rfl fun i r hnotifying =>
      absurd hnotifying (Task.ne_notifying_of_pending (KVServer.afterReply_pending _ _) i r))
  | notified htask hsent => exact h.setSite hreplicas (hp.notified htask hsent)
  | measured htask =>
    exact h.setSite hreplicas (hp.atTask rfl rfl fun i r hnotifying =>
      absurd hnotifying (Task.ne_notifying_of_pending (KVServer.afterSize_pending _ _ _) i r))
  | compacted htask hstep hfollow =>
    refine h.peer_step hreplicas hstep ?_ ?_ hfollow
    · rfl
    · exact Or.inr rfl

/-- A handler moves on, with its server if need be. -/
theorem setStage (h : s.RepliesOk) {j : ℕ} {x : Handler} {kv : KVServer}
    {stage : Stage}
    (hreplicas : (s.deployment.setSite p { s.deployment.sites p with kv }).ReplicasOk)
    (hp : RepliesAt s.deployment.raft.trace p { s.deployment.sites p with kv }
      ((s.handlers p).set j { x with stage })) :
    ((s.follow (s.deployment.setSite p { s.deployment.sites p with kv })).setStage p j x
      stage).RepliesOk := by
  rw [follow_setSite]
  exact h.update hreplicas hp

/-- A handler moves on alone. -/
theorem setStage_self (h : s.RepliesOk) {j : ℕ} {x : Handler} {stage : Stage}
    (hp : RepliesAt s.deployment.raft.trace p (s.deployment.sites p)
      ((s.handlers p).set j { x with stage })) : (s.setStage p j x stage).RepliesOk := by
  have hsame : s.deployment.setSite p (s.deployment.sites p) = s.deployment := by
    rw [Deployment.setSite, Function.update_eq_self]
  have hok := h.update (hsame.symm ▸ h.replicas) hp
  rwa [hsame] at hok

/-- `Start` gives a handler its index, behind everything its server was handed. -/
theorem started (h : s.RepliesOk) {j : ℕ} {request : Request}
    (hj : (s.handlers p)[j]? = some ⟨request, .starting⟩) {op : Op} {rf : Raft n Op}
    {index term : ℕ} {isLeader : Bool} (hop : request.op? = some op)
    (hstart : (s.deployment.raft.peers p).rf.start op = (rf, index, term, isLeader))
    {d : Deployment n} (hstep : s.deployment.step (.raft (.act p (.start op))) = some d) :
    ((s.follow d).setStage p j ⟨request, .starting⟩
      (if isLeader then .started index term
        else .replied none { err := .errWrongLeader } false)).RepliesOk := by
  have hrun := h.replicas.run
  have horderly : s.deployment.Orderly (.raft (.act p (.start op))) := ⟨⟨rfl, rfl⟩, rfl⟩
  have hreplicas := h.replicas.step horderly hstep
  obtain ⟨e, he, hmap⟩ := Option.bind_eq_some_iff.mp hstep
  obtain ⟨site, hfollow, rfl⟩ := Option.map_eq_some_iff.mp hmap
  have hok := h.peer_step hreplicas he rfl (Or.inl rfl) hfollow
  obtain ⟨hfree, heffect⟩ := Peer.step_start he hstart
  have hinc : e.peer.incarnation = (s.deployment.raft.peers p).incarnation := by rw [heffect]
  have hj' := hj
  rw [← if_pos (t := s.handlers p) (e := []) hinc, ← follow_install_self s p _ e site] at hj'
  cases isLeader with
  | false =>
    exact hok.setStage_self
      ((hok.replies p).set hj' nofun nofun (Or.inl rfl) nofun fun owner howned =>
      ⟨owner, List.prefix_refl _, howned, nofun⟩)
  | true =>
    have hmem : .accepted rf.me index term op ∈ e.events := by simp [heffect]
    have hdoes := Peer.does_of_step he
    obtain ⟨-, -, -, hindex, -, hev⟩ := hdoes.accepted_spec hmem
    have hme : rf.me = p :=
      (hdoes.peer_of_mem hmem).trans ((System.Reachable.of_reach hrun).me p)
    have hlast : (handedOps p (e.events ++ s.deployment.raft.trace)).length < index := by
      have hquiet : lastHanded p (e.events ++ s.deployment.raft.trace) =
          lastHanded p s.deployment.raft.trace := by
        rw [hev]
        rfl
      rw [handedOps, List.length_take, hquiet, hindex]
      have := System.Orderly.lastHanded_lt_size hrun hfree
      omega
    refine hok.setStage_self ((hok.replies p).set hj' (fun i t hit => Or.inr ⟨op, hop, ?_⟩)
      (fun i t hit => Or.inr ?_) trivial nofun fun owner howned =>
        ⟨owner, List.prefix_refl _, howned, nofun⟩)
    all_goals obtain ⟨rfl, rfl⟩ := Prod.mk.inj (Option.some.inj hit)
    · rw [hme] at hmem
      exact List.mem_append_left _ hmem
    · exact hlast

/-- A step of a handler. -/
theorem run (h : s.RepliesOk) {j : ℕ} (hstep : s.step (.run p j) = some s') : s'.RepliesOk := by
  obtain ⟨x, hj, hmoved⟩ := step_run hstep
  have hmem := List.mem_of_getElem? hj
  have hp := h.replies p
  rcases hmoved with ⟨stage, hnext, rfl⟩ | ⟨m, stage, d, hnext, hm, rfl⟩
  · cases Handler.goes_of_next hnext with
    | @duplicate args hdup =>
      -- the store is that of a beginning of what the server was handed
      obtain ⟨k, hk, hstands⟩ := (h.replicas.sites p).exists_stands
      rw [hstands.store] at hdup
      obtain ⟨i, hi, hle⟩ := exists_seqId_of_duplicated hdup
      have hi' := seqIds_mono (List.take_prefix_take_left hk) _ hi
      exact h.setStage_self (hp.set hj nofun nofun (Or.inr ⟨args, rfl, i, hi', hle⟩) nofun
        fun owner howned => ⟨owner, List.prefix_refl _, howned, nofun⟩)
    | fresh =>
      exact h.setStage_self (hp.set hj nofun nofun trivial nofun
        fun owner howned => ⟨owner, List.prefix_refl _, howned, nofun⟩)
  · cases Handler.goes_of_next hnext with
    | accepted hop hstart | refused hop hstart => exact h.started hj hop hstart hm
    | @registered request index term =>
      have hreplicas := h.replicas.step (m := .getNotifyChannel p index) trivial hm
      rw [Deployment.step_getNotifyChannel hm] at hreplicas ⊢
      refine h.setStage hreplicas (hp.set hj (fun i t hit => Or.inl hit) (fun i t hit => Or.inl hit)
        trivial nofun fun owner howned => ?_)
      obtain ⟨owner', hpre, howned', hnew⟩ := howned.getNotifyChannel index
      refine ⟨owner', hpre, howned', fun i t ch hstage => ?_⟩
      obtain ⟨rfl, rfl, rfl⟩ := Stage.waiting.inj hstage
      exact hnew
    | @received request index term ch opReply hch =>
      have hreplicas := h.replicas.step (m := .takeReply p ch) trivial hm
      rw [Deployment.step_takeReply hm] at hreplicas ⊢
      -- the channel is that of the index the handler waits for
      obtain ⟨owner, howned, hwaiting⟩ := hp.chans
      obtain ⟨i, howner, op, r, hanswer, hr, hall⟩ := howned.full ch opReply hch
      obtain rfl : i = index :=
        Option.some.inj (howner.symm.trans (hwaiting _ hmem index term ch rfl))
      obtain ⟨hop, hterm⟩ := hall _ hmem term rfl
      refine h.setStage hreplicas (hp.set hj (fun i t hit => Or.inl hit) nofun
        (Or.inr ⟨op, opReply, hop, hanswer, rfl⟩) (fun i t reply cleanup hstage herr => ?_)
        fun owner howned => ⟨owner, List.prefix_refl _, howned.set ch none nofun, nofun⟩)
      obtain ⟨heq, -, -⟩ := Stage.replied.inj hstage
      obtain ⟨rfl, rfl⟩ := Prod.mk.inj (Option.some.inj heq)
      exact ⟨r, hr, hterm⟩
    | @cleaned request index term reply =>
      have hreplicas := h.replicas.step (m := .removeNotifyChannel p index) trivial hm
      rw [Deployment.step_removeNotifyChannel hm] at hreplicas ⊢
      refine h.setStage hreplicas (hp.set hj (fun i t hit => Or.inl hit) nofun (hp.honest _ hmem)
        (fun i t reply' cleanup hstage herr => ?_) fun owner howned =>
          ⟨owner, List.prefix_refl _, howned.removeNotifyChannel index, nofun⟩)
      obtain ⟨heq, rfl, -⟩ := Stage.replied.inj hstage
      obtain ⟨rfl, rfl⟩ := Prod.mk.inj (Option.some.inj heq)
      exact hp.settled _ hmem _ _ _ true rfl herr

/-- A handler times out. -/
theorem timeout (h : s.RepliesOk) {j : ℕ} (hstep : s.step (.timeout p j) = some s') :
    s'.RepliesOk := by
  obtain ⟨request, index, term, ch, hj, rfl⟩ := step_timeout hstep
  refine h.setStage_self ((h.replies p).set hj (fun i t hit => Or.inl hit) nofun (Or.inl rfl)
    (fun i t reply cleanup hstage herr => ?_) fun owner howned =>
      ⟨owner, List.prefix_refl _, howned, nofun⟩)
  obtain ⟨-, rfl, -⟩ := Stage.replied.inj hstage
  exact absurd rfl herr

theorem step {m : ServingMove n} (h : s.RepliesOk) (hok : s.Regular m)
    (hstep : s.step m = some s') :
    s'.RepliesOk := by
  cases m with
  | raft a =>
    obtain ⟨d, hd, rfl⟩ := step_raft hstep
    have hreplicas := h.replicas.step (m := .raft a) hok.1 hd
    obtain ⟨q, c, -, ⟨-, he, htask, hfollow⟩⟩ := Deployment.step_raft hd
    refine h.peer_step hreplicas he ?_ ?_ hfollow
    · rfl
    · exact htask.imp_right And.left
  | task p =>
    obtain ⟨d, hd, rfl⟩ := Option.map_eq_some_iff.mp hstep
    exact h.task_step hok.2 (Deployment.taskStep_cases hd)
  | call p request =>
    obtain rfl := Option.some.inj hstep
    have hsame : s.deployment.setSite p (s.deployment.sites p) = s.deployment := by
      rw [Deployment.setSite, Function.update_eq_self]
    have hok := h.update (hsame.symm ▸ h.replicas) ((h.replies p).called request)
    rwa [hsame] at hok
  | run p j => exact h.run hstep
  | timeout p j => exact h.timeout hstep

end RepliesOk

theorem repliesOk {maxraftstate : ℤ} (h : Reach step Regular (init maxraftstate) s) :
    s.RepliesOk := by
  refine h.invariant (I := RepliesOk) (fun s m s' hs hok hstep => hs.step hok hstep) ?_
  exact ⟨Deployment.replicasOk (Reach.refl _), fun p => .fresh rfl rfl rfl⟩

/-- In every run whose cluster steps are orderly, in which no request is altered before it is
encoded and in which `applyTask` notifies a handler only in the term in which its command was
accepted: a handler that `Start` gave an index and that does not time out replies with the result of
the entry that `Start` made for it, at this index of the sequence that all services are handed. A
`PutAppend` that replies without a `Start`, and not because the server is not the leader, is one of
a client that has a write with this `SeqId` or a later one in the sequence. -/
theorem own_reply {maxraftstate : ℤ} {x : Sharing n Op (Serving n)}
    (h : (host n).SharesUnaltered Regular (init maxraftstate) x) {handler : Handler}
    (hmem : handler ∈ x.state.handlers p) :
    (∀ index term reply cleanup, handler.stage = .replied (some (index, term)) reply cleanup →
      reply.err ≠ .errTimeout →
      ∃ k op r, index = k + 1 ∧ handler.request.op? = some op ∧
        .accepted p index term op ∈ x.state.deployment.raft.trace ∧
        (appliedLog x.state.deployment.raft.trace)[k]? = some r ∧ r.term = term ∧
        r.command = some op ∧ reply = handler.request.answer
          ((Store.replay ((appliedOps x.state.deployment.raft.trace).take k)).applyOp op).2) ∧
    (∀ args reply cleanup, handler.request = .putAppend args →
      handler.stage = .replied none reply cleanup → reply.err ≠ .errWrongLeader →
      ∃ k ∈ seqIds (appliedOps x.state.deployment.raft.trace) args.clientId, args.seqId ≤ k) := by
  have hok := repliesOk (Host.reach_of_unaltered h)
  have hp := hok.replies p
  have hhonest := hp.honest handler hmem
  constructor
  · intro index term reply cleanup hstage herr
    obtain ⟨r, hr, hterm⟩ := hp.settled handler hmem index term reply cleanup hstage herr
    have hstart : handler.start? = some (index, term) := by rw [Handler.start?, hstage]
    obtain ⟨op', hop', haccepted⟩ := hp.submitted handler hmem index term hstart
    rw [hstage] at hhonest
    obtain ⟨op, opReply, hop, hanswer, hreply⟩ := hhonest.resolve_left herr
    obtain rfl := Option.some.inj (hop.symm.trans hop')
    obtain ⟨k, rfl, hget, rfl⟩ := hanswer.mono (handedOps_grows p _)
    rw [Nat.add_sub_cancel] at hr
    have hcommand := System.Orderly.appliedOps_get hok.replicas.run k
    rw [hget, hr, Option.bind_some] at hcommand
    exact ⟨k, op, r, rfl, hop, haccepted, hr, hterm, hcommand.symm, hreply⟩
  · intro args reply cleanup hrequest hstage herr
    rw [hstage, hrequest] at hhonest
    obtain ⟨args', hargs, k, hk, hle⟩ := hhonest.resolve_left herr
    obtain rfl := Request.putAppend.inj hargs
    exact ⟨k, seqIds_mono (handedOps_grows p _) _ hk, hle⟩

end Runs

/-- Peer `0` accepts a `Put` at index 1 in term 2 and applies it; its handler has its reply, and the
reply is that of the entry of term 2 at the head of the sequence. -/
theorem own_reply_to_put : ∃ x : Sharing 3 Op (Serving 3),
    (host 3).SharesUnaltered Regular (init (-1)) x ∧
    ∃ handler ∈ x.state.handlers 0,
      handler.stage = .replied (some (1, 2)) { err := .ok } true ∧
      ∃ r, (appliedLog x.state.deployment.raft.trace)[0]? = some r ∧ r.term = 2 ∧
        r.command = handler.request.op? := by
  have hrun : ∃ s : Serving 3, Reach step Regular (init (-1)) s ∧
      ((s.handlers 0)[0]?.map Handler.stage = some (.replied (some (1, 2)) { err := .ok } true)) :=
    Reach.exists_of_exec (untilWaiting ++ untilReply ++ [.run 0 0]) (by decide +kernel)
  obtain ⟨s, hs, hreplied⟩ := hrun
  obtain ⟨x, hx, rfl⟩ := (host 3).exists_unaltered (s := init (-1)) (Reach.refl _) hs
  obtain ⟨handler, hget, hstage⟩ := Option.map_eq_some_iff.mp hreplied
  have hmem := List.mem_of_getElem? hget
  obtain ⟨k, op, r, hk, hop, -, hr, hterm, hcommand, -⟩ :=
    (own_reply hx hmem).1 1 2 _ true hstage (by decide)
  obtain rfl : k = 0 := (Nat.succ.inj hk).symm
  exact ⟨x, hx, handler, hmem, hstage, r, hr, hterm, hcommand.trans hop.symm⟩

end Serving

end LogicRaft
