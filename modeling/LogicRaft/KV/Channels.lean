import LogicRaft.Cluster.Numbering
import LogicRaft.KV.Threads

/-!
# Replies never block the apply loop

`applyTask` sends the reply to a command on the channel of its index with `kv.mu` held. A channel
holds one reply, so a second one for the same channel would block the server for good. Channels come
and go as the request handlers please; what keeps the send from blocking is that `applyTask` never
comes to an index twice. The numbers it receives strictly increase (`Numbered`), a channel belongs
to one index, and whatever is in a channel is the reply to an index that `applyTask` has left behind
(`ChannelsOk`).
-/

namespace LogicRaft

/-! ## The table of channels -/

/-- Each index in the table has a channel of its own, and a channel of the table that holds a reply
is that of an index with property `P`. -/
structure KVServer.ChannelsFor (P : ℕ → Prop) (kv : KVServer) : Prop where
  lt_length : ∀ i ch, kv.notifyChans.lookup i = some ch → ch < kv.chans.length
  injective : ∀ i j ch, kv.notifyChans.lookup i = some ch →
    kv.notifyChans.lookup j = some ch → i = j
  full : ∀ i ch opReply, kv.notifyChans.lookup i = some ch →
    kv.chans[ch]? = some (some opReply) → P i

namespace KVServer.ChannelsFor

variable {P Q : ℕ → Prop} {kv kv' : KVServer} {index : ℕ} {opReply : OpReply}

/-- A server that has just started has no channels. -/
theorem fresh (h : kv.notifyChans = ∅) : kv.ChannelsFor P := by
  have hnone : ∀ i ch, kv.notifyChans.lookup i ≠ some ch := by
    intro i ch hch
    rw [h] at hch
    cases hch
  exact ⟨fun i ch hch => absurd hch (hnone i ch), fun i j ch hch => absurd hch (hnone i ch),
    fun i ch opReply hch => absurd hch (hnone i ch)⟩

theorem congr (h : kv.ChannelsFor P) (hPQ : ∀ i, P i → Q i)
    (hmap : kv'.notifyChans = kv.notifyChans) (hchans : kv'.chans = kv.chans) :
    kv'.ChannelsFor Q := by
  refine ⟨?_, ?_, ?_⟩
  · rw [hmap, hchans]
    exact h.lt_length
  · rw [hmap]
    exact h.injective
  · rw [hmap, hchans]
    exact fun i ch opReply hch hfull => hPQ i (h.full i ch opReply hch hfull)

/-- A new channel comes after the others and is empty. -/
theorem getNotifyChannel (h : kv.ChannelsFor P) (index : ℕ) :
    (kv.getNotifyChannel index).1.ChannelsFor P := by
  unfold KVServer.getNotifyChannel
  split
  case h_1 => exact h
  case h_2 hnone =>
    have hcases : ∀ i ch, (kv.notifyChans.insert index kv.chans.length).lookup i = some ch →
        (i = index ∧ ch = kv.chans.length) ∨ kv.notifyChans.lookup i = some ch := by
      intro i ch hch
      by_cases hi : i = index
      · subst hi
        exact Or.inl ⟨rfl, (Option.some.inj ((Finmap.lookup_insert _).symm.trans hch)).symm⟩
      · exact Or.inr ((Finmap.lookup_insert_of_ne _ hi).symm.trans hch)
    refine ⟨fun i ch hch => ?_, fun i j ch hi hj => ?_, fun i ch opReply hch hfull => ?_⟩
    · rw [List.length_append, List.length_singleton]
      rcases hcases i ch hch with ⟨-, rfl⟩ | hold
      · exact Nat.lt_succ_self _
      · exact Nat.lt_succ_of_lt (h.lt_length i ch hold)
    · rcases hcases i ch hi with ⟨hi, hnew⟩ | hiold <;> rcases hcases j ch hj
        with ⟨hj, hnew'⟩ | hjold
      · rw [hi, hj]
      · exact absurd (h.lt_length j ch hjold) (by omega)
      · exact absurd (h.lt_length i ch hiold) (by omega)
      · exact h.injective i j ch hiold hjold
    · rcases hcases i ch hch with ⟨-, rfl⟩ | hold
      · rw [List.getElem?_concat_length] at hfull
        cases hfull
      · rw [List.getElem?_append_left (h.lt_length i ch hold)] at hfull
        exact h.full i ch opReply hold hfull

theorem removeNotifyChannel (h : kv.ChannelsFor P) (index : ℕ) :
    (kv.removeNotifyChannel index).ChannelsFor P := by
  have hold : ∀ i ch, (kv.removeNotifyChannel index).notifyChans.lookup i = some ch →
      kv.notifyChans.lookup i = some ch := by
    intro i ch hch
    by_cases hi : i = index
    · subst hi
      exact absurd ((Finmap.lookup_erase _ _).symm.trans hch) nofun
    · exact (Finmap.lookup_erase_ne hi).symm.trans hch
  exact ⟨fun i ch hch => h.lt_length i ch (hold i ch hch),
    fun i j ch hi hj => h.injective i j ch (hold i ch hi) (hold j ch hj),
    fun i ch opReply hch => h.full i ch opReply (hold i ch hch)⟩

/-- A channel is emptied, or filled for an index with the property. -/
theorem set (h : kv.ChannelsFor P) {ch : ℕ} {content : Option OpReply}
    (hP : ∀ i, kv.notifyChans.lookup i = some ch → content ≠ none → P i) :
    ({ kv with chans := kv.chans.set ch content } : KVServer).ChannelsFor P := by
  refine ⟨fun i c hc => ?_, h.injective, fun i c opReply hc hfull => ?_⟩
  · rw [List.length_set]
    exact h.lt_length i c hc
  · by_cases hch : ch = c
    · subst hch
      rw [List.getElem?_set_self (h.lt_length i ch hc)] at hfull
      exact hP i hc (by rw [Option.some.inj hfull]; nofun)
    · rw [List.getElem?_set_ne hch] at hfull
      exact h.full i c opReply hc hfull

theorem notify (h : kv.ChannelsFor P) (hP : P index)
    (hsent : kv.notify true index opReply = .ok kv') : kv'.ChannelsFor P := by
  have hchannels := h.getNotifyChannel index
  obtain ⟨-, rfl⟩ := send_spec hsent
  refine hchannels.set fun i hi _ => ?_
  rw [hchannels.injective i index _ hi (lookup_getNotifyChannel _ _)]
  exact hP

/-- The channel of an index without the property is empty. -/
theorem isEmpty (h : kv.ChannelsFor P) (hP : ¬ P index) :
    (kv.getNotifyChannel index).1.chans[(kv.getNotifyChannel index).2]? = some none := by
  have hchannels := h.getNotifyChannel index
  have hlookup := kv.lookup_getNotifyChannel index
  have hlt := hchannels.lt_length index _ hlookup
  cases hcontent : (kv.getNotifyChannel index).1.chans[(kv.getNotifyChannel index).2] with
  | none => rw [List.getElem?_eq_getElem hlt, hcontent]
  | some opReply =>
    refine absurd (hchannels.full index _ opReply hlookup ?_) hP
    rw [List.getElem?_eq_getElem hlt, hcontent]

end KVServer.ChannelsFor

/-! ## The cluster under the servers -/

variable {n : ℕ}

/-- What a server does without a step of its peer. -/
inductive SiteMove [KVGob] (peer : Peer n Op) (site : Site) : Site → Prop
  | task {site' : Site} (hmove : TaskMove peer site site') : SiteMove peer site site'
  | channelMade (index : ℕ) :
      SiteMove peer site { site with kv := (site.kv.getNotifyChannel index).1 }
  | channelRemoved (index : ℕ) :
      SiteMove peer site { site with kv := site.kv.removeNotifyChannel index }
  | replyTaken (ch : ℕ) :
      SiteMove peer site { site with kv := { site.kv with chans := site.kv.chans.set ch none } }

namespace Deployment

variable [RaftGob Op] [KVGob] {d d' : Deployment n} {m : Move n}

/-- A peer moves and its server follows, or a server moves alone. -/
inductive Moves (d : Deployment n) : Deployment n → Prop
  | peer {p : Fin n} {c : Cause n Op} {d' : Deployment n} (hmove : d.PeerMove p c d') : Moves d d'
  | site {p : Fin n} {site : Site} (hmove : SiteMove (d.raft.peers p) (d.sites p) site) :
      Moves d (d.setSite p site)

theorem moves_of_step (h : d.step m = some d') : d.Moves d' := by
  cases m with
  | raft a =>
    obtain ⟨q, c, -, hmove⟩ := step_raft h
    exact .peer hmove
  | task q =>
    rcases step_task h with ⟨c, -, hmove⟩ | ⟨site, hmove, rfl⟩
    · exact .peer hmove
    · exact .site (.task hmove)
  | getNotifyChannel q index =>
    rw [step_getNotifyChannel h]
    exact .site (.channelMade index)
  | removeNotifyChannel q index =>
    rw [step_removeNotifyChannel h]
    exact .site (.channelRemoved index)
  | takeReply q ch =>
    rw [step_takeReply h]
    exact .site (.replyTaken ch)

/-- The peers of a deployment run as they do alone. -/
theorem Moves.raft (h : d.Moves d') : d'.raft = d.raft ∨ ∃ a, d.raft.step a = some d'.raft := by
  cases h with
  | peer hmove =>
    obtain @⟨a, e, task, site, htarget, hstep, -, -⟩ := hmove
    refine Or.inr ⟨a, ?_⟩
    rw [System.step, htarget]
    dsimp only
    rw [hstep]
    rfl
  | site => exact Or.inl rfl

theorem reachable_raft {ok : Deployment n → Move n → Prop} {maxraftstate : ℤ}
    (h : Reach step ok (init maxraftstate) d) : d.raft.Reachable := by
  refine h.invariant (I := fun d => d.raft.Reachable) ?_ (Reach.refl _)
  intro d m d' hd _ hstep
  rcases (moves_of_step hstep).raft with heq | ⟨a, ha⟩
  · rw [heq]
    exact hd
  · exact hd.next ha

end Deployment

/-! ## An index left behind -/

/-- `applyTask` has received the command at `i` and has no reply to send for it any more. -/
def Answered (q : Fin n) (site : Site) (tr : List (Event n Op)) (i : ℕ) : Prop :=
  i ∈ commandIndices q tr ∧ site.task.pending ≠ some i

/-- The index `applyTask` is at is the newest it has received, and replies wait for older ones
only. -/
structure ChannelsOk (q : Fin n) (site : Site) (tr : List (Event n Op)) : Prop where
  pending : ∀ i, site.task.pending = some i → (commandIndices q tr).head? = some i
  channels : site.kv.ChannelsFor (Answered q site tr)

section Sites

variable [KVGob] {q : Fin n} {peer : Peer n Op} {site site' : Site} {tr : List (Event n Op)} {i : ℕ}

/-- From the receipt of a message to its end a round stays at one index. -/
theorem KVServer.takeUp_pending {kv kv' : KVServer} {message : ApplyMsg Op} {task : Task}
    (h : kv.takeUp message = .ok (kv', task)) :
    (task.pending = none ∨ task.pending = (Task.received message).pending) ∧
      kv'.notifyChans = kv.notifyChans ∧ kv'.chans = kv.chans := by
  unfold takeUp at h
  split at h
  case isTrue hvalid =>
    split at h
    · obtain ⟨rfl, rfl⟩ := Prod.mk.inj (Except.ok.inj h)
      exact ⟨Or.inl rfl, rfl, rfl⟩
    · split at h
      · cases h
      · obtain ⟨rfl, rfl⟩ := Prod.mk.inj (Except.ok.inj h)
        refine ⟨Or.inr ?_, rfl, rfl⟩
        rw [Task.pending, Task.pending, if_pos hvalid]
  case isFalse =>
    split at h
    · split at h
      · cases h
      · obtain ⟨rfl, rfl⟩ := Prod.mk.inj (Except.ok.inj h)
        exact ⟨Or.inl rfl, rfl, rfl⟩
    · obtain ⟨rfl, rfl⟩ := Prod.mk.inj (Except.ok.inj h)
      exact ⟨Or.inl rfl, rfl, rfl⟩

omit [KVGob] in
theorem KVServer.afterReply_pending (kv : KVServer) (index : ℕ) :
    (kv.afterReply index).pending = none := by
  unfold afterReply
  split <;> rfl

theorem KVServer.afterSize_pending (kv : KVServer) (size index : ℕ) :
    (kv.afterSize size index).pending = none := by
  unfold afterSize
  split <;> rfl

/-- Without a message `applyTask` comes to no new index. -/
theorem SiteMove.pending (h : SiteMove peer site site') :
    site'.task.pending = none ∨ site'.task.pending = site.task.pending := by
  cases h with
  | task hmove =>
    cases hmove with
    | takenUp htask htake =>
      rw [htask]
      exact (KVServer.takeUp_pending htake).1
    | asked htask =>
      rw [htask]
      exact Or.inr rfl
    | unasked | notified => exact Or.inl (KVServer.afterReply_pending _ _)
    | measured => exact Or.inl (KVServer.afterSize_pending _ _ _)
  | channelMade | channelRemoved | replyTaken => exact Or.inr rfl

theorem Answered.move (h : Answered q site tr i) (hmove : SiteMove peer site site') :
    Answered q site' tr i := by
  refine ⟨h.1, ?_⟩
  rcases hmove.pending with hnone | hsame
  · rw [hnone]
    nofun
  · rw [hsame]
    exact h.2

/-- One step of the server alone. -/
theorem ChannelsOk.move (h : ChannelsOk q site tr) (hmove : SiteMove peer site site') :
    ChannelsOk q site' tr := by
  have hpending : ∀ i, site'.task.pending = some i → (commandIndices q tr).head? = some i := by
    intro i hi
    rcases hmove.pending with hnone | hsame
    · rw [hnone] at hi
      cases hi
    · exact h.pending i (hsame ▸ hi)
  have hanswered : ∀ i, Answered q site tr i → Answered q site' tr i := fun i hi => hi.move hmove
  have hchannels : site.kv.ChannelsFor (Answered q site' tr) := h.channels.congr hanswered rfl rfl
  refine ⟨hpending, ?_⟩
  cases hmove with
  | task hmove =>
    cases hmove with
    | takenUp _ htake =>
      obtain ⟨-, hmap, hchans⟩ := KVServer.takeUp_pending htake
      exact hchannels.congr (fun _ hi => hi) hmap hchans
    | asked | unasked | measured => exact hchannels
    | @notified index opReply kv htask hsent =>
      -- the reply just sent is that of the newest index
      refine hchannels.notify ⟨?_, ?_⟩ hsent
      · exact List.mem_of_head? (h.pending index (by rw [htask]; rfl))
      · rw [KVServer.afterReply_pending]
        nofun
  | channelMade index => exact hchannels.getNotifyChannel index
  | channelRemoved index => exact hchannels.removeNotifyChannel index
  | replyTaken => exact hchannels.set fun _ _ hne => absurd rfl hne

end Sites

/-! ## A step of the peer -/

theorem Effect.handed_of_quiet {e : Effect n Op} (h : ∀ x ∈ e.events, x.quiet = true) :
    e.handed = none := by
  refine List.findSome?_eq_none_iff.mpr fun x hx => ?_
  cases x with
  | applied => cases h _ hx
  | _ => rfl

/-- What a step of its peer is to a server: a restart, a message, or nothing. -/
inductive Follows (p : Peer n Op) (e : Effect n Op) (site site' : Site) : Prop
  | restarted {base : ℕ} (hinc : e.peer.incarnation = p.incarnation + 1)
      (hev : e.events = [.restarted p.rf.me base]) (hmap : site'.kv.notifyChans = ∅)
      (htask : site'.task = .receiving)
  | received {message : ApplyMsg Op} (hinc : e.peer.incarnation = p.incarnation)
      (hfrom : (∃ entries i, p.rf.ticker = .offering entries i message) ∨
        ∃ reply, p.installing = some (message, reply))
      (hev : e.events = [.applied p.rf.me message])
      (hsite : site' = { site with task := .received message })
  | undisturbed (hinc : e.peer.incarnation = p.incarnation)
      (hindices : ∀ tr, commandIndices p.rf.me (e.events ++ tr) = commandIndices p.rf.me tr)
      (hsite : site' = site)

section Peers

variable [KVGob] {q : Fin n} {p : Peer n Op} {c : Cause n Op} {e : Effect n Op} {site site' : Site}
  {tr : List (Event n Op)} {i : ℕ}

theorem follow_of_handed_none (h : Deployment.follow site p e = some site')
    (hinc : e.peer.incarnation = p.incarnation) (hnone : e.handed = none) : site' = site := by
  rw [Deployment.follow, if_neg (not_not.mpr hinc), hnone] at h
  exact (Option.some.inj h).symm

theorem follow_of_applied (h : Deployment.follow site p e = some site')
    (hinc : e.peer.incarnation = p.incarnation) {message : ApplyMsg Op}
    (hev : e.events = [.applied p.rf.me message]) :
    site' = { site with task := .received message } := by
  have hhanded : e.handed = some message := by
    rw [Effect.handed, hev]
    rfl
  rw [Deployment.follow, if_neg (not_not.mpr hinc), hhanded] at h
  dsimp only at h
  split at h
  · exact (Option.some.inj h).symm
  · cases h

theorem ApplyStep.follows (h : ApplyStep p c e)
    (hfollow : Deployment.follow site p e = some site') :
    Follows p e site site' := by
  cases h with
  | restarted _ _ _ _ hinc hev =>
    rw [Deployment.follow, if_pos (by omega)] at hfollow
    obtain ⟨kv, hkv, rfl⟩ := Option.map_eq_some_iff.mp hfollow
    obtain ⟨st, -, rfl⟩ := Option.map_eq_some_iff.mp hkv
    exact .restarted hinc hev rfl rfl
  | quiet _ _ _ _ _ hinc hev | compacted _ _ _ _ _ _ _ _ hinc hev =>
    exact .undisturbed hinc (fun _ => commandIndices_of_quiet hev)
      (follow_of_handed_none hfollow hinc (Effect.handed_of_quiet hev))
  | collected _ _ _ heq hev | offered _ _ heq hev | batchDone _ _ _ heq hev =>
    have hinc : e.peer.incarnation = p.incarnation := by rw [heq]
    have hnone : e.handed = none := by rw [Effect.handed, hev]; rfl
    refine .undisturbed hinc (fun tr => ?_) (follow_of_handed_none hfollow hinc hnone)
    rw [hev]
    rfl
  | installed _ _ _ _ _ _ _ _ _ _ hinc hev =>
    have hnone : e.handed = none := by rw [Effect.handed, hev]; rfl
    refine .undisturbed hinc (fun tr => ?_) (follow_of_handed_none hfollow hinc hnone)
    rw [hev]
    rfl
  | sent hticker heq hev =>
    have hinc : e.peer.incarnation = p.incarnation := by rw [heq]
    exact .received hinc (Or.inl ⟨_, _, hticker⟩) hev (follow_of_applied hfollow hinc hev)
  | installDone hblocked heq hev =>
    have hinc : e.peer.incarnation = p.incarnation := by rw [heq]
    exact .received hinc (Or.inr ⟨_, hblocked⟩) hev (follow_of_applied hfollow hinc hev)

omit [KVGob] in
/-- A message on `applyCh` brings a number above all earlier ones, or no command. -/
theorem Numbered.message (h : Numbered q p tr) (hinst : p.InstallOk) {message : ApplyMsg Op}
    (hfrom : (∃ entries i, p.rf.ticker = .offering entries i message) ∨
      ∃ reply, p.installing = some (message, reply)) :
    (commandIndices q (.applied q message :: tr) = message.commandIndex :: commandIndices q tr ∧
        ∀ i ∈ commandIndices q tr, i < message.commandIndex) ∨
      (commandIndices q (.applied q message :: tr) = commandIndices q tr ∧
        (Task.received message).pending = none) := by
  rcases hfrom with ⟨entries, k, hticker⟩ | ⟨reply, hblocked⟩
  · obtain ⟨hvalid, hlt, -⟩ := (h.batch ⟨entries, k, some message⟩ (by rw [hticker]; rfl)).2 _ rfl
    exact Or.inl ⟨commandIndices_command hvalid, hlt⟩
  · obtain ⟨term, args, r, rfl, -⟩ := hinst _ _ hblocked
    exact Or.inr ⟨commandIndices_snapshot rfl, rfl⟩

omit [KVGob] in
theorem Task.pending_received {message : ApplyMsg Op} {i : ℕ}
    (h : (Task.received message).pending = some i) : message.commandIndex = i := by
  rw [Task.pending] at h
  split at h
  · exact Option.some.inj h
  · cases h

omit [KVGob] in
/-- An index left behind is not taken up again in the same incarnation. -/
theorem Answered.follow (h : Answered q site tr i) (hnum : Numbered q p tr) (hinst : p.InstallOk)
    (hme : p.rf.me = q) (hinc : e.peer.incarnation = p.incarnation) (hf : Follows p e site site') :
    Answered q site' (e.events ++ tr) i := by
  subst hme
  cases hf with
  | restarted hnew => omega
  | undisturbed _ hindices hsite =>
    rw [Answered, hindices, hsite]
    exact h
  | received _ hfrom hev hsite =>
    rw [hev, hsite]
    rcases hnum.message hinst hfrom with ⟨hindices, hlt⟩ | ⟨hindices, hnone⟩
    · refine ⟨?_, fun hi => ?_⟩
      · rw [List.singleton_append, hindices]
        exact List.mem_cons_of_mem _ h.1
      · have := hlt i h.1
        have := Task.pending_received hi
        omega
    · refine ⟨?_, ?_⟩
      · rw [List.singleton_append, hindices]
        exact h.1
      · rw [hnone]
        nofun

omit [KVGob] in
/-- One step of the peer. -/
theorem ChannelsOk.follow (h : ChannelsOk q site tr) (hnum : Numbered q p tr) (hinst : p.InstallOk)
    (hme : p.rf.me = q) (hf : Follows p e site site') : ChannelsOk q site' (e.events ++ tr) := by
  have hanswered : e.peer.incarnation = p.incarnation →
      ∀ i, Answered q site tr i → Answered q site' (e.events ++ tr) i :=
    fun hinc i hi => hi.follow hnum hinst hme hinc hf
  subst hme
  cases hf with
  | restarted _ _ hmap htask =>
    refine ⟨fun i hi => ?_, .fresh hmap⟩
    rw [htask] at hi
    cases hi
  | undisturbed hinc hindices hsite =>
    subst hsite
    refine ⟨fun i hi => ?_, h.channels.congr (hanswered hinc) rfl rfl⟩
    rw [hindices]
    exact h.pending i hi
  | received hinc hfrom hev hsite =>
    subst hsite
    refine ⟨fun i hi => ?_, h.channels.congr (hanswered hinc) rfl rfl⟩
    rw [hev]
    rcases hnum.message hinst hfrom with ⟨hindices, -⟩ | ⟨-, hnone⟩
    · rw [List.singleton_append, hindices, List.head?_cons, Task.pending_received hi]
    · exact absurd (hnone.symm.trans hi) nofun

end Peers

/-! ## Runs -/

/-- Where `applyTask` stands matters only for the index it is at. -/
theorem ChannelsOk.atTask {q : Fin n} {site : Site} {tr : List (Event n Op)} {task : Task}
    (h : ChannelsOk q site tr) (htask : task.pending = site.task.pending) :
    ChannelsOk q { site with task } tr := by
  refine ⟨fun i hi => h.pending i (htask ▸ hi), h.channels.congr (fun i hi => ⟨hi.1, ?_⟩) rfl rfl⟩
  rw [htask]
  exact hi.2

namespace Deployment

section Runs

variable [RaftGob Op] [KVGob] {ok : Deployment n → Move n → Prop} {maxraftstate : ℤ}
  {d d' d₁ d₂ : Deployment n} {p : Fin n}

/-- A property of a server, its peer and the events of that peer is kept if their own steps keep
it. -/
theorem Moves.own {I : Site → Peer n Op → List (Event n Op) → Prop} (h : d.Moves d')
    (hd : d.raft.Reachable)
    (hother : ∀ site peer ev tr, (∀ x ∈ ev, x.peer ≠ p) → I site peer tr → I site peer (ev ++ tr))
    (hpeer : ∀ task e site', task.pending = (d.sites p).task.pending →
      Follows (d.raft.peers p) e { d.sites p with task } site' →
      I (d.sites p) (d.raft.peers p) d.raft.trace → I site' e.peer (e.events ++ d.raft.trace))
    (hsite : ∀ site', SiteMove (d.raft.peers p) (d.sites p) site' →
      I (d.sites p) (d.raft.peers p) d.raft.trace → I site' (d.raft.peers p) d.raft.trace)
    (hI : I (d.sites p) (d.raft.peers p) d.raft.trace) :
    I (d'.sites p) (d'.raft.peers p) d'.raft.trace := by
  cases h with
  | @peer q _ _ hmove =>
    obtain @⟨a, e, task, site, -, hstep, htask, hfollow⟩ := hmove
    have hdoes := Peer.does_of_step hstep
    by_cases hq : p = q
    · subst hq
      simp only [install, System.install_peers_self, Function.update_self]
      have hpending : task.pending = (d.sites p).task.pending := by
        rcases htask with rfl | ⟨rfl, hnone⟩
        · rfl
        · exact hnone.symm
      exact hpeer task e site hpending ((hdoes.applyStep (hd.saved p)).follows hfollow) hI
    · simp only [install, System.install_peers_ne _ _ _ _ hq, Function.update_of_ne hq]
      refine hother _ _ _ _ (fun x hx => ?_) hI
      rw [hdoes.peer_of_mem hx, hd.me q]
      exact Ne.symm hq
  | @site q site hmove =>
    by_cases hq : p = q
    · subst hq
      simp only [setSite, Function.update_self]
      exact hsite site hmove hI
    · simp only [setSite, Function.update_of_ne hq]
      exact hI

theorem channelsOk (h : Reach step ok (init maxraftstate) d) (p : Fin n) :
    ChannelsOk p (d.sites p) d.raft.trace := by
  refine h.invariant_along (I := fun d => ChannelsOk p (d.sites p) d.raft.trace) ?_ ?_
  · intro d m d' hrun hok _ hstep
    have hd := reachable_raft hrun
    refine (moves_of_step hstep).own (I := fun site _ tr => ChannelsOk p site tr) hd ?_ ?_ ?_ hok
    · intro site peer ev tr hev hsite
      have hindices : commandIndices p (ev ++ tr) = commandIndices p tr :=
        commandIndices_of_others hev
      refine ⟨fun i hi => hindices ▸ hsite.pending i hi,
        hsite.channels.congr (fun i hi => ?_) rfl rfl⟩
      exact ⟨hindices ▸ hi.1, hi.2⟩
    · intro task e site' htask hf hsite
      exact (hsite.atTask htask).follow (hd.numbered p) (hd.installOk p) (hd.me p) hf
    · intro site' hmove hsite
      exact hsite.move hmove
  · exact ⟨nofun, .fresh rfl⟩

/-- What `applyTask` has left behind it does not come back to in the same incarnation. -/
theorem answered_along {i : ℕ} (hd : Reach step ok (init maxraftstate) d)
    (hrun : Reach step ok d d₁) (hi : Answered p (d.sites p) d.raft.trace i)
    (hinc : (d₁.raft.peers p).incarnation = (d.raft.peers p).incarnation) :
    Answered p (d₁.sites p) d₁.raft.trace i := by
  have hall : (d.raft.peers p).incarnation ≤ (d₁.raft.peers p).incarnation ∧
      ((d₁.raft.peers p).incarnation = (d.raft.peers p).incarnation →
        Answered p (d₁.sites p) d₁.raft.trace i) := by
    refine hrun.invariant_along (I := fun u => (d.raft.peers p).incarnation ≤
      (u.raft.peers p).incarnation ∧ ((u.raft.peers p).incarnation = (d.raft.peers p).incarnation →
        Answered p (u.sites p) u.raft.trace i)) ?_ ⟨Nat.le_refl _, fun _ => hi⟩
    intro u m u' hu hI _ hstep
    have hraft := reachable_raft (hd.trans hu)
    refine (moves_of_step hstep).own (I := fun site peer tr => (d.raft.peers p).incarnation ≤
      peer.incarnation ∧ (peer.incarnation = (d.raft.peers p).incarnation →
        Answered p site tr i)) hraft ?_ ?_ ?_ hI
    · rintro site peer ev tr hev ⟨hle, hsite⟩
      exact ⟨hle, fun heq => ⟨(commandIndices_of_others hev).symm ▸ (hsite heq).1, (hsite heq).2⟩⟩
    · rintro task e site' htask hf ⟨hle, hsite⟩
      have hsame : e.peer.incarnation = (u.raft.peers p).incarnation ∨
          e.peer.incarnation = (u.raft.peers p).incarnation + 1 := by
        cases hf with
        | restarted hnew => exact Or.inr hnew
        | received hinc | undisturbed hinc => exact Or.inl hinc
      refine ⟨by omega, fun heq => ?_⟩
      have hanswered := hsite (by omega)
      have hat : Answered p { u.sites p with task } u.raft.trace i := by
        refine ⟨hanswered.1, ?_⟩
        rw [htask]
        exact hanswered.2
      exact hat.follow (hraft.numbered p) (hraft.installOk p) (hraft.me p) (by omega) hf
    · rintro site' hmove ⟨hle, hsite⟩
      exact ⟨hle, fun heq => (hsite heq).move hmove⟩
  exact hall.2 hinc

/-- The step in which `applyTask` sends a reply. -/
theorem step_notifying {i : ℕ} {opReply : OpReply} (htask : (d.sites p).task = .notifying i opReply)
    (hstep : d.step (.task p) = some d₁) :
    ∃ kv, (d.sites p).kv.notify true i opReply = .ok kv ∧
      d₁ = d.setSite p { kv, task := kv.afterReply i } := by
  simp only [step, taskStep, htask] at hstep
  split at hstep
  case h_1 kv hsent => exact ⟨kv, hsent, (Option.some.inj hstep).symm⟩
  case h_2 => cases hstep

/-- It leaves the index behind. -/
theorem answered_of_notifying {i : ℕ} {opReply : OpReply}
    (hok : ChannelsOk p (d.sites p) d.raft.trace)
    (htask : (d.sites p).task = .notifying i opReply) (hstep : d.step (.task p) = some d₁) :
    Answered p (d₁.sites p) d₁.raft.trace i ∧ d₁.raft = d.raft := by
  obtain ⟨kv, -, rfl⟩ := step_notifying htask hstep
  refine ⟨⟨List.mem_of_head? (hok.pending i (by rw [htask]; rfl)), ?_⟩, rfl⟩
  simp only [setSite, Function.update_self, KVServer.afterReply_pending]
  intro hnone
  cases hnone

omit [RaftGob Op] [KVGob] in
/-- A later index is greater. -/
theorem lt_of_answered {i j : ℕ} (hnum : Numbered p (d.raft.peers p) d.raft.trace)
    (hok : ChannelsOk p (d.sites p) d.raft.trace) (hi : Answered p (d.sites p) d.raft.trace i)
    (hj : (d.sites p).task.pending = some j) : i < j := by
  obtain ⟨hmem, hne⟩ := hi
  obtain ⟨rest, hindices⟩ := List.head?_eq_some_iff.mp (hok.pending j hj)
  have hdecreasing := hnum.decreasing
  rw [hindices] at hmem hdecreasing
  rcases List.mem_cons.mp hmem with rfl | hrest
  · exact absurd hj hne
  · exact List.rel_of_pairwise_cons hdecreasing hrest

/-- In every run the numbers of the commands on `applyCh` strictly increase within an incarnation.
When `applyTask` is about to send the reply for an index, the channel it uses is empty and the send
goes through; the next reply it sends in this incarnation is for a greater index. -/
theorem applyTask_never_blocks (h : Reach step (fun _ _ => True) (init maxraftstate) d)
    (p : Fin n) :
    (commandIndices p d.raft.trace).Pairwise (· > ·) ∧
      ∀ i opReply, (d.sites p).task = .notifying i opReply →
        ((d.sites p).kv.getNotifyChannel i).1.chans[((d.sites p).kv.getNotifyChannel i).2]? =
            some none ∧
          ∃ d₁, d.step (.task p) = some d₁ ∧
            ∀ d₂ j opReply', Reach step (fun _ _ => True) d₁ d₂ →
              (d₂.raft.peers p).incarnation = (d.raft.peers p).incarnation →
              (d₂.sites p).task = .notifying j opReply' → i < j := by
  have hok := channelsOk h p
  refine ⟨((reachable_raft h).numbered p).decreasing, fun i opReply htask => ?_⟩
  have hnew : ¬ Answered p (d.sites p) d.raft.trace i := fun hi => hi.2 (by rw [htask]; rfl)
  have hempty := hok.channels.isEmpty hnew
  have hsome : ∃ d₁, d.step (.task p) = some d₁ := by
    simp only [step, taskStep, htask, KVServer.notify, if_true, KVServer.send, hempty]
    exact ⟨_, rfl⟩
  obtain ⟨d₁, hstep⟩ := hsome
  refine ⟨hempty, d₁, hstep, fun d₂ j opReply' hrun hinc hlater => ?_⟩
  have hd₁ : Reach step (fun _ _ => True) (init maxraftstate) d₁ := h.trans (.single trivial hstep)
  obtain ⟨hanswered, hraft⟩ := answered_of_notifying hok htask hstep
  exact lt_of_answered ((reachable_raft (hd₁.trans hrun)).numbered p)
    (channelsOk (hd₁.trans hrun) p)
    (answered_along hd₁ hrun hanswered (by rw [hraft]; exact hinc)) (by rw [hlater]; rfl)

end Runs

/-- Peer `0` is elected and commits two commands of a client. Its `applyTask` is about to send the
first reply. -/
def untilFirstReply : List (Move 3) :=
  [.raft (.act 0 .tickerStep), .raft (.act 0 .electionTimeout), .raft (.act 0 (.startElection 0)),
    .raft (.deliver 0), .raft (.deliver 1),
    .raft (.act 0 (.start { key := "k", opType := .opPut, clientId := 1, seqId := 1 })),
    .raft (.act 0 (.start { key := "k", opType := .opPut, clientId := 1, seqId := 2 })),
    .raft (.act 0 (.replicationTick 0)), .raft (.deliver 1), .raft (.deliver 2),
    .raft (.act 0 .tickerStep), .raft (.act 0 .tickerStep), .raft (.act 0 .tickerStep), .task 0,
    .task 0]

/-- A handler that has timed out gives the channel up; the second command is applied. -/
def untilSecondReply : List (Move 3) :=
  [.removeNotifyChannel 0 1, .raft (.act 0 .tickerStep), .raft (.act 0 .tickerStep), .task 0,
   .task 0]

/-- The first reply goes through, and the next one is for the next index. -/
theorem applyTask_never_blocks_twice : ∃ d d₁ d₂ : Deployment 3,
    d.step (.task 0) = some d₁ ∧ Reach step (fun _ _ => True) d₁ d₂ ∧
      ((d₂.sites 0).kv.getNotifyChannel 2).1.chans[((d₂.sites 0).kv.getNotifyChannel 2).2]? =
        some none := by
  have hfirst : ∃ d : Deployment 3, Reach step (fun _ _ => True) (init (-1)) d ∧
      ((d.sites 0).task = .notifying 1 { err := .ok } ∧
        (d.step (.task 0)).any (fun d₁ => (exec step (fun _ _ => True) untilSecondReply d₁).any
          (fun d₂ => decide ((d₂.sites 0).task = .notifying 2 { err := .ok }))) = true) :=
    Reach.exists_of_exec untilFirstReply (by decide +kernel)
  obtain ⟨d, hd, htask, hrest⟩ := hfirst
  obtain ⟨-, hsend⟩ := applyTask_never_blocks hd 0
  obtain ⟨-, d₁, hstep, -⟩ := hsend 1 _ htask
  rw [hstep] at hrest
  obtain ⟨d₂, hd₂, hlater⟩ := Reach.exists_of_exec untilSecondReply hrest
  have hreach : Reach step (fun _ _ => True) (init (-1)) d₂ :=
    (hd.trans (.single trivial hstep)).trans hd₂
  obtain ⟨-, hsend₂⟩ := applyTask_never_blocks hreach 0
  exact ⟨d, d₁, d₂, hstep, hd₂, (hsend₂ 2 _ hlater).1⟩

end Deployment

end LogicRaft
