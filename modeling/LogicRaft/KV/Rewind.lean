import LogicRaft.KV.Replicas

/-!
# A snapshot and the server that takes it

`InstallSnapshot` compares the snapshot with `log.Base` only, and `applyTask` restores whatever it
is handed. A snapshot that comes late, after the follower has caught up through `AppendEntries`,
takes the server back, and `Raft`, whose `lastApplied` stays, does not hand it the lost commands
again (`rewound_server`).

That no snapshot comes from behind is not enough to keep what a server has applied: the cluster must
also agree on what the indices stand for, since the snapshot of another server is taken on trust. In
every run of a deployment that keeps to both, a server only ever moves forward along the one
sequence that all services are handed (`snapshot_never_rewinds`).
-/

namespace LogicRaft

variable {n : ℕ}

namespace System

variable {α : Type} [RaftGob α] {s : System n α}

/-- A snapshot on `applyCh` is not behind anything handed over in the incarnation. -/
theorem handed_le_snapshotIndex (h : Reach System.step InTurn init s) {p : Fin n}
    {msg : ApplyMsg α} {tr : List (Event n α)} (hmsg : (.applied p msg :: tr) <:+ s.trace)
    (hvalid : msg.snapshotValid = true) : ∀ i ∈ handed p tr, i ≤ msg.snapshotIndex := by
  revert hmsg
  refine run_invariant (I := fun s => (.applied p msg :: tr) <:+ s.trace →
    ∀ i ∈ handed p tr, i ≤ msg.snapshotIndex) (fun htr => ?_) ?_ h
  · cases List.suffix_nil.mp htr
  · intro s a q c e hrun _ _ hdoes hI htr
    rcases suffix_cases hdoes htr with hold | ⟨hev, rfl⟩
    · exact hI hold
    · have hs := Reachable.of_reach hrun
      have hmem : .applied p msg ∈ e.events := by rw [hev]; exact List.mem_cons_self ..
      obtain rfl : p = q := (hdoes.peer_of_mem hmem).trans (hs.me q)
      have hbound := bounded hrun p
      rcases (hdoes.applied hmem).2 with ⟨entries, i, hticker⟩ | ⟨reply, hinst⟩
      · -- a message of a batch is not a snapshot
        obtain ⟨entry, -, hentry⟩ := (hbound.batch ⟨entries, i, some msg⟩ (by rw [hticker]; rfl)).2
          msg rfl
        rw [hentry] at hvalid
        cases hvalid
      · obtain ⟨hnone, hindex⟩ := hbound.installing msg reply hinst
        obtain ⟨term, args, r, rfl, -⟩ := hs.installOk p msg reply hinst
        intro k hk
        have hle := hbound.handed_le k hk
        rw [Raft.position, hnone] at hle
        exact hle.trans (Nat.le_of_eq (Option.some.inj hindex).symm)

end System

/-! ## How far a server has come -/

/-- The index that a server has come to: the last one it was handed, or the one before it while
`applyTask` has the message and has not taken it up. -/
def Task.reached (task : Task) (p : Fin n) (tr : List (Event n Op)) : ℕ :=
  match task with
  | .received _ => (handed p tr).tail.headD (startBase p tr)
  | _ => lastHanded p tr

namespace Task

variable {task : Task} {p : Fin n} {tr tr' ev : List (Event n Op)}

theorem reached_of_ne (h : ∀ message, task ≠ .received message) :
    task.reached p tr = lastHanded p tr := by
  unfold reached
  split
  case h_1 message => exact absurd rfl (h message)
  case h_2 => rfl

/-- With a new message in hand the server still is where it was. -/
theorem reached_received {message : ApplyMsg Op} {i : ℕ} (h : message.index? = some i) :
    (Task.received message).reached p (.applied p message :: tr) = lastHanded p tr := by
  rw [reached, handed, stream_applied, List.filterMap_cons_some h]
  rfl

theorem reached_congr (hhanded : handed p tr' = handed p tr)
    (hbase : startBase p tr' = startBase p tr) : task.reached p tr' = task.reached p tr := by
  unfold reached lastHanded
  rw [hhanded, hbase]

theorem reached_of_others (h : ∀ x ∈ ev, x.peer ≠ p) :
    task.reached p (ev ++ tr) = task.reached p tr := by
  induction ev with
  | nil => rfl
  | cons x ev ih =>
    have hx := h x (List.mem_cons_self ..)
    rw [List.cons_append, reached_congr (handed_of_ne hx) (startBase_of_ne hx)]
    exact ih fun y hy => h y (List.mem_cons_of_mem _ hy)

end Task

def Deployment.reached (d : Deployment n) (p : Fin n) : ℕ := (d.sites p).task.reached p d.raft.trace

/-- The store of the server is that of the sequence up to the index it has come to. -/
structure Placed (p : Fin n) (tr : List (Event n Op)) (site : Site) : Prop where
  stands : Stands (appliedOps tr) (site.task.reached p tr) site.kv
  le_last : site.task.reached p tr ≤ lastHanded p tr

/-- From `site` to `site'` the server has not gone back. -/
structure Forward (p : Fin n) (tr tr' : List (Event n Op)) (site site' : Site) : Prop where
  reached : site.task.reached p tr ≤ site'.task.reached p tr'
  applied : site.kv.lastApplied ≤ site'.kv.lastApplied

section Servers

variable {p : Fin n} {tr ev : List (Event n Op)} {site site₀ : Site}

/-- Nothing has happened to the server. -/
theorem Placed.idle (h : Placed p tr site)
    (hreached : site.task.reached p (ev ++ tr) = site.task.reached p tr)
    (hlast : lastHanded p (ev ++ tr) = lastHanded p tr) :
    Placed p (ev ++ tr) site ∧ Forward p tr (ev ++ tr) site site := by
  refine ⟨⟨?_, ?_⟩, hreached.ge, Nat.le_refl _⟩
  · rw [hreached]
    exact h.stands.mono (appliedOps_grows ev tr)
  · rw [hreached, hlast]
    exact h.le_last

variable [KVGob]

theorem SiteOk.placed (h : SiteOk (appliedOps tr) (lastHanded p tr) site)
    (htask : ∀ message, site.task ≠ .received message) : Placed p tr site := by
  have hreached : site.task.reached p tr = lastHanded p tr := Task.reached_of_ne htask
  refine ⟨?_, hreached.le⟩
  rw [hreached]
  cases h with
  | receiving _ hkv | replying _ hkv | measuring _ hkv | compacting _ hkv => exact hkv
  | command htask' | snapshot htask' => exact absurd htask' (htask _)

/-- `applyTask` moves on with the message it has, or with none. -/
theorem Placed.moved (h : Placed p tr site₀) (hsite : SiteOk (appliedOps tr) (lastHanded p tr) site)
    (htask : ∀ message, site.task ≠ .received message)
    (happlied : site₀.kv.lastApplied ≤ site.kv.lastApplied) :
    Placed p tr site ∧ Forward p tr tr site₀ site := by
  refine ⟨hsite.placed htask, ?_, happlied⟩
  rw [Task.reached_of_ne htask]
  exact h.le_last

variable [RaftGob Op] {d : Deployment n} {c : Cause n Op} {e : Effect n Op}

omit [RaftGob Op] in
/-- Nothing is handed over, and the peer goes on. -/
theorem Placed.unhanded (h : Placed p d.raft.trace site₀)
    (hinc : e.peer.incarnation = (d.raft.peers p).incarnation) (hnone : e.handed = none)
    (hhanded : handed p (e.events ++ d.raft.trace) = handed p d.raft.trace)
    (hbase : startBase p (e.events ++ d.raft.trace) = startBase p d.raft.trace)
    (hfollow : Deployment.follow site₀ (d.raft.peers p) e = some site) :
    Placed p (e.events ++ d.raft.trace) site ∧
      Forward p d.raft.trace (e.events ++ d.raft.trace) site₀ site := by
  rw [follow_of_handed_none hfollow hinc hnone]
  refine h.idle (Task.reached_congr hhanded hbase) ?_
  rw [lastHanded, lastHanded, hhanded, hbase]

/-- A message is handed over: the server has it in hand and is where it was. -/
theorem Placed.handed (h : Placed p d.raft.trace site₀)
    (hrun : Reach System.step System.Orderly System.init d.raft)
    (hdoes : Does (d.raft.peers p) c e)
    (hinc : e.peer.incarnation = (d.raft.peers p).incarnation) {message : ApplyMsg Op} {i : ℕ}
    (hev : e.events = [.applied p message]) (hindex : message.index? = some i)
    (hfollow : Deployment.follow site₀ (d.raft.peers p) e = some site) :
    Placed p (e.events ++ d.raft.trace) site ∧
      Forward p d.raft.trace (e.events ++ d.raft.trace) site₀ site := by
  obtain ⟨htask, rfl⟩ := receiving_of_follow hfollow hinc hev
  have hbefore : site₀.task.reached p d.raft.trace = lastHanded p d.raft.trace := by
    rw [htask]
    rfl
  have hafter : (Task.received message).reached p (e.events ++ d.raft.trace) =
      lastHanded p d.raft.trace := by
    rw [hev]
    exact Task.reached_received hindex
  refine ⟨⟨?_, ?_⟩, (hbefore.trans hafter.symm).le, Nat.le_refl _⟩
  · rw [hafter, ← hbefore]
    exact h.stands.mono (appliedOps_grows e.events d.raft.trace)
  · rw [hafter]
    exact System.Orderly.lastHanded_mono hrun hdoes hinc

/-- A server follows a step of its peer. -/
theorem Placed.follow (h : Placed p d.raft.trace site₀)
    (hrun : Reach System.step System.Orderly System.init d.raft)
    (hdoes : Does (d.raft.peers p) c e)
    (hsite : SiteOk (appliedOps (e.events ++ d.raft.trace))
      (lastHanded p (e.events ++ d.raft.trace)) site)
    (hfollow : Deployment.follow site₀ (d.raft.peers p) e = some site) :
    Placed p (e.events ++ d.raft.trace) site ∧
      (e.peer.incarnation = (d.raft.peers p).incarnation →
        Forward p d.raft.trace (e.events ++ d.raft.trace) site₀ site) := by
  have hs := System.Reachable.of_reach hrun
  have hme := hs.me p
  cases hdoes.applyStep (hs.saved p) with
  | restarted _ _ _ _ hinc =>
    rw [Deployment.follow, if_pos (by omega)] at hfollow
    obtain ⟨kv, -, rfl⟩ := Option.map_eq_some_iff.mp hfollow
    exact ⟨hsite.placed fun _ hreceived => (by cases hreceived), fun hsame => (by omega)⟩
  | quiet _ _ _ _ _ hinc hev | compacted _ _ _ _ _ _ _ _ hinc hev =>
    obtain ⟨hplaced, hforward⟩ := h.unhanded hinc (Effect.handed_of_quiet hev)
      (handed_of_quiet hev) (startBase_of_quiet hev) hfollow
    exact ⟨hplaced, fun _ => hforward⟩
  | collected _ _ _ heq hev | offered _ _ heq hev | batchDone _ _ _ heq hev =>
    have hinc : e.peer.incarnation = (d.raft.peers p).incarnation := by rw [heq]
    obtain ⟨hplaced, hforward⟩ := h.unhanded hinc (by rw [Effect.handed, hev]; rfl)
      (by rw [hev]; rfl) (by rw [hev]; rfl) hfollow
    exact ⟨hplaced, fun _ => hforward⟩
  | installed _ _ _ _ _ _ _ _ _ _ hinc hev =>
    obtain ⟨hplaced, hforward⟩ := h.unhanded hinc (by rw [Effect.handed, hev]; rfl)
      (by rw [hev]; rfl) (by rw [hev]; rfl) hfollow
    exact ⟨hplaced, fun _ => hforward⟩
  | @sent entries i message hticker heq hev =>
    have hinc : e.peer.incarnation = (d.raft.peers p).incarnation := by rw [heq]
    obtain ⟨hvalid, -⟩ := System.Orderly.offering hrun hticker
    rw [hme] at hev
    obtain ⟨hplaced, hforward⟩ := h.handed hrun hdoes hinc hev (if_pos hvalid) hfollow
    exact ⟨hplaced, fun _ => hforward⟩
  | @installDone message reply hblocked heq hev =>
    have hinc : e.peer.incarnation = (d.raft.peers p).incarnation := by rw [heq]
    obtain ⟨-, hindex⟩ := (System.Orderly.bounded hrun p).installing message reply hblocked
    rw [hme] at hev
    obtain ⟨hplaced, hforward⟩ := h.handed hrun hdoes hinc hev hindex hfollow
    exact ⟨hplaced, fun _ => hforward⟩

end Servers

/-! ## Runs -/

namespace Deployment

variable [RaftGob Op] [KVGob] {d d' : Deployment n} {p q : Fin n}

/-- The sequence has grown, and in its incarnation the server of `p` has not gone back. -/
structure Advances (p : Fin n) (d d' : Deployment n) : Prop where
  incarnation : (d.raft.peers p).incarnation ≤ (d'.raft.peers p).incarnation
  ops : appliedOps d.raft.trace <+: appliedOps d'.raft.trace
  forward : (d'.raft.peers p).incarnation = (d.raft.peers p).incarnation →
    Forward p d.raft.trace d'.raft.trace (d.sites p) (d'.sites p)

omit [RaftGob Op] [KVGob] in
theorem Advances.refl (p : Fin n) (d : Deployment n) : Advances p d d :=
  ⟨Nat.le_refl _, List.prefix_refl _, fun _ => ⟨Nat.le_refl _, Nat.le_refl _⟩⟩

omit [RaftGob Op] [KVGob] in
theorem Advances.trans {d'' : Deployment n} (h : Advances p d d') (h' : Advances p d' d'') :
    Advances p d d'' := by
  refine ⟨h.incarnation.trans h'.incarnation, h.ops.trans h'.ops, fun hsame => ?_⟩
  have hle := h.incarnation
  have hle' := h'.incarnation
  obtain ⟨hreached, happlied⟩ := h.forward (by omega)
  obtain ⟨hreached', happlied'⟩ := h'.forward (by omega)
  exact ⟨hreached.trans hreached', happlied.trans happlied'⟩

omit [RaftGob Op] [KVGob] in
/-- A server moves alone. -/
theorem placed_setSite {site : Site} (h : Placed p d.raft.trace (d.sites p))
    (hsite : q = p → Placed p d.raft.trace site ∧
      Forward p d.raft.trace d.raft.trace (d.sites p) site) :
    Placed p (d.setSite q site).raft.trace ((d.setSite q site).sites p) ∧
      Advances p d (d.setSite q site) := by
  by_cases hq : q = p
  · obtain ⟨hplaced, hforward⟩ := hsite hq
    subst hq
    have hself : (d.setSite q site).sites q = site := Function.update_self ..
    refine ⟨?_, Nat.le_refl _, List.prefix_refl _, fun _ => ?_⟩
    · rw [hself]
      exact hplaced
    · rw [hself]
      exact hforward
  · have hother : (d.setSite q site).sites p = d.sites p := Function.update_of_ne (Ne.symm hq) ..
    refine ⟨?_, Nat.le_refl _, List.prefix_refl _, fun _ => ?_⟩
    · rw [hother]
      exact h
    · rw [hother]
      exact ⟨Nat.le_refl _, Nat.le_refl _⟩

/-- A peer takes a step and its server follows. `site₀` is the server when the step is taken. -/
theorem placed_install {net : List (Packet n Op)} {c : Cause n Op} {e : Effect n Op}
    {site₀ site : Site} (hok : d.ReplicasOk) (hok' : (d.install q net e site).ReplicasOk)
    (h : Placed p d.raft.trace (d.sites p)) (hdoes : Does (d.raft.peers q) c e)
    (hsite : q = p → Placed p d.raft.trace site₀ ∧
      Forward p d.raft.trace d.raft.trace (d.sites p) site₀)
    (hfollow : Deployment.follow site₀ (d.raft.peers q) e = some site) :
    Placed p (d.install q net e site).raft.trace ((d.install q net e site).sites p) ∧
      Advances p d (d.install q net e site) := by
  have hs := System.Reachable.of_reach hok.run
  have hops := appliedOps_grows e.events d.raft.trace
  by_cases hq : q = p
  · obtain ⟨hplaced₀, hforward₀⟩ := hsite hq
    subst hq
    have hself : (d.install q net e site).sites q = site := Function.update_self ..
    have hpeer : (d.install q net e site).raft.peers q = e.peer := System.install_peers_self ..
    have hsite' := hok'.sites q
    rw [hself] at hsite'
    obtain ⟨hplaced, hforward⟩ := hplaced₀.follow hok.run hdoes hsite' hfollow
    refine ⟨?_, ?_, hops, fun hsame => ?_⟩
    · rw [hself]
      exact hplaced
    · rw [hpeer]
      rcases (hdoes.applyStep (hs.saved q)).mono with hinc | ⟨hinc, -⟩ <;> omega
    · rw [hpeer] at hsame
      rw [hself]
      exact ⟨hforward₀.reached.trans (hforward hsame).reached,
        hforward₀.applied.trans (hforward hsame).applied⟩
  · have hother : (d.install q net e site).sites p = d.sites p :=
      Function.update_of_ne (Ne.symm hq) ..
    have hpeer : (d.install q net e site).raft.peers p = d.raft.peers p :=
      System.install_peers_ne _ _ _ _ (Ne.symm hq)
    have hothers : ∀ x ∈ e.events, x.peer ≠ p := by
      intro x hx heq
      exact hq (by rw [← heq, hdoes.peer_of_mem hx, hs.me q])
    obtain ⟨hplaced, hforward⟩ := h.idle (Task.reached_of_others hothers)
      (lastHanded_of_others hothers)
    refine ⟨?_, ?_, hops, fun _ => ?_⟩
    · rw [hother]
      exact hplaced
    · rw [hpeer]
    · rw [hother]
      exact hforward

/-- What one step of a server's own does to it. -/
theorem placed_task (hok : d.ReplicasOk) (hok' : d'.ReplicasOk)
    (h : Placed p d.raft.trace (d.sites p)) (hstep : TaskStep d q d') :
    Placed p d'.raft.trace (d'.sites p) ∧ Advances p d d' := by
  -- the server of `q` after the step is in order; what is left is that it has no message in hand
  have hmoved : ∀ site : Site, (d.setSite q site).ReplicasOk →
      (∀ message, site.task ≠ .received message) →
      (d.sites q).kv.lastApplied ≤ site.kv.lastApplied → q = p →
      Placed p d.raft.trace site ∧ Forward p d.raft.trace d.raft.trace (d.sites p) site := by
    intro site hsite htask happlied hq
    subst hq
    have hsite' := hsite.sites q
    rw [show (d.setSite q site).sites q = site from Function.update_self ..] at hsite'
    exact h.moved hsite' htask happlied
  have hreply : ∀ (kv : KVServer) index message, kv.afterReply index ≠ .received message := by
    intro kv index message
    unfold KVServer.afterReply
    split <;> nofun
  cases hstep with
  | @takenUp message kv task htask htake =>
    obtain ⟨kv', task', htake', -, hlast, hne⟩ := (hok.sites q).takeUp htask
    obtain ⟨rfl, rfl⟩ := Prod.mk.inj (Except.ok.inj (htake.symm.trans htake'))
    obtain ⟨k, hk, hstands⟩ := (hok.sites q).exists_stands
    refine placed_setSite h (hmoved _ hok' hne ?_)
    exact (hstands.applied_le.trans hk).trans hlast.ge
  | panicked htask htake =>
    obtain ⟨kv', task', htake', -⟩ := (hok.sites q).takeUp htask
    cases htake.symm.trans htake'
  | asked => exact placed_setSite h (hmoved _ hok' nofun (Nat.le_refl _))
  | unasked => exact placed_setSite h (hmoved _ hok' (hreply _ _) (Nat.le_refl _))
  | notified _ hsent =>
    exact placed_setSite h (hmoved _ hok' (hreply _ _) (KVServer.notify_store hsent).2.ge)
  | measured =>
    refine placed_setSite h (hmoved _ hok' ?_ (Nat.le_refl _))
    intro message
    unfold KVServer.afterSize
    split <;> nofun
  | @compacted index data e site htask hstep hfollow =>
    refine placed_install hok hok' h (Peer.does_of_step hstep) ?_ hfollow
    rintro rfl
    obtain ⟨-, hkv, -⟩ := (hok.sites q).of_compacting htask
    exact h.moved (.receiving rfl hkv) nofun (Nat.le_refl _)

omit [RaftGob Op] [KVGob] in
/-- Handlers of requests change nothing that matters here. -/
theorem placed_handler {kv : KVServer} (h : Placed p d.raft.trace (d.sites p))
    (hstore : kv.toStore = (d.sites q).kv.toStore)
    (hlast : kv.lastApplied = (d.sites q).kv.lastApplied) :
    Placed p (d.setSite q { d.sites q with kv }).raft.trace
      ((d.setSite q { d.sites q with kv }).sites p) ∧
      Advances p d (d.setSite q { d.sites q with kv }) := by
  refine placed_setSite h ?_
  rintro rfl
  obtain ⟨⟨hstore', happlied, hlen⟩, hle⟩ := h
  exact ⟨⟨⟨hstore.trans hstore', hlast.trans_le happlied, hlen⟩, hle⟩, Nat.le_refl _, hlast.ge⟩

theorem placed_step {m : Move n} (hok : d.ReplicasOk) (hok' : d'.ReplicasOk)
    (h : Placed p d.raft.trace (d.sites p)) (hstep : d.step m = some d') :
    Placed p d'.raft.trace (d'.sites p) ∧ Advances p d d' := by
  cases m with
  | raft a =>
    obtain ⟨q, c, e, site, -, -, he, hfollow, rfl⟩ := raft_cases hstep
    refine placed_install hok hok' h (Peer.does_of_step he) ?_ hfollow
    rintro rfl
    exact ⟨h, Nat.le_refl _, Nat.le_refl _⟩
  | task q => exact placed_task hok hok' h (taskStep_cases hstep)
  | getNotifyChannel q index =>
    obtain ⟨hstore, hlast⟩ := (d.sites q).kv.getNotifyChannel_store index
    rw [step_getNotifyChannel hstep]
    exact placed_handler h hstore hlast
  | removeNotifyChannel q index =>
    rw [step_removeNotifyChannel hstep]
    exact placed_handler h rfl rfl
  | takeReply q ch =>
    rw [step_takeReply hstep]
    exact placed_handler h rfl rfl

/-- Servers of a run are where they should be, and stay so. -/
theorem advances {maxraftstate : ℤ} (h : Reach step Orderly (init maxraftstate) d)
    (hrun : Reach step Orderly d d') (p : Fin n) :
    Placed p d.raft.trace (d.sites p) ∧ Placed p d'.raft.trace (d'.sites p) ∧ Advances p d d' := by
  have hstep : ∀ (t : Deployment n) m u, (t.ReplicasOk ∧ Placed p t.raft.trace (t.sites p)) →
      t.Orderly m → t.step m = some u →
      (u.ReplicasOk ∧ Placed p u.raft.trace (u.sites p)) ∧ Advances p t u := by
    rintro t m u ⟨hok, ht⟩ hm hu
    have hok' := hok.step hm hu
    obtain ⟨hplaced, hadvances⟩ := placed_step hok hok' ht hu
    exact ⟨⟨hok', hplaced⟩, hadvances⟩
  have hinv : ∀ {t u : Deployment n}, Reach step Orderly t u →
      (t.ReplicasOk ∧ Placed p t.raft.trace (t.sites p)) →
      u.ReplicasOk ∧ Placed p u.raft.trace (u.sites p) := by
    intro t u htu ht
    exact htu.invariant (I := fun t => t.ReplicasOk ∧ Placed p t.raft.trace (t.sites p))
      (fun t m u hI hm hu => (hstep t m u hI hm hu).1) ht
  have hinit := replicasOk (Reach.refl (init maxraftstate : Deployment n))
  have hd := hinv h ⟨hinit, (hinit.sites p).placed nofun⟩
  exact ⟨hd.2, (hinv hrun hd).2, hrun.relation (Advances.refl p) (fun _ _ _ => Advances.trans)
    hstep hd⟩

/-- In every run of a deployment whose cluster steps break no log and install no snapshot out of
turn, and in which no request is altered before it is encoded: a snapshot that `InstallSnapshot`
puts on `applyCh` is not behind any index handed over before in the incarnation; and from one state
of the run to a later one of the same incarnation, `lastApplied` of a server does not decrease, the
index that the server has come to does not decrease, and at both times its store is that of the one
sequence up to this index. So what the server has applied stays applied. -/
theorem snapshot_never_rewinds {maxraftstate : ℤ} {x y : Sharing n Op (Deployment n)}
    (hx : (host n).SharesUnaltered Orderly (init maxraftstate) x)
    (hy : Reach (host n).sharingStep ((host n).Unaltered Orderly) x y) (p : Fin n) :
    (∀ msg tr, (.applied p msg :: tr) <:+ y.state.raft.trace → msg.snapshotValid = true →
      ∀ i ∈ handed p tr, i ≤ msg.snapshotIndex) ∧
    ((y.state.raft.peers p).incarnation = (x.state.raft.peers p).incarnation →
      (x.state.sites p).kv.lastApplied ≤ (y.state.sites p).kv.lastApplied ∧
      x.state.reached p ≤ y.state.reached p ∧
      y.state.reached p ≤ (appliedOps y.state.raft.trace).length ∧
      (x.state.sites p).kv.toStore =
        Store.replay ((appliedOps y.state.raft.trace).take (x.state.reached p)) ∧
      (y.state.sites p).kv.toStore =
        Store.replay ((appliedOps y.state.raft.trace).take (y.state.reached p))) := by
  have hreach := Host.reach_of_unaltered hx
  have hrun : Reach step Orderly x.state y.state := Host.reach_state hy
  have hinTurn := (replicasOk (hreach.trans hrun)).run.mono (fun _ _ hok => hok.2.1)
  obtain ⟨hplaced, hplaced', hadvances⟩ := advances hreach hrun p
  refine ⟨fun msg tr htr hvalid => System.handed_le_snapshotIndex hinTurn htr hvalid,
    fun hsame => ?_⟩
  obtain ⟨hreached, happlied⟩ := hadvances.forward hsame
  exact ⟨happlied, hreached, hplaced'.stands.le_length,
    (hplaced.stands.mono hadvances.ops).store, hplaced'.stands.store⟩

end Deployment

/-- The `k`-th append of a client to its key. -/
def appendOp (seqId : ℤ) (value : String) : Op :=
  { key := "k", value, opType := .opAppend, clientId := 1, seqId }

namespace Deployment

/-- Peer `1` is handed the append of `a`, and its server applies it. -/
def untilApplied : List (Move 3) :=
  [.raft (.act 0 .tickerStep), .raft (.act 1 .tickerStep), .raft (.act 0 .electionTimeout),
    .raft (.act 0 (.startElection 0)), .raft (.deliver 0), .raft (.deliver 1),
    .raft (.act 0 (.start (appendOp 0 "a"))), .raft (.act 0 (.replicationTick 0)),
    .raft (.deliver 1), .raft (.deliver 2), .raft (.act 0 (.replicationTick 0)), .raft (.deliver 2),
    .raft (.act 1 .tickerStep), .raft (.act 1 .tickerStep), .raft (.act 1 .tickerStep), .task 1,
    .task 1, .task 1, .task 1, .raft (.act 1 .tickerStep)]

/-- Peer `0` compacts the append of `b` as well, and peer `1` takes the snapshot. -/
def untilAhead : List (Move 3) :=
  [.raft (.act 0 (.start (appendOp 1 "b"))), .raft (.act 0 (.replicationTick 0)),
    .raft (.deliver 5), .raft (.deliver 5), .raft (.act 0 .tickerStep),
    .raft (.act 0 .tickerStep), .raft (.act 0 .tickerStep), .task 0, .task 0, .task 0, .task 0,
    .task 0, .raft (.act 0 .tickerStep), .raft (.act 0 .tickerStep), .task 0, .task 0, .task 0,
    .task 0, .task 0, .raft (.act 0 (.replicationTick 0)), .raft (.deliver 5),
    .raft (.act 1 .finishInstall), .task 1]

/-- The server of peer `1` has applied the first command, and then takes a snapshot of the first
two: it comes from index 1 to index 2. -/
theorem snapshot_never_rewinds_ahead : ∃ x y : Sharing 3 Op (Deployment 3),
    (host 3).SharesUnaltered Orderly (init 0) x ∧
    Reach (host 3).sharingStep ((host 3).Unaltered Orderly) x y ∧
    handed 1 y.state.raft.trace = [2, 1] ∧ x.state.reached 1 = 1 ∧ y.state.reached 1 = 2 ∧
    (x.state.sites 1).kv.toStore = Store.replay ((appliedOps y.state.raft.trace).take 1) ∧
    (y.state.sites 1).kv.toStore = Store.replay ((appliedOps y.state.raft.trace).take 2) := by
  have hrun : ∃ d : Deployment 3, Reach step Orderly (init 0) d ∧ (d.reached 1 = 1 ∧
      (exec step Orderly untilAhead d).any (fun d' => decide (handed 1 d'.raft.trace = [2, 1] ∧
        d'.reached 1 = 2 ∧ (d'.raft.peers 1).incarnation = (d.raft.peers 1).incarnation)) = true) :=
    Reach.exists_of_exec untilApplied (by decide +kernel)
  obtain ⟨d, hd, hreached, hmore⟩ := hrun
  obtain ⟨d', hd', hhanded, hreached', hsame⟩ := Reach.exists_of_exec untilAhead hmore
  obtain ⟨x, hx, rfl, hsettled⟩ := ((host 3).settled_share (s := init 0) (Reach.refl _)).reach hd
  obtain ⟨y, hy, rfl, -⟩ := hsettled.reach hd'
  obtain ⟨-, -, -, hstore, hstore'⟩ := (snapshot_never_rewinds hx hy 1).2 hsame
  rw [hreached] at hstore
  rw [hreached'] at hstore'
  exact ⟨x, y, hx, hy, hhanded, hreached, hreached', hstore, hstore'⟩

/-- Peer `0` compacts index 1, and peer `1` is sent this snapshot although two commands are on their
way to it. They arrive first, and its server applies them. -/
def untilCaughtUp : List (Move 3) :=
  [.raft (.act 0 .tickerStep), .raft (.act 1 .tickerStep), .raft (.act 0 .electionTimeout),
    .raft (.act 0 (.startElection 0)), .raft (.deliver 0), .raft (.deliver 1),
    .raft (.act 0 (.start (appendOp 0 "a"))), .raft (.act 0 (.start (appendOp 1 "b"))),
    .raft (.act 0 (.replicationTick 0)), .raft (.deliver 2), .raft (.deliver 2),
    .raft (.act 0 (.replicationTick 0)), .raft (.act 0 (.start (appendOp 2 "c"))),
    .raft (.act 0 .tickerStep), .raft (.act 0 .tickerStep), .raft (.act 0 .tickerStep), .task 0,
    .task 0, .task 0, .task 0, .task 0, .raft (.act 0 (.replicationTick 0)), .raft (.deliver 2),
    .raft (.act 1 .tickerStep), .raft (.act 1 .tickerStep), .raft (.act 1 .tickerStep), .task 1,
    .task 1, .task 1, .raft (.act 1 .tickerStep), .raft (.act 1 .tickerStep), .task 1, .task 1,
    .task 1, .raft (.act 1 .tickerStep), .raft (.act 1 .tickerStep)]

/-- The snapshot arrives. -/
def untilRewound : List (Move 3) := [.raft (.deliver 3), .raft (.act 1 .finishInstall), .task 1]

/-- The third command is committed and applied. -/
def untilResumed : List (Move 3) :=
  [.raft (.deliver 5), .raft (.act 0 (.replicationTick 0)), .raft (.deliver 5), .raft (.deliver 6),
    .raft (.act 0 (.replicationTick 0)), .raft (.deliver 6), .raft (.act 1 .tickerStep),
    .raft (.act 1 .tickerStep), .raft (.act 1 .tickerStep), .task 1, .task 1, .task 1]

/-- The server of peer `1` has applied the appends of `a` and `b` when a snapshot of the first one
arrives. It goes back to index 1, while the `lastApplied` of its `Raft` stays 2: the next command it
is handed is the append of `c`, at index 3. The append of `b` is lost. -/
theorem rewound_server : ∃ x y z : Sharing 3 Op (Deployment 3),
    (host 3).Shares (fun _ _ => True) (init 600) x ∧
    Reach (host 3).sharingStep (Host.Meets fun _ _ => True) x y ∧
    Reach (host 3).sharingStep (Host.Meets fun _ _ => True) y z ∧
    (z.state.raft.peers 1).incarnation = (x.state.raft.peers 1).incarnation ∧
    (x.state.sites 1).kv.lastApplied = 2 ∧
    (x.state.sites 1).kv.stateMachine.get "k" = ("ab", .ok) ∧
    (y.state.sites 1).kv.lastApplied = 1 ∧
    (y.state.sites 1).kv.stateMachine.get "k" = ("a", .ok) ∧
    handed 1 z.state.raft.trace = [3, 1, 2, 1] ∧
    (z.state.sites 1).kv.stateMachine.get "k" = ("ac", .ok) := by
  have hrun : ∃ d : Deployment 3, Reach step (fun _ _ => True) (init 600) d ∧
      ((d.sites 1).kv.lastApplied = 2 ∧ (d.sites 1).kv.stateMachine.get "k" = ("ab", .ok) ∧
        (exec step (fun _ _ => True) untilRewound d).any (fun d' =>
          decide ((d'.sites 1).kv.lastApplied = 1 ∧
            (d'.sites 1).kv.stateMachine.get "k" = ("a", .ok) ∧
            (exec step (fun _ _ => True) untilResumed d').any (fun d'' =>
              decide ((d''.raft.peers 1).incarnation = (d.raft.peers 1).incarnation ∧
                handed 1 d''.raft.trace = [3, 1, 2, 1] ∧
                (d''.sites 1).kv.stateMachine.get "k" = ("ac", .ok))) = true)) = true) :=
    Reach.exists_of_exec untilCaughtUp (by decide +kernel)
  obtain ⟨d, hd, hlast, hget, hmore⟩ := hrun
  obtain ⟨d', hd', hlast', hget', hmore'⟩ := Reach.exists_of_exec untilRewound hmore
  obtain ⟨d'', hd'', hsame, hhanded, hget''⟩ := Reach.exists_of_exec untilResumed hmore'
  obtain ⟨x, hx, rfl, hsettled⟩ := ((host 3).settled_share (s := init 600) (Reach.refl _)).reach hd
  obtain ⟨y, hy, rfl, hsettled'⟩ := hsettled.reach hd'
  obtain ⟨z, hz, rfl, -⟩ := hsettled'.reach hd''
  exact ⟨x, y, z, Host.meets_of_unaltered hx, Host.meets_of_unaltered hy,
    Host.meets_of_unaltered hz, hsame, hlast, hget, hlast', hget', hhanded, hget''⟩

end Deployment

end LogicRaft
