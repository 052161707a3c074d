import LogicRaft.Cluster.AppliedLog
import LogicRaft.Cluster.Pairing
import LogicRaft.KV.Answers
import LogicRaft.KV.Channels

/-!
# Every server is a replica of the one sequence

The cluster below the servers hands out one sequence of commands (`appliedLog`). Here the servers
are put on top of it: in every run of a deployment whose cluster steps break no log and install no
snapshot out of turn, and in which requests are sent as they were built, a server whose `applyTask`
is at its `select` has the store of a replay of this sequence up to the last index it was handed, no
matter which snapshots, crashes and restarts it went through (`replicas_agree`).

Snapshots carry this from server to server. `applyTask` makes one of its own store, so its bytes are
those of a replay up to the index it names; Raft keeps bytes and index together on their way
(`System.SnapshotsOk`), and whoever restores them has the replay again. That `applyTask` compacts
only what it was handed, which the cluster has to assume of its services (`ServiceOk`), is shown
here.
-/

namespace LogicRaft

variable {n : ℕ}

/-- The commands that services have been handed so far, by index. -/
def appliedOps (tr : List (Event n Op)) : List Op := (appliedLog tr).filterMap LogRecord.command

theorem appliedOps_grows (ev tr : List (Event n Op)) : appliedOps tr <+: appliedOps (ev ++ tr) :=
  (appliedLog_grows ev tr).filterMap _

namespace System

variable [RaftGob Op] {s : System n Op} (h : Reach System.step Orderly init s)

include h

theorem Orderly.isSome_command : ∀ r ∈ appliedLog s.trace, r.command.isSome = true := by
  intro r hr
  obtain ⟨k, hk⟩ := List.mem_iff_getElem?.mp hr
  obtain ⟨q, command, -, hcommand⟩ := Orderly.accepted_of_applied h hk
  rw [hcommand]
  rfl

/-- Every entry of the sequence is a command. -/
theorem Orderly.appliedOps_get (k : ℕ) :
    (appliedOps s.trace)[k]? = (appliedLog s.trace)[k]?.bind LogRecord.command :=
  getElem?_filterMap_of_isSome (Orderly.isSome_command h) k

theorem Orderly.length_appliedOps : (appliedOps s.trace).length = (appliedLog s.trace).length :=
  List.filterMap_length_eq_length.mpr (Orderly.isSome_command h)

end System

/-! ## Servers along the sequence -/

/-- The store of the server is that of the commands up to index `k`. -/
structure Stands (ops : List Op) (k : ℕ) (kv : KVServer) : Prop where
  store : kv.toStore = Store.replay (ops.take k)
  applied_le : kv.lastApplied ≤ k
  le_length : k ≤ ops.length

theorem Stands.mono {ops ops' : List Op} {k : ℕ} {kv : KVServer} (h : Stands ops k kv)
    (hpre : ops <+: ops') : Stands ops' k kv := by
  refine ⟨?_, h.applied_le, h.le_length.trans hpre.length_le⟩
  rw [take_of_grown hpre h.le_length]
  exact h.store

section Snapshots

variable [KVGob]

/-- The bytes of a snapshot of the commands up to index `i`; there is none of no commands. -/
def SnapshotOf (ops : List Op) (i : ℕ) (data : Bytes) : Prop :=
  (i = 0 ∧ data = []) ∨ (i ≤ ops.length ∧ data = (Store.replay (ops.take i)).makeSnapshot)

theorem SnapshotOf.mono {ops ops' : List Op} {i : ℕ} {data : Bytes} (h : SnapshotOf ops i data)
    (hpre : ops <+: ops') : SnapshotOf ops' i data := by
  rcases h with hnone | ⟨hle, hdata⟩
  · exact Or.inl hnone
  · refine Or.inr ⟨hle.trans hpre.length_le, ?_⟩
    rwa [take_of_grown hpre hle]

theorem SnapshotOf.eq_zero {ops : List Op} {i : ℕ} (h : SnapshotOf ops i []) : i = 0 := by
  rcases h with ⟨hi, -⟩ | ⟨-, hdata⟩
  · exact hi
  · exact absurd hdata.symm (Store.makeSnapshot_ne_nil _)

theorem SnapshotOf.eq_makeSnapshot {ops : List Op} {i : ℕ} {data : Bytes}
    (h : SnapshotOf ops i data) (hpos : 0 < i) :
    i ≤ ops.length ∧ data = (Store.replay (ops.take i)).makeSnapshot := by
  rcases h with ⟨hi, -⟩ | hdata
  · omega
  · exact hdata

/-- `StartKVServer` on a snapshot of the commands up to `i`. -/
theorem SnapshotOf.start {ops : List Op} {i : ℕ} {data : Bytes} (h : SnapshotOf ops i data)
    (maxraftstate : ℤ) : ∃ kv, KVServer.start maxraftstate data = some kv ∧ Stands ops i kv := by
  rcases h with ⟨rfl, rfl⟩ | ⟨hle, rfl⟩
  · exact ⟨{ maxraftstate }, rfl, by rw [List.take_zero]; rfl, Nat.le_refl 0, Nat.zero_le _⟩
  · refine ⟨{ toStore := Store.replay (ops.take i), maxraftstate }, ?_, rfl, Nat.zero_le _, hle⟩
    rw [KVServer.start, Store.restoreFromSnapshot_makeSnapshot, Option.map_some]

end Snapshots

section Sites

variable [KVGob]

/-- Where `applyTask` stands, if `last` is the last index the server was handed: what it has in hand
belongs to the sequence. -/
inductive SiteOk (ops : List Op) (last : ℕ) (site : Site) : Prop
  | receiving (htask : site.task = .receiving) (hkv : Stands ops last site.kv)
  | command {message : ApplyMsg Op} {k : ℕ} {op : Op} (htask : site.task = .received message)
      (hkv : Stands ops k site.kv) (hlast : last = k + 1) (hvalid : message.commandValid = true)
      (hindex : message.commandIndex = last) (hcommand : message.command = some op)
      (hop : ops[k]? = some op)
  | snapshot {message : ApplyMsg Op} {k : ℕ} (htask : site.task = .received message)
      (hkv : Stands ops k site.kv) (hle : k ≤ last) (hvalid : message.commandValid = false)
      (hsnapshot : message.snapshotValid = true) (hindex : message.snapshotIndex = last)
      (hlen : last ≤ ops.length)
      (hdata : message.snapshot = (Store.replay (ops.take last)).makeSnapshot)
  | replying {op : Op} {opReply : OpReply}
      (htask : site.task = .asking last opReply ∨ site.task = .notifying last opReply)
      (hkv : Stands ops last site.kv) (hanswer : Answer ops last op opReply)
  | measuring (htask : site.task = .measuring last) (hkv : Stands ops last site.kv)
    (hpos : 0 < last)
  | compacting {data : Bytes} (htask : site.task = .compacting last data)
      (hkv : Stands ops last site.kv) (hpos : 0 < last)
      (hdata : data = (Store.replay (ops.take last)).makeSnapshot)

namespace SiteOk

variable {ops ops' : List Op} {last : ℕ} {site : Site}

/-- The store is always that of some beginning of what the server was handed. -/
theorem exists_stands (h : SiteOk ops last site) : ∃ k ≤ last, Stands ops k site.kv := by
  cases h with
  | receiving _ hkv | replying _ hkv | measuring _ hkv | compacting _ hkv =>
    exact ⟨last, Nat.le_refl _, hkv⟩
  | command _ hkv hlast => exact ⟨_, by omega, hkv⟩
  | snapshot _ hkv hle => exact ⟨_, hle, hkv⟩

theorem of_receiving (h : SiteOk ops last site) (htask : site.task = .receiving) :
    Stands ops last site.kv := by
  cases h with
  | receiving _ hkv => exact hkv
  | replying htask' =>
    rw [htask] at htask'
    rcases htask' with htask' | htask' <;> cases htask'
  | command htask' | snapshot htask' | measuring htask' | compacting htask' =>
    rw [htask] at htask'
    cases htask'

theorem of_replying (h : SiteOk ops last site) {index : ℕ} {opReply : OpReply}
    (htask : site.task = .asking index opReply ∨ site.task = .notifying index opReply) :
    index = last ∧ Stands ops last site.kv ∧ ∃ op, Answer ops last op opReply := by
  cases h with
  | @replying op opReply' htask' hkv hanswer =>
    have hsame : index = last ∧ opReply = opReply' := by
      rcases htask with htask | htask <;> rw [htask] at htask' <;> simpa using htask'
    obtain ⟨rfl, rfl⟩ := hsame
    exact ⟨rfl, hkv, op, hanswer⟩
  | receiving htask' | command htask' | snapshot htask' | measuring htask' | compacting htask' =>
    rw [htask'] at htask
    rcases htask with htask | htask <;> cases htask

theorem of_measuring (h : SiteOk ops last site) {index : ℕ} (htask : site.task = .measuring index) :
    index = last ∧ 0 < last ∧ Stands ops last site.kv := by
  cases h with
  | measuring htask' hkv hpos => exact ⟨Task.measuring.inj (htask.symm.trans htask'), hpos, hkv⟩
  | replying htask' =>
    rw [htask] at htask'
    rcases htask' with htask' | htask' <;> cases htask'
  | receiving htask' | command htask' | snapshot htask' | compacting htask' =>
    rw [htask] at htask'
    cases htask'

theorem of_compacting (h : SiteOk ops last site) {index : ℕ} {data : Bytes}
    (htask : site.task = .compacting index data) :
    index = last ∧ Stands ops last site.kv ∧ SnapshotOf ops last data := by
  cases h with
  | compacting htask' hkv _ hdata =>
    obtain ⟨rfl, rfl⟩ := Task.compacting.inj (htask.symm.trans htask')
    exact ⟨rfl, hkv, Or.inr ⟨hkv.le_length, hdata⟩⟩
  | replying htask' =>
    rw [htask] at htask'
    rcases htask' with htask' | htask' <;> cases htask'
  | receiving htask' | command htask' | snapshot htask' | measuring htask' =>
    rw [htask] at htask'
    cases htask'

theorem mono (h : SiteOk ops last site) (hpre : ops <+: ops') : SiteOk ops' last site := by
  cases h with
  | receiving htask hkv => exact .receiving htask (hkv.mono hpre)
  | command htask hkv hlast hvalid hindex hcommand hop =>
    exact .command htask (hkv.mono hpre) hlast hvalid hindex hcommand (getElem?_of_grown hpre hop)
  | snapshot htask hkv hle hvalid hsnapshot hindex hlen hdata =>
    refine .snapshot htask (hkv.mono hpre) hle hvalid hsnapshot hindex
      (hlen.trans hpre.length_le) ?_
    rwa [take_of_grown hpre hlen]
  | replying htask hkv hanswer => exact .replying htask (hkv.mono hpre) (hanswer.mono hpre)
  | measuring htask hkv hpos => exact .measuring htask (hkv.mono hpre) hpos
  | compacting htask hkv hpos hdata =>
    refine .compacting htask (hkv.mono hpre) hpos ?_
    rwa [take_of_grown hpre hkv.le_length]

/-- Handlers change nothing but channels. -/
theorem congr (h : SiteOk ops last site) {kv : KVServer} (hstore : kv.toStore = site.kv.toStore)
    (hlast : kv.lastApplied = site.kv.lastApplied) : SiteOk ops last { site with kv } := by
  have hstands : ∀ {k}, Stands ops k site.kv → Stands ops k kv := by
    intro k hkv
    exact ⟨hstore.trans hkv.store, hlast.trans_le hkv.applied_le, hkv.le_length⟩
  cases h with
  | receiving htask hkv => exact .receiving htask (hstands hkv)
  | command htask hkv hlast hvalid hindex hcommand hop =>
    exact .command htask (hstands hkv) hlast hvalid hindex hcommand hop
  | snapshot htask hkv hle hvalid hsnapshot hindex hlen hdata =>
    exact .snapshot htask (hstands hkv) hle hvalid hsnapshot hindex hlen hdata
  | replying htask hkv hanswer => exact .replying htask (hstands hkv) hanswer
  | measuring htask hkv hpos => exact .measuring htask (hstands hkv) hpos
  | compacting htask hkv hpos hdata => exact .compacting htask (hstands hkv) hpos hdata

/-- `applyTask` takes a message up without a panic: a command extends the replay, a snapshot
replaces the store by the replay up to its index. -/
theorem takeUp (h : SiteOk ops last site) {message : ApplyMsg Op}
    (htask : site.task = .received message) :
    ∃ kv task, site.kv.takeUp message = .ok (kv, task) ∧ SiteOk ops last { kv, task } ∧
      kv.lastApplied = last ∧ ∀ m, task ≠ .received m := by
  cases h with
  | @command message' k op htask' hkv hlast hvalid hindex hcommand hop =>
    obtain rfl := Task.received.inj (htask.symm.trans htask')
    have hnew : ¬ message.commandIndex ≤ site.kv.lastApplied := by
      have := hkv.applied_le
      omega
    refine ⟨site.kv.execute message.commandIndex op,
      .asking message.commandIndex (site.kv.toStore.applyOp op).2, ?_, ?_, hindex, nofun⟩
    · simp [KVServer.takeUp, hvalid, hnew, hcommand]
    · have htake : ops.take last = ops.take k ++ [op] := by
        rw [hlast, List.take_add_one, hop]
        rfl
      obtain ⟨hlt, -⟩ := List.getElem?_eq_some_iff.mp hop
      rw [hindex]
      refine .replying (Or.inl rfl) ⟨?_, Nat.le_refl _, by omega⟩
        ⟨k, hlast, hop, congrArg (fun st => (st.applyOp op).2) hkv.store⟩
      rw [htake, Store.replay_append, ← hkv.store]
      rfl
  | snapshot htask' _ _ hvalid hsnapshot hindex hlen hdata =>
    obtain rfl := Task.received.inj (htask.symm.trans htask')
    refine ⟨{ site.kv with
      toStore := Store.replay (ops.take last), lastApplied := message.snapshotIndex }, .receiving,
      ?_, .receiving rfl ⟨rfl, Nat.le_of_eq hindex, hlen⟩, hindex, nofun⟩
    simp [KVServer.takeUp, hvalid, hsnapshot, hdata]
  | replying htask' =>
    rw [htask] at htask'
    rcases htask' with htask' | htask' <;> cases htask'
  | receiving htask' | measuring htask' | compacting htask' =>
    rw [htask] at htask'
    cases htask'

theorem afterReply {kv : KVServer} (hkv : Stands ops last kv) (hpos : 0 < last) :
    SiteOk ops last { kv, task := kv.afterReply last } := by
  unfold KVServer.afterReply
  split
  · exact .measuring rfl hkv hpos
  · exact .receiving rfl hkv

theorem afterSize {kv : KVServer} (hkv : Stands ops last kv) (hpos : 0 < last) (size : ℕ) :
    SiteOk ops last { kv, task := kv.afterSize size last } := by
  unfold KVServer.afterSize
  split
  · exact .compacting rfl hkv hpos (by rw [hkv.store])
  · exact .receiving rfl hkv

end SiteOk

end Sites

/-! ## Steps of `applyTask` -/

section Task

variable [RaftGob Op] [KVGob] {d d' : Deployment n} {p : Fin n}

/-- Everything the next step of `applyTask` can be, with what it has found. -/
inductive TaskStep (d : Deployment n) (p : Fin n) : Deployment n → Prop
  | takenUp {message : ApplyMsg Op} {kv : KVServer} {task : Task}
      (htask : (d.sites p).task = .received message)
      (htake : (d.sites p).kv.takeUp message = .ok (kv, task)) :
      TaskStep d p (d.setSite p { kv, task })
  | panicked {message : ApplyMsg Op} {fault : Fault} {d' : Deployment n}
      (htask : (d.sites p).task = .received message)
      (htake : (d.sites p).kv.takeUp message = .error fault) : TaskStep d p d'
  | asked {index : ℕ} {opReply : OpReply} (htask : (d.sites p).task = .asking index opReply)
      (hfree : (d.raft.peers p).muFree) (hrole : (d.raft.peers p).rf.role = .leader) :
      TaskStep d p (d.setSite p { d.sites p with task := .notifying index opReply })
  | unasked {index : ℕ} {opReply : OpReply} (htask : (d.sites p).task = .asking index opReply) :
      TaskStep d p (d.setSite p { d.sites p with task := (d.sites p).kv.afterReply index })
  | notified {index : ℕ} {opReply : OpReply} {kv : KVServer}
      (htask : (d.sites p).task = .notifying index opReply)
      (hsent : (d.sites p).kv.notify true index opReply = .ok kv) :
      TaskStep d p (d.setSite p { kv, task := kv.afterReply index })
  | measured {index size : ℕ} (htask : (d.sites p).task = .measuring index) :
      TaskStep d p (d.setSite p { d.sites p with task := (d.sites p).kv.afterSize size index })
  | compacted {index : ℕ} {data : Bytes} {e : Effect n Op} {site : Site}
      (htask : (d.sites p).task = .compacting index data)
      (hstep : (d.raft.peers p).step (.own (.snapshot index (some data))) = some e)
      (hfollow : Deployment.follow { kv := (d.sites p).kv } (d.raft.peers p) e = some site) :
      TaskStep d p (d.install p d.raft.net e site)

theorem Deployment.taskStep_cases (h : d.step (.task p) = some d') : TaskStep d p d' := by
  simp only [step] at h
  unfold taskStep at h
  dsimp only at h
  cases htask : (d.sites p).task with
  | receiving =>
    rw [htask] at h
    cases h
  | received message =>
    rw [htask] at h
    dsimp only at h
    split at h
    case h_1 htake =>
      obtain rfl := Option.some.inj h
      exact .takenUp htask htake
    case h_2 htake => exact .panicked htask htake
  | asking index opReply =>
    rw [htask] at h
    dsimp only at h
    split at h
    case isTrue hfree =>
      obtain rfl := Option.some.inj h
      split
      case isTrue hleader => exact .asked htask hfree (by simpa [Raft.getState] using hleader)
      case isFalse => exact .unasked htask
    case isFalse => cases h
  | notifying index opReply =>
    rw [htask] at h
    dsimp only at h
    split at h
    case h_1 hsent =>
      obtain rfl := Option.some.inj h
      exact .notified htask hsent
    case h_2 => cases h
  | measuring index =>
    rw [htask] at h
    dsimp only at h
    split at h
    case isTrue =>
      obtain rfl := Option.some.inj h
      exact .measured htask
    case isFalse => cases h
  | compacting index data =>
    rw [htask] at h
    obtain ⟨e, he, hmap⟩ := Option.bind_eq_some_iff.mp h
    obtain ⟨site, hfollow, rfl⟩ := Option.map_eq_some_iff.mp hmap
    exact .compacted htask he hfollow

end Task

/-! ## Runs of the deployment -/

section Runs

variable [RaftGob Op] [KVGob] {d d' : Deployment n} {p : Fin n} {a : Action n Op} {c : Cause n Op}
  {e : Effect n Op} {site₀ site : Site}

omit [RaftGob Op] in
/-- A message is handed over only to an `applyTask` at its `select`. -/
theorem receiving_of_follow (h : Deployment.follow site₀ (d.raft.peers p) e = some site)
    (hinc : e.peer.incarnation = (d.raft.peers p).incarnation) {q : Fin n} {message : ApplyMsg Op}
    (hev : e.events = [.applied q message]) :
    site₀.task = .receiving ∧ site = { site₀ with task := .received message } := by
  have hhanded : e.handed = some message := by
    rw [Effect.handed, hev]
    rfl
  rw [Deployment.follow, if_neg (not_not.mpr hinc), hhanded] at h
  dsimp only at h
  split at h
  case isTrue htask => exact ⟨htask, (Option.some.inj h).symm⟩
  case isFalse => cases h

namespace Deployment

/-- A step of the cluster breaks no log and installs no snapshot out of turn. -/
def Orderly (d : Deployment n) : Move n → Prop
  | .raft a => d.raft.LogSafe a ∧ d.raft.InTurn a
  | _ => True

instance (d : Deployment n) (m : Move n) : Decidable (d.Orderly m) :=
  match m with
  | .raft a => inferInstanceAs (Decidable (d.raft.LogSafe a ∧ d.raft.InTurn a))
  | .task _ | .getNotifyChannel .. | .removeNotifyChannel .. | .takeReply .. => .isTrue trivial

/-- The cluster runs in order, all snapshots are those of the sequence, and so are the servers. -/
structure ReplicasOk (d : Deployment n) : Prop where
  run : Reach System.step System.Orderly System.init d.raft
  snapshots : d.raft.SnapshotsOk (SnapshotOf (appliedOps d.raft.trace))
  sites : ∀ p, SiteOk (appliedOps d.raft.trace) (lastHanded p d.raft.trace) (d.sites p)

namespace ReplicasOk

/-- A server follows a step of its peer. -/
theorem follow (h : d.ReplicasOk)
    (hrun : Reach System.step System.Orderly System.init (d.raft.install p (d.raft.inFlight a) e))
    (hdoes : Does (d.raft.peers p) c e)
    (hsaved : SnapshotOf (appliedOps (e.events ++ d.raft.trace)) e.peer.rf.log.base
      e.peer.rf.persister.snapshot)
    (hsite : SiteOk (appliedOps d.raft.trace) (lastHanded p d.raft.trace) site₀)
    (hfollow : Deployment.follow site₀ (d.raft.peers p) e = some site) :
    SiteOk (appliedOps (e.events ++ d.raft.trace))
      (lastHanded p (e.events ++ d.raft.trace)) site := by
  have hs := System.Reachable.of_reach h.run
  have hpre := appliedOps_grows e.events d.raft.trace
  have hme := hs.me p
  cases hdoes.applyStep (hs.saved p) with
  | restarted _ _ _ _ hinc hev =>
    rw [Deployment.follow, if_pos (by omega)] at hfollow
    obtain ⟨kv, hkv, rfl⟩ := Option.map_eq_some_iff.mp hfollow
    obtain ⟨kv', hkv', hstands⟩ := hsaved.start site₀.kv.maxraftstate
    obtain rfl := Option.some.inj (hkv.symm.trans hkv')
    refine .receiving rfl ?_
    rw [hev, hme] at hstands ⊢
    rwa [List.singleton_append, lastHanded_restarted]
  | quiet _ _ _ _ _ hinc hev | compacted _ _ _ _ _ _ _ _ hinc hev =>
    rw [follow_of_handed_none hfollow hinc (Effect.handed_of_quiet hev), lastHanded_of_quiet hev]
    exact hsite.mono hpre
  | collected _ _ _ heq hev | offered _ _ heq hev | batchDone _ _ _ heq hev =>
    have hinc : e.peer.incarnation = (d.raft.peers p).incarnation := by rw [heq]
    have hnone : e.handed = none := by rw [Effect.handed, hev]; rfl
    rw [follow_of_handed_none hfollow hinc hnone]
    rw [hev] at hpre ⊢
    exact hsite.mono hpre
  | installed _ _ _ _ _ _ _ _ _ _ hinc hev =>
    have hnone : e.handed = none := by rw [Effect.handed, hev]; rfl
    rw [follow_of_handed_none hfollow hinc hnone]
    rw [hev] at hpre ⊢
    exact hsite.mono hpre
  | @sent entries i message hticker heq hev =>
    -- the next command of the sequence
    have hinc : e.peer.incarnation = (d.raft.peers p).incarnation := by rw [heq]
    obtain ⟨htask, rfl⟩ := receiving_of_follow hfollow hinc hev
    obtain ⟨hvalid, hnext, r, hr, hcommand⟩ := System.Orderly.offering h.run hticker
    have hindex : message.index? = some message.commandIndex := if_pos hvalid
    have hlast : lastHanded p (e.events ++ d.raft.trace) = lastHanded p d.raft.trace + 1 := by
      rw [hev, hme, List.singleton_append, lastHanded_applied hindex, hnext]
    have hlog : (appliedLog (e.events ++ d.raft.trace))[lastHanded p d.raft.trace]? = some r := by
      rw [hev, hme]
      exact hr
    obtain ⟨q, op, -, hop⟩ := System.Orderly.accepted_of_applied hrun hlog
    have hget := System.Orderly.appliedOps_get hrun (lastHanded p d.raft.trace)
    rw [System.install_trace, hlog, Option.bind_some, hop] at hget
    exact .command rfl ((hsite.of_receiving htask).mono hpre) hlast hvalid
      (hnext.trans hlast.symm) (hcommand.symm.trans hop) hget
  | @installDone message reply hblocked heq hev =>
    -- a snapshot, from where the service stands or from ahead of it
    have hinc : e.peer.incarnation = (d.raft.peers p).incarnation := by rw [heq]
    obtain ⟨htask, rfl⟩ := receiving_of_follow hfollow hinc hev
    obtain ⟨hprogress, hindex⟩ := (System.Orderly.bounded h.run p).installing message reply hblocked
    obtain ⟨hpos, hdata⟩ := h.snapshots.installing p message reply hblocked
    have hposition := System.Orderly.lastHanded_le_position h.run p
    rw [Raft.position, hprogress] at hposition
    obtain ⟨term, args, x, rfl, -⟩ := hs.installOk p message reply hblocked
    have hsame : args.lastIncludedIndex = (d.raft.peers p).rf.lastApplied := Option.some.inj hindex
    have hlast : lastHanded p (e.events ++ d.raft.trace) = args.lastIncludedIndex := by
      rw [hev, hme, List.singleton_append, lastHanded_applied (Raft.snapshotMsg_index? args)]
    obtain ⟨hlen, hbytes⟩ := (hdata.mono hpre).eq_makeSnapshot hpos
    rw [hlast]
    exact .snapshot rfl ((hsite.of_receiving htask).mono hpre) (by rw [hsame]; exact hposition)
      rfl rfl rfl hlen hbytes

/-- A peer takes a step and its server follows. -/
theorem peer_step (h : d.ReplicasOk) (htarget : d.raft.target a = some (p, c))
    (hok : d.raft.Orderly a) (hstep : (d.raft.peers p).step c = some e)
    (hsite : SiteOk (appliedOps d.raft.trace) (lastHanded p d.raft.trace) site₀)
    (hfollow : Deployment.follow site₀ (d.raft.peers p) e = some site)
    (hcall : ∀ index data, c = .own (.snapshot index data) → ∃ bytes, data = some bytes ∧
      SnapshotOf (appliedOps d.raft.trace) index bytes) :
    (d.install p (d.raft.inFlight a) e site).ReplicasOk := by
  have hs := System.Reachable.of_reach h.run
  have hdoes := Peer.does_of_step hstep
  have hpre := appliedOps_grows e.events d.raft.trace
  have hrun : Reach System.step System.Orderly System.init
      (d.raft.install p (d.raft.inFlight a) e) := by
    refine h.run.trans (Reach.single hok ?_)
    rw [System.step, htarget]
    dsimp only
    rw [hstep]
    rfl
  have hsnapshots := (h.snapshots.step hs htarget hdoes (fun i hi => hi.eq_zero) hcall).mono
    fun i data hdata => hdata.mono hpre
  refine ⟨hrun, hsnapshots, fun q => ?_⟩
  by_cases hq : q = p
  · subst hq
    have hsaved := hsnapshots.saved q
    rw [System.install_peers_self] at hsaved
    simp only [install, Function.update_self]
    exact h.follow hrun hdoes hsaved hsite hfollow
  · simp only [install, Function.update_of_ne hq]
    rw [System.install_trace, lastHanded_of_others fun x hx heq => hq ?_]
    · exact (h.sites q).mono hpre
    · rw [← heq, hdoes.peer_of_mem hx, hs.me p]

/-- A server moves alone. -/
theorem setSite (h : d.ReplicasOk)
    (hsite : SiteOk (appliedOps d.raft.trace) (lastHanded p d.raft.trace) site) :
    (d.setSite p site).ReplicasOk := by
  refine ⟨h.run, h.snapshots, fun q => ?_⟩
  simp only [Deployment.setSite]
  by_cases hq : q = p
  · subst hq
    rwa [Function.update_self]
  · rw [Function.update_of_ne hq]
    exact h.sites q

theorem task_step (h : d.ReplicasOk) (hstep : TaskStep d p d') : d'.ReplicasOk := by
  have hsite := h.sites p
  cases hstep with
  | takenUp htask htake =>
    obtain ⟨kv', task', htake', hsite', -⟩ := hsite.takeUp htask
    obtain ⟨rfl, rfl⟩ := Prod.mk.inj (Except.ok.inj (htake.symm.trans htake'))
    exact h.setSite hsite'
  | panicked htask htake =>
    obtain ⟨kv', task', htake', -⟩ := hsite.takeUp htask
    cases htake.symm.trans htake'
  | asked htask =>
    obtain ⟨rfl, hkv, op, hanswer⟩ := hsite.of_replying (Or.inl htask)
    exact h.setSite (.replying (Or.inr rfl) hkv hanswer)
  | unasked htask =>
    obtain ⟨rfl, hkv, op, k, hpos, -⟩ := hsite.of_replying (Or.inl htask)
    exact h.setSite (.afterReply hkv (by omega))
  | notified htask hsent =>
    obtain ⟨rfl, hkv, op, k, hpos, -⟩ := hsite.of_replying (Or.inr htask)
    obtain ⟨hstore, hlast⟩ := KVServer.notify_store hsent
    refine h.setSite (.afterReply ⟨hstore.trans hkv.store, ?_, hkv.le_length⟩ (by omega))
    exact hlast.trans_le hkv.applied_le
  | measured htask =>
    obtain ⟨rfl, hpos, hkv⟩ := hsite.of_measuring htask
    exact h.setSite (.afterSize hkv hpos _)
  | @compacted index data e site htask hstep hfollow =>
    -- the service compacts what it was handed last
    obtain ⟨rfl, hkv, hdata⟩ := hsite.of_compacting htask
    have hok : d.raft.Orderly (.act p (.snapshot (lastHanded p d.raft.trace) (some data))) :=
      ⟨⟨rfl, rfl⟩, rfl, Nat.le_refl _⟩
    have hback : SiteOk (appliedOps d.raft.trace) (lastHanded p d.raft.trace)
        { kv := (d.sites p).kv } := .receiving rfl hkv
    refine h.peer_step (a := .act p (.snapshot (lastHanded p d.raft.trace) (some data))) rfl
      hok hstep hback hfollow ?_
    intro index data' hcause
    obtain ⟨rfl, rfl⟩ := Input.snapshot.inj (Cause.own.inj hcause)
    exact ⟨data, rfl, hdata⟩

theorem step {m : Move n} (h : d.ReplicasOk) (hok : d.Orderly m) (hstep : d.step m = some d') :
    d'.ReplicasOk := by
  cases m with
  | raft a =>
    -- only `applyTask` calls `Snapshot`
    obtain ⟨q, c, e, site, htarget, hnone, he, hfollow, rfl⟩ := raft_cases hstep
    have hservice : d.raft.ServiceOk a := by
      unfold System.ServiceOk
      split
      case h_1 p index data =>
        exact absurd (Prod.mk.inj (Option.some.inj htarget)).2.symm (hnone index data)
      case h_2 => trivial
    refine h.peer_step htarget ⟨hok.1, hok.2, hservice⟩ he (h.sites q) hfollow ?_
    intro index data hc
    exact absurd hc (hnone index data)
  | task q => exact h.task_step (taskStep_cases hstep)
  | getNotifyChannel q index =>
    rw [step_getNotifyChannel hstep]
    obtain ⟨hstore, hlast⟩ := (d.sites q).kv.getNotifyChannel_store index
    exact h.setSite ((h.sites q).congr hstore hlast)
  | removeNotifyChannel q index =>
    rw [step_removeNotifyChannel hstep]
    exact h.setSite ((h.sites q).congr rfl rfl)
  | takeReply q ch =>
    rw [step_takeReply hstep]
    exact h.setSite ((h.sites q).congr rfl rfl)

end ReplicasOk

theorem replicasOk {maxraftstate : ℤ} (h : Reach step Orderly (init maxraftstate) d) :
    d.ReplicasOk := by
  refine h.invariant (I := ReplicasOk) (fun d m d' hd hok hstep => hd.step hok hstep) ?_
  refine ⟨Reach.refl _, ⟨fun p => Or.inl ⟨rfl, rfl⟩, fun m hm => ?_, fun p msg reply hinst => ?_⟩,
    fun p => .receiving rfl ⟨rfl, Nat.le_refl 0, Nat.le_refl 0⟩⟩
  · cases hm
  · cases hinst

/-- In every run of the deployment whose cluster steps break no log and install no snapshot out of
turn, and in which no request is altered before it is encoded: a server whose `applyTask` is at its
`select` has the store of a replay of the one applied sequence up to the last index it was handed;
what its Raft has saved restores to the replay up to `log.Base`; and `applyTask` never panics on
what it is handed. -/
theorem replicas_agree {maxraftstate : ℤ} {x : Sharing n Op (Deployment n)}
    (h : (host n).SharesUnaltered Orderly (init maxraftstate) x) (p : Fin n) :
    ((x.state.sites p).task = .receiving → (x.state.sites p).kv.toStore =
      Store.replay ((appliedOps x.state.raft.trace).take (lastHanded p x.state.raft.trace))) ∧
    (Store.restoreFromSnapshot {} (x.state.raft.peers p).rf.persister.snapshot =
      some (Store.replay
        ((appliedOps x.state.raft.trace).take (x.state.raft.peers p).rf.log.base))) ∧
    ∀ message, (x.state.sites p).task = .received message →
      ∃ y, (x.state.sites p).kv.takeUp message = .ok y := by
  have hok := replicasOk (Host.reach_of_unaltered h)
  refine ⟨fun htask => ((hok.sites p).of_receiving htask).store, ?_, fun message htask => ?_⟩
  · rcases hok.snapshots.saved p with ⟨hbase, hnil⟩ | ⟨-, hdata⟩
    · rw [hbase, hnil, List.take_zero]
      rfl
    · rw [hdata, Store.restoreFromSnapshot_makeSnapshot]
  · obtain ⟨kv, task, htake, -⟩ := (hok.sites p).takeUp htask
    exact ⟨_, htake⟩

end Deployment

end Runs

namespace Deployment

/-- Peer `0` is elected, applies a `Put` and compacts its log; peer `2`, which has seen nothing of
this, is sent the snapshot. -/
def untilRestored : List (Move 3) :=
  [.raft (.act 0 .tickerStep), .raft (.act 0 .electionTimeout), .raft (.act 0 (.startElection 0)),
    .raft (.deliver 0), .raft (.deliver 1),
    .raft
      (.act 0 (.start { key := "k", value := "v", opType := .opPut, clientId := 1, seqId := 0 })),
    .raft (.act 0 (.replicationTick 0)), .raft (.deliver 1), .raft (.deliver 2),
    .raft (.act 0 .tickerStep), .raft (.act 0 .tickerStep), .raft (.act 0 .tickerStep), .task 0,
    .task 0, .task 0, .task 0, .task 0, .raft (.act 0 .tickerStep),
    .raft (.act 0 (.replicationTick 0)), .raft (.deliver 3), .raft (.act 2 .finishInstall), .task 2]

/-- Peer `2` has the store of a command it was never handed. -/
theorem replicas_agree_restored : ∃ x : Sharing 3 Op (Deployment 3),
    (host 3).SharesUnaltered Orderly (init 0) x ∧ lastHanded 2 x.state.raft.trace = 1 ∧
    (x.state.raft.peers 0).rf.log.base = 1 ∧
    (x.state.sites 2).kv.toStore = Store.replay ((appliedOps x.state.raft.trace).take 1) := by
  have hrun : ∃ d : Deployment 3, Reach step Orderly (init 0) d ∧
      (lastHanded 2 d.raft.trace = 1 ∧ (d.raft.peers 0).rf.log.base = 1 ∧
        (d.sites 2).task = .receiving) :=
    Reach.exists_of_exec untilRestored (by decide +kernel)
  obtain ⟨d, hd, hlast, hbase, htask⟩ := hrun
  obtain ⟨x, hx, rfl⟩ := (host 3).exists_unaltered (s := init 0) (Reach.refl _) hd
  refine ⟨x, hx, hlast, hbase, ?_⟩
  rw [(replicas_agree hx 2).1 htask, hlast]

end Deployment

end LogicRaft
