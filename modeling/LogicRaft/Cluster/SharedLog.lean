import LogicRaft.Common.Slices
import LogicRaft.Cluster.LogSteps

/-!
# Requests that share the array of the log

`startReplication` does not copy the entries it sends: `Entries` is a slice of the array under
`rf.log.Records`. The goroutine that makes the call encodes them later, and without `rf.mu`. By then
the peer may have lost its leadership and have written to that array, in `AppendEntries` or in
`Start`: `append` works in place as long as there is room. What is sent is then not what was built.

`System` has the entries of a request as values. Here the memory is added to it, and to every
machine that has a cluster inside (`Host`). A `Sharing` is a state of such a machine together with
the arrays, the array that each log lies in, and the requests that are not encoded yet. The encoder
reads field by field what the array has at that moment, and only what is encoded can be delivered.

The log of a peer is the slice that it should be (`Host.arraysOk`). A run in which the encoder
always finds what was there when the request was built is a run of the machine with values
(`Host.reach_of_unaltered`), and every run with values is one of these: encode at once
(`Host.exists_unaltered`).
-/

namespace LogicRaft

variable {n : ℕ} {α σ ι : Type}

/-- A request that is not encoded yet. Its entries are a slice of `array` from `start` on, and the
encoder has read `read` of their fields. -/
structure Reading where
  array : ℕ
  start : ℕ
  read : ℕ := 0
deriving DecidableEq

/-- The encoder takes one field of the record in memory. -/
def LogRecord.readField (entry record : LogRecord α) : ℕ → LogRecord α
  | 0 => { entry with term := record.term }
  | 1 => { entry with commandValid := record.commandValid }
  | _ => { entry with command := record.command }

theorem LogRecord.readField_self (entry : LogRecord α) (f : ℕ) :
    entry.readField entry f = entry := by
  unfold readField
  split <;> rfl

/-- The call that a peer makes, if its request shares the array of the log. -/
def Packet.reading (base array : ℕ) (m : Packet n α) : Option Reading :=
  match m.payload with
  | .appendRequest _ args => some { array, start := args.prevLogIndex + 1 - base }
  | _ => none

/-- The next step of the encoder: a field of an entry, or the end of the request. -/
def Packet.encode (heap : Heap (LogRecord α)) (m : Packet n α) (c : Reading) :
    Option (Packet n α × Option Reading) :=
  match m.payload with
  | .appendRequest term args =>
    match args.entries[c.read / 3]? with
    | none => some (m, none)
    | some entry => (heap.read c.array (c.start + c.read / 3)).map fun record =>
        ({ m with payload := .appendRequest term { args with
            entries := args.entries.set (c.read / 3) (entry.readField record (c.read % 3)) } },
          some { c with read := c.read + 1 })
  | _ => none

/-- What a step does with the array under `rf.log.Records`. -/
inductive LogWrite (α : Type)
  | none
  /-- `append(rf.log.Records[:pos], records...)` -/
  | append (pos : ℕ) (records : List (LogRecord α))
  /-- another log, in an array of its own -/
  | fresh

/-- `AppendEntries` and `Start` append. `Snapshot`, `InstallSnapshot` and `Make` build a new log. -/
def Peer.logWrite (p : Peer n α) (e : Effect n α) : LogWrite α :=
  if e.peer.incarnation ≠ p.incarnation then .fresh
  else match e.events with
    | [.appended _ args] => .append (args.prevLogIndex + 1 - p.rf.log.base) args.entries
    | [.accepted _ _ term command] => .append p.rf.log.records.length
        [{ term, commandValid := true, command := some command }]
    | [.compacted ..] => .fresh
    | _ => if e.peer.rf.log.base = p.rf.log.base then .none else .fresh

/-- The arrays after the step, and the array that has the log then. -/
def Heap.write (h : Heap (LogRecord α)) (w : LogWrite α) (array : ℕ)
    (records : List (LogRecord α)) (cap : ℕ) : Option (Heap (LogRecord α) × ℕ) :=
  match w with
  | .none => some (h, array)
  | .append pos new => h.append { term := 0 } array pos new cap
  | .fresh => some (h.alloc { term := 0 } records cap)

section Hosts

variable [RaftGob α]

/-- The peer that takes a step, and what the step leaves behind. -/
def System.effect (s : System n α) (a : Action n α) : Option (Fin n × Effect n α) :=
  (s.target a).bind fun x => ((s.peers x.1).step x.2).map fun e => (x.1, e)

/-- A machine with a cluster inside: each move is a step of the cluster, or leaves it alone. -/
structure Host (n : ℕ) (α σ ι : Type) [RaftGob α] where
  step : σ → ι → Option σ
  raft : σ → System n α
  setNet : σ → List (Packet n α) → σ
  action : σ → ι → Option (Action n α)
  raft_of_none : ∀ {x m y}, step x m = some y → action x m = none → raft y = raft x
  raft_of_some : ∀ {x m y a}, step x m = some y → action x m = some a →
    (raft x).step a = some (raft y)
  setNet_net : ∀ x, setNet x (raft x).net = x
  raft_setNet : ∀ x net, raft (setNet x net) = { raft x with net }

/-- The cluster itself. -/
def System.host (n : ℕ) (α : Type) [RaftGob α] : Host n α (System n α) (Action n α) where
  step := System.step
  raft s := s
  setNet s net := { s with net }
  action _ a := some a
  raft_of_none _ h := by cases h
  raft_of_some h ha := by
    obtain rfl := Option.some.inj ha
    exact h
  setNet_net _ := rfl
  raft_setNet _ _ := rfl

/-- A state of a machine with the memory of its peers. -/
structure Sharing (n : ℕ) (α σ : Type) where
  state : σ
  heap : Heap (LogRecord α)
  /-- the arrays under `rf.log.Records` -/
  arrays : Fin n → ℕ
  /-- one for each packet in flight; a request that is not encoded yet is not sent yet -/
  calls : List (Option Reading)

inductive SharingMove (ι : Type)
  /-- a move of the machine; an array that it allocates gets this capacity if it needs no more -/
  | move (m : ι) (cap : ℕ)
  /-- the encoder of the `k`-th call takes its next step -/
  | encode (k : ℕ)

/-- Only what is encoded can be delivered. -/
def Sharing.encoded (x : Sharing n α σ) : Action n α → Bool
  | .act .. => true
  | .deliver k => (x.calls[k]?.join).isNone

/-- The calls that an action leaves. -/
def Sharing.callsLeft (x : Sharing n α σ) : Action n α → List (Option Reading)
  | .act .. => x.calls
  | .deliver k => x.calls.eraseIdx k

namespace Host

variable (H : Host n α σ ι)

/-- Nothing is waiting to be encoded, and every array is as long as its log. -/
def share (s : σ) : Sharing n α σ where
  state := s
  heap := (List.finRange n).map fun p => ((H.raft s).peers p).rf.log.records
  arrays p := p
  calls := (H.raft s).net.map fun _ => none

/-- What the encoder of the `k`-th call does next. Its goroutine ends with the incarnation. -/
def encoding (x : Sharing n α σ) (k : ℕ) : Option (Packet n α × Option Reading) :=
  match (H.raft x.state).net[k]?, x.calls[k]? with
  | some m, some (some c) =>
    if ((H.raft x.state).peers m.src).incarnation = m.incarnation then m.encode x.heap c else none
  | _, _ => none

/-- A step of the cluster inside, with what it does to the memory. `t` is the state after it. -/
def follow (x : Sharing n α σ) (t : σ) (a : Action n α) (cap : ℕ) : Option (Sharing n α σ) :=
  if x.encoded a then
    ((H.raft x.state).effect a).bind fun (p, e) =>
      let peer := (H.raft x.state).peers p
      (x.heap.write (peer.logWrite e) (x.arrays p) e.peer.rf.log.records cap).map
        fun (heap, array) =>
        { state := t
          heap
          arrays := Function.update x.arrays p array
          calls := x.callsLeft a ++ e.sends.map (Packet.reading peer.rf.log.base (x.arrays p)) }
  else none

def sharingStep (x : Sharing n α σ) : SharingMove ι → Option (Sharing n α σ)
  | .move m cap =>
    (H.step x.state m).bind fun t =>
      match H.action x.state m with
      | none => some { x with state := t }
      | some a => H.follow x t a cap
  | .encode k =>
    (H.encoding x k).map fun (m, c) =>
      { x with
        state := H.setNet x.state ((H.raft x.state).net.set k m)
        calls := x.calls.set k c }

omit [RaftGob α] in
/-- The moves of the machine meet `ok`. -/
def Meets (ok : σ → ι → Prop) (x : Sharing n α σ) : SharingMove ι → Prop
  | .move m _ => ok x.state m
  | .encode _ => True

/-- The moves of the machine meet `ok`, and the encoder finds what was there when the request was
built. -/
def Unaltered (ok : σ → ι → Prop) (x : Sharing n α σ) : SharingMove ι → Prop
  | .move m _ => ok x.state m
  | .encode k => ∀ r ∈ H.encoding x k, (H.raft x.state).net[k]? = some r.1

omit [RaftGob α] in
instance {ok : σ → ι → Prop} [∀ s m, Decidable (ok s m)] (x : Sharing n α σ) :
    (m : SharingMove ι) → Decidable (Meets ok x m)
  | .move m _ => inferInstanceAs (Decidable (ok x.state m))
  | .encode _ => inferInstanceAs (Decidable True)

instance [DecidableEq α] {ok : σ → ι → Prop} [∀ s m, Decidable (ok s m)] (x : Sharing n α σ) :
    (m : SharingMove ι) → Decidable (H.Unaltered ok x m)
  | .move m _ => inferInstanceAs (Decidable (ok x.state m))
  | .encode k => inferInstanceAs (Decidable (∀ r ∈ H.encoding x k, _))

/-- `x` occurs in a run from `s` in which the moves of the machine meet `ok`. -/
def Shares (ok : σ → ι → Prop) (s : σ) (x : Sharing n α σ) : Prop :=
  Reach H.sharingStep (Meets ok) (H.share s) x

/-- `x` occurs in such a run, and no request is altered in it before it is encoded. -/
def SharesUnaltered (ok : σ → ι → Prop) (s : σ) (x : Sharing n α σ) : Prop :=
  Reach H.sharingStep (H.Unaltered ok) (H.share s) x

/-! ## Everything a step can do -/

variable {H} {x y : Sharing n α σ}

theorem follow_cases {t : σ} {a : Action n α} {cap : ℕ} (h : H.follow x t a cap = some y) :
    ∃ p e array, (H.raft x.state).effect a = some (p, e) ∧
      x.heap.write (((H.raft x.state).peers p).logWrite e) (x.arrays p) e.peer.rf.log.records cap =
        some (y.heap, array) ∧
      y.state = t ∧ y.arrays = Function.update x.arrays p array := by
  unfold follow at h
  split at h
  case isFalse => cases h
  case isTrue =>
    obtain ⟨⟨p, e⟩, heffect, h⟩ := Option.bind_eq_some_iff.mp h
    obtain ⟨⟨heap, array⟩, hwrite, rfl⟩ := Option.map_eq_some_iff.mp h
    exact ⟨p, e, array, heffect, hwrite, rfl, rfl⟩

theorem step_move {m : ι} {cap : ℕ} (h : H.sharingStep x (.move m cap) = some y) :
    ∃ t, H.step x.state m = some t ∧
      ((H.action x.state m = none ∧ y = { x with state := t }) ∨
        ∃ a, H.action x.state m = some a ∧ H.follow x t a cap = some y) := by
  obtain ⟨t, ht, h⟩ := Option.bind_eq_some_iff.mp h
  refine ⟨t, ht, ?_⟩
  cases ha : H.action x.state m with
  | none =>
    rw [ha] at h
    exact Or.inl ⟨rfl, (Option.some.inj h).symm⟩
  | some a =>
    rw [ha] at h
    exact Or.inr ⟨a, rfl, h⟩

theorem step_encode {k : ℕ} (h : H.sharingStep x (.encode k) = some y) :
    ∃ m c, H.encoding x k = some (m, c) ∧
      y = { x with
        state := H.setNet x.state ((H.raft x.state).net.set k m)
        calls := x.calls.set k c } := by
  obtain ⟨⟨m, c⟩, hmc, rfl⟩ := Option.map_eq_some_iff.mp h
  exact ⟨m, c, hmc, rfl⟩

theorem state_of_move {m : ι} {cap : ℕ} (h : H.sharingStep x (.move m cap) = some y) :
    H.step x.state m = some y.state := by
  obtain ⟨t, ht, ⟨-, rfl⟩ | ⟨a, -, hfollow⟩⟩ := step_move h
  · exact ht
  · obtain ⟨p, e, array, -, -, hstate, -⟩ := follow_cases hfollow
    rw [hstate]
    exact ht

/-! ## Runs without sharing -/

/-- If the encoder always finds what was there when the request was built, the memory does not
matter. -/
theorem reach_state {ok : σ → ι → Prop} (h : Reach H.sharingStep (H.Unaltered ok) x y) :
    Reach H.step ok x.state y.state := by
  refine h.invariant (I := fun y => Reach H.step ok x.state y.state) ?_ (Reach.refl x.state)
  intro y m z hy hok hstep
  cases m with
  | move m cap => exact hy.trans (Reach.single hok (state_of_move hstep))
  | encode k =>
    obtain ⟨m, c, hmc, rfl⟩ := step_encode hstep
    have hsame : (H.raft y.state).net.set k m = (H.raft y.state).net := by
      have hget : (H.raft y.state).net[k]? = some m := hok _ hmc
      obtain ⟨hk, rfl⟩ := List.getElem?_eq_some_iff.mp hget
      exact List.set_getElem_self hk
    dsimp only
    rw [hsame, H.setNet_net]
    exact hy

theorem reach_of_unaltered {ok : σ → ι → Prop} {s : σ} (h : H.SharesUnaltered ok s x) :
    Reach H.step ok s x.state :=
  reach_state h

/-! ## The log lies in its array -/

end Host

omit [RaftGob α] in
/-- Each log is the slice of its array that begins with it, and no two share one. -/
structure Sharing.ArraysOk (x : Sharing n α σ) (peers : Fin n → Peer n α) : Prop where
  separate : Function.Injective x.arrays
  log : ∀ p, ∃ rest, x.heap[x.arrays p]? = some ((peers p).rf.log.records ++ rest)

/-- A step writes to the array what it does to the log. -/
theorem Does.logWrite {p : Peer n α} {c : Cause n α} {e : Effect n α} (h : Does p c e) :
    match p.logWrite e with
    | .none => e.peer.rf.log = p.rf.log
    | .append pos records => pos ≤ p.rf.log.records.length ∧
        e.peer.rf.log.records = p.rf.log.records.take pos ++ records
    | .fresh => True := by
  cases h with
  | crashed | appendPanicked => simp [Peer.logWrite, Peer.crash]
  | @appended _ _ args _ _ _ _ hprev =>
    obtain ⟨hbase, hsize⟩ := Log.bounds_of_get hprev
    have hpos : args.prevLogIndex + 1 - p.rf.log.base = args.prevLogIndex - p.rf.log.base + 1 := by
      omega
    simp only [Peer.logWrite, ne_eq, not_true_eq_false, if_false, Raft.acceptEntries_log,
      Raft.becomeFollowerLocked_log, Log.spliceAfter, hpos, and_true]
    rw [Log.size] at hsize
    omega
  | accepted => simp [Peer.logWrite, Log.append, Raft.persistLocked]
  | compacted => simp [Peer.logWrite]
  | @installed _ _ args _ _ _ hindex =>
    have hbase : args.lastIncludedIndex ≠ p.rf.log.base := by omega
    simp [Peer.logWrite, Raft.adoptSnapshot, Raft.persistLocked, hbase]
  | timedOut _ hrole =>
    simp [Peer.logWrite, Raft.becomeCandidateLocked, Raft.persistLocked, hrole]
  | replicated => simp [Peer.logWrite, Raft.matchSelf]
  | voted => simp [Peer.logWrite, Raft.persistLocked]
  | won _ _ _ _ hrole => simp [Peer.logWrite, Raft.becomeLeaderLocked, hrole]
  | committed _ _ _ _ _ _ hrf =>
    subst hrf
    simp [Peer.logWrite, Raft.recordMatch]
  | matched | snapshotAcked => simp [Peer.logWrite, Raft.recordMatch]
  | _ => simp [Peer.logWrite]

theorem System.effect_cases {s : System n α} {a : Action n α} {p : Fin n} {e : Effect n α}
    (h : s.effect a = some (p, e)) :
    ∃ c, s.target a = some (p, c) ∧ Does (s.peers p) c e ∧
      s.step a = some (s.install p (s.inFlight a) e) := by
  obtain ⟨⟨q, c⟩, htarget, h⟩ := Option.bind_eq_some_iff.mp h
  obtain ⟨e', hstep, h⟩ := Option.map_eq_some_iff.mp h
  obtain ⟨rfl, rfl⟩ := Prod.mk.inj h
  refine ⟨c, htarget, Peer.does_of_step hstep, ?_⟩
  rw [System.step, htarget]
  exact congrArg (Option.map _) hstep

namespace Sharing

variable {x : Sharing n α σ} {peers : Fin n → Peer n α}

omit [RaftGob α] in
theorem ArraysOk.lt (h : x.ArraysOk peers) (p : Fin n) : x.arrays p < x.heap.length := by
  obtain ⟨rest, hrest⟩ := h.log p
  exact (List.getElem?_eq_some_iff.mp hrest).1

/-- The step of one peer: its own log is again in its array, and the others are not touched. -/
theorem ArraysOk.write (h : x.ArraysOk peers) {p : Fin n} {c : Cause n α} {e : Effect n α}
    (hdoes : Does (peers p) c e) {heap : Heap (LogRecord α)} {array cap : ℕ}
    (hwrite : x.heap.write ((peers p).logWrite e) (x.arrays p) e.peer.rf.log.records cap =
      some (heap, array)) :
    (array = x.arrays p ∨ array = x.heap.length) ∧
      (∀ r ≠ x.arrays p, r < x.heap.length → heap[r]? = x.heap[r]?) ∧
      ∃ rest, heap[array]? = some (e.peer.rf.log.records ++ rest) := by
  have hspec := hdoes.logWrite
  obtain ⟨rest, hrest⟩ := h.log p
  cases hw : (peers p).logWrite e with
  | none =>
    rw [hw] at hspec hwrite
    obtain ⟨rfl, rfl⟩ := Prod.mk.inj (Option.some.inj hwrite)
    refine ⟨Or.inl rfl, fun _ _ _ => rfl, rest, ?_⟩
    rw [show e.peer.rf.log = (peers p).rf.log from hspec]
    exact hrest
  | append pos records =>
    rw [hw] at hspec hwrite
    obtain ⟨hpos, hrecords⟩ := hspec
    obtain ⟨harray, hothers, zs, hzs⟩ := Heap.append_spec hwrite hrest
    refine ⟨harray, hothers, zs, ?_⟩
    rw [hzs, hrecords, List.take_append_of_le_length hpos]
  | fresh =>
    rw [hw] at hwrite
    obtain ⟨rfl, rfl⟩ := Prod.mk.inj (Option.some.inj hwrite)
    exact ⟨Or.inr rfl, fun r _ hr => x.heap.keeps_alloc _ _ _ r hr, _,
      x.heap.getElem?_alloc_self _ _ _⟩

end Sharing

namespace Host

variable {H : Host n α σ ι} {x y : Sharing n α σ}

theorem arraysOk_share (s : σ) : (H.share s).ArraysOk (H.raft s).peers where
  separate _ _ h := Fin.val_injective h
  log p := by
    refine ⟨[], ?_⟩
    simp [share]

theorem arraysOk_follow {t : σ} {a : Action n α} {cap : ℕ}
    (h : x.ArraysOk (H.raft x.state).peers) (hraft : (H.raft x.state).step a = some (H.raft t))
    (hfollow : H.follow x t a cap = some y) : y.ArraysOk (H.raft y.state).peers := by
  obtain ⟨p, e, array, heffect, hwrite, rfl, harrays⟩ := follow_cases hfollow
  obtain ⟨c, -, hdoes, hstep⟩ := System.effect_cases heffect
  obtain ⟨harray, hothers, hself⟩ := h.write hdoes hwrite
  rw [hstep, Option.some.injEq] at hraft
  have hne : ∀ q ≠ p, x.arrays q ≠ array := by
    intro q hq heq
    rcases harray with rfl | rfl
    · exact hq (h.separate heq)
    · exact absurd (h.lt q) (by omega)
  refine ⟨?_, fun q => ?_⟩
  · rw [harrays]
    intro q q' heq
    by_cases hq : q = p <;> by_cases hq' : q' = p <;>
      simp only [Function.update_apply, hq, hq', if_true, if_false] at heq
    · rw [hq, hq']
    · exact absurd heq.symm (hne q' hq')
    · exact absurd heq (hne q hq)
    · exact h.separate heq
  · rw [← hraft, harrays]
    by_cases hq : q = p
    · subst hq
      rw [System.install_peers_self, Function.update_self]
      exact hself
    · rw [System.install_peers_ne _ _ _ _ hq, Function.update_of_ne hq,
        hothers _ (fun heq => hq (h.separate heq)) (h.lt q)]
      exact h.log q

theorem arraysOk_reach {ok : Sharing n α σ → SharingMove ι → Prop}
    (hx : x.ArraysOk (H.raft x.state).peers) (h : Reach H.sharingStep ok x y) :
    y.ArraysOk (H.raft y.state).peers := by
  refine h.invariant (I := fun x => x.ArraysOk (H.raft x.state).peers) ?_ hx
  intro x m y hx _ hstep
  cases m with
  | move m cap =>
    obtain ⟨t, ht, ⟨ha, rfl⟩ | ⟨a, ha, hfollow⟩⟩ := step_move hstep
    · rw [← H.raft_of_none ht ha] at hx
      exact ⟨hx.separate, hx.log⟩
    · exact arraysOk_follow hx (H.raft_of_some ht ha) hfollow
  | encode k =>
    obtain ⟨m, c, -, rfl⟩ := step_encode hstep
    dsimp only
    rw [H.raft_setNet]
    exact ⟨hx.separate, hx.log⟩

/-- In every run, whatever is altered in it, the log of each peer is what its array begins with. -/
theorem arraysOk {ok : Sharing n α σ → SharingMove ι → Prop} {s : σ}
    (h : Reach H.sharingStep ok (H.share s) x) : x.ArraysOk (H.raft x.state).peers :=
  arraysOk_reach (arraysOk_share s) h

end Host

/-! ## Every run with values is a run with memory -/

omit [RaftGob α] in
/-- Memory still has what was there when the request was built. -/
def Packet.Current (heap : Heap (LogRecord α)) (args : AppendEntriesArgs n α) (c : Reading) :
    Prop :=
  ∀ j entry, args.entries[j]? = some entry → heap.read c.array (c.start + j) = some entry

omit [RaftGob α] in
theorem Packet.encode_of_current {heap : Heap (LogRecord α)} {m : Packet n α} {c : Reading}
    {term : ℕ} {args : AppendEntriesArgs n α} (hpay : m.payload = .appendRequest term args)
    (hcur : Packet.Current heap args c) :
    m.encode heap c = some (m, none) ∨
      (c.read < 3 * args.entries.length ∧
        m.encode heap c = some (m, some { c with read := c.read + 1 })) := by
  obtain ⟨src, dst, incarnation, payload⟩ := m
  obtain rfl : payload = .appendRequest term args := hpay
  cases hentry : args.entries[c.read / 3]? with
  | none =>
    refine Or.inl ?_
    simp only [encode, hentry]
  | some entry =>
    obtain ⟨hlt, rfl⟩ := List.getElem?_eq_some_iff.mp hentry
    refine Or.inr ⟨by omega, ?_⟩
    simp only [encode, hentry, hcur _ _ hentry, Option.map_some, LogRecord.readField_self,
      List.set_getElem_self]

namespace Host

variable {H : Host n α σ ι} {x y : Sharing n α σ} {ok : σ → ι → Prop}

/-- A step of the encoder that finds what was there. -/
theorem reach_encode {k : ℕ} {m : Packet n α} {c : Reading} {c' : Option Reading}
    (hm : (H.raft x.state).net[k]? = some m) (hc : x.calls[k]? = some (some c))
    (hinc : ((H.raft x.state).peers m.src).incarnation = m.incarnation)
    (hencode : m.encode x.heap c = some (m, c')) :
    Reach H.sharingStep (H.Unaltered ok) x { x with calls := x.calls.set k c' } := by
  have hsame : H.setNet x.state ((H.raft x.state).net.set k m) = x.state := by
    obtain ⟨hk, rfl⟩ := List.getElem?_eq_some_iff.mp hm
    rw [List.set_getElem_self, H.setNet_net]
  have hencoding : H.encoding x k = some (m, c') := by
    simp only [encoding, hm, hc, hinc, if_true, hencode]
  have hok : H.Unaltered ok x (.encode k) := by
    intro r hr
    rw [hencoding] at hr
    rw [← Option.some.inj hr]
    exact hm
  refine Reach.single hok ?_
  rw [sharingStep, hencoding, Option.map_some]
  dsimp only
  rw [hsame]

/-- As long as memory has what was there when the request was built, encoding it changes nothing. -/
theorem reach_encoded {k : ℕ} {m : Packet n α} {c : Reading} {term : ℕ}
    {args : AppendEntriesArgs n α} (hm : (H.raft x.state).net[k]? = some m)
    (hc : x.calls[k]? = some (some c))
    (hinc : ((H.raft x.state).peers m.src).incarnation = m.incarnation)
    (hpay : m.payload = .appendRequest term args) (hcur : Packet.Current x.heap args c) :
    Reach H.sharingStep (H.Unaltered ok) x { x with calls := x.calls.set k none } := by
  -- by induction on what is left to read
  induction hd : 3 * args.entries.length - c.read generalizing x c with
  | zero =>
    rcases Packet.encode_of_current hpay hcur with hdone | ⟨hlt, -⟩
    · exact reach_encode hm hc hinc hdone
    · omega
  | succ d ih =>
    rcases Packet.encode_of_current hpay hcur with hdone | ⟨hlt, hmore⟩
    · exact reach_encode hm hc hinc hdone
    · have hk := (List.getElem?_eq_some_iff.mp hc).1
      have hnext := ih (x := { x with calls := x.calls.set k (some { c with read := c.read + 1 }) })
        (c := { c with read := c.read + 1 }) hm (List.getElem?_set_self hk) hinc hcur
        (by dsimp only; omega)
      rw [List.set_set] at hnext
      exact (reach_encode hm hc hinc hmore).trans hnext

/-- The requests of a round are encoded one after the other. -/
theorem reach_all_encoded {base array : ℕ} {pre rest : List (Packet n α)}
    (hnet : (H.raft x.state).net = pre ++ rest)
    (hcalls : x.calls = pre.map (fun _ => none) ++ rest.map (Packet.reading base array))
    (hcur : ∀ m ∈ rest, ∀ term args c, m.payload = .appendRequest term args →
      m.reading base array = some c →
      ((H.raft x.state).peers m.src).incarnation = m.incarnation ∧ Packet.Current x.heap args c) :
    Reach H.sharingStep (H.Unaltered ok) x
      { x with calls := (H.raft x.state).net.map fun _ => none } := by
  induction rest generalizing pre x with
  | nil =>
    rw [hnet, List.append_nil]
    rw [List.map_nil, List.append_nil] at hcalls
    rw [← hcalls]
    exact Reach.refl x
  | cons m rest ih =>
    have hnext : ∀ y : Sharing n α σ, y.state = x.state → y.heap = x.heap → y.arrays = x.arrays →
        y.calls = pre.map (fun _ => none) ++ none :: rest.map (Packet.reading base array) →
        Reach H.sharingStep (H.Unaltered ok) y
          { x with calls := (H.raft x.state).net.map fun _ => none } := by
      rintro ⟨_, _, _, _⟩ rfl rfl rfl rfl
      have hnet' : (H.raft x.state).net = pre ++ [m] ++ rest := by
        rw [hnet, List.append_assoc, List.singleton_append]
      refine ih hnet' (by simp) fun m' hm' => ?_
      exact hcur m' (List.mem_cons_of_mem _ hm')
    cases hreading : m.reading base array with
    | none =>
      refine hnext x rfl rfl rfl ?_
      rw [hcalls, List.map_cons, hreading]
    | some c =>
      obtain ⟨term, args, hpay⟩ : ∃ term args, m.payload = .appendRequest term args := by
        unfold Packet.reading at hreading
        split at hreading
        · exact ⟨_, _, ‹_›⟩
        · cases hreading
      have hk : (H.raft x.state).net[pre.length]? = some m := by
        rw [hnet]
        simp
      have hck : x.calls[pre.length]? = some (some c) := by
        rw [hcalls, List.map_cons, hreading]
        simp
      obtain ⟨hinc, hcurrent⟩ := hcur m (List.mem_cons_self ..) term args c hpay hreading
      refine (reach_encoded hk hck hinc hpay hcurrent).trans (hnext _ rfl rfl rfl ?_)
      rw [hcalls, List.map_cons, hreading]
      simp

end Host

theorem Does.incarnation_of_mem {p : Peer n α} {c : Cause n α} {e : Effect n α} (h : Does p c e)
    {m : Packet n α} (hm : m ∈ e.sends) : e.peer.incarnation = p.incarnation := by
  cases h with
  | crashed | appendPanicked => cases hm
  | _ => rfl

/-- A request that has just been built is a piece of the log, which the step has not changed. -/
theorem Does.request_of_mem {p : Peer n α} {c : Cause n α} {e : Effect n α} (h : Does p c e)
    (hinst : p.InstallOk) {m : Packet n α} (hm : m ∈ e.sends) {term : ℕ}
    {args : AppendEntriesArgs n α} (hpay : m.payload = .appendRequest term args) :
    m.src = p.rf.me ∧ m.incarnation = p.incarnation ∧ p.logWrite e = .none ∧
      args.entries = p.rf.log.records.drop (args.prevLogIndex + 1 - p.rf.log.base) := by
  have hinc := h.incarnation_of_mem hm
  obtain ⟨-, -, hrf, hev, ⟨q, request⟩, -, hreq, rfl⟩ :=
    h.round_of_mem hinst hm (by rw [hpay]; rfl)
  cases request with
  | snapshot args' => cases hpay
  | append args' =>
    obtain ⟨rfl, rfl⟩ := Payload.appendRequest.inj hpay
    obtain ⟨prev, -, -, hentries, -⟩ := Raft.replicationRequest_append hreq
    refine ⟨rfl, rfl, ?_, hentries⟩
    simp [Peer.logWrite, hinc, hev, hrf, Raft.matchSelf]

omit [RaftGob α] in
theorem Sharing.ArraysOk.exists_write {x : Sharing n α σ} {peers : Fin n → Peer n α}
    (h : x.ArraysOk peers) (p : Fin n) (w : LogWrite α) (records : List (LogRecord α)) (cap : ℕ) :
    ∃ heap array, x.heap.write w (x.arrays p) records cap = some (heap, array) := by
  obtain ⟨rest, hrest⟩ := h.log p
  cases w with
  | none => exact ⟨_, _, rfl⟩
  | append pos new =>
    simp only [Heap.write, Heap.append, hrest, Option.map_some, Option.some.injEq]
    exact ⟨_, _, rfl⟩
  | fresh => exact ⟨_, _, rfl⟩

omit [RaftGob α] in
/-- What a round takes from the log is what the array has there. -/
theorem Sharing.ArraysOk.current {x : Sharing n α σ} {peers : Fin n → Peer n α}
    (h : x.ArraysOk peers) (p : Fin n) {args : AppendEntriesArgs n α} {start : ℕ}
    (hentries : args.entries = (peers p).rf.log.records.drop start) :
    Packet.Current x.heap args { array := x.arrays p, start } := by
  intro j entry hj
  obtain ⟨rest, hrest⟩ := h.log p
  rw [hentries, List.getElem?_drop] at hj
  rw [Heap.read, hrest, Option.bind_some,
    List.getElem?_append_left (List.getElem?_eq_some_iff.mp hj).1, hj]

section NothingWaits

variable {s : System n α} {x : Sharing n α σ} (hcalls : x.calls = s.net.map fun _ => none)

include hcalls

omit [RaftGob α] in
theorem Sharing.encoded_of_calls (a : Action n α) : x.encoded a = true := by
  cases a with
  | act => rfl
  | deliver k =>
    rw [encoded, hcalls, List.getElem?_map]
    cases s.net[k]? <;> rfl

omit [RaftGob α] in
theorem Sharing.callsLeft_of_calls (a : Action n α) :
    x.callsLeft a = (s.inFlight a).map fun _ => none := by
  cases a with
  | act => exact hcalls
  | deliver k => rw [callsLeft, System.inFlight, hcalls, List.eraseIdx_map]

end NothingWaits

theorem System.exists_effect {s t : System n α} {a : Action n α} (h : s.step a = some t) :
    ∃ p e, s.effect a = some (p, e) := by
  unfold System.step at h
  split at h
  case h_1 => cases h
  case h_2 p c htarget =>
    obtain ⟨e, he, -⟩ := Option.map_eq_some_iff.mp h
    refine ⟨p, e, ?_⟩
    rw [System.effect, htarget]
    exact congrArg (Option.map _) he

namespace Host

variable {H : Host n α σ ι} {x y : Sharing n α σ} {ok : σ → ι → Prop}

variable (H x) in
/-- The state occurs in a run, and nothing waits to be encoded. -/
structure Settled : Prop where
  arrays : x.ArraysOk (H.raft x.state).peers
  reachable : (H.raft x.state).Reachable
  calls : x.calls = (H.raft x.state).net.map fun _ => none

/-- A step of the cluster, and the encoding of all that it sends. -/
theorem Settled.follow {m : ι} {a : Action n α} {t : σ} (hx : H.Settled x) (hok : ok x.state m)
    (hstep : H.step x.state m = some t) (haction : H.action x.state m = some a) :
    ∃ y, Reach H.sharingStep (H.Unaltered ok) x y ∧ y.state = t ∧
      y.calls = (H.raft t).net.map fun _ => none := by
  have hraft := H.raft_of_some hstep haction
  obtain ⟨p, e, heffect⟩ := System.exists_effect hraft
  obtain ⟨c, -, hdoes, hinstall⟩ := System.effect_cases heffect
  rw [hraft, Option.some.injEq] at hinstall
  obtain ⟨heap, array, hwrite⟩ := hx.arrays.exists_write p (((H.raft x.state).peers p).logWrite e)
    e.peer.rf.log.records 0
  set sent : Sharing n α σ :=
    { state := t
      heap
      arrays := Function.update x.arrays p array
      calls := x.callsLeft a ++
        e.sends.map (Packet.reading ((H.raft x.state).peers p).rf.log.base (x.arrays p)) }
          with hsent
  have hmove : H.sharingStep x (.move m 0) = some sent := by
    simp only [sharingStep, hstep, Option.bind_some, haction, Host.follow,
      Sharing.encoded_of_calls hx.calls, if_true, heffect, hwrite, Option.map_some, hsent]
  have hmeets : H.Unaltered ok x (.move m 0) := hok
  have hmoved : Reach H.sharingStep (H.Unaltered ok) x sent := Reach.single hmeets hmove
  have hnet : (H.raft sent.state).net = (H.raft x.state).inFlight a ++ e.sends :=
    congrArg System.net hinstall
  have hpending : sent.calls = ((H.raft x.state).inFlight a).map (fun _ => none) ++
      e.sends.map (Packet.reading ((H.raft x.state).peers p).rf.log.base (x.arrays p)) := by
    rw [← Sharing.callsLeft_of_calls hx.calls]
  refine ⟨_, hmoved.trans (reach_all_encoded hnet hpending ?_), rfl, rfl⟩
  intro packet hpacket term args c hpay hreading
  -- only a round sends append requests, and it leaves the log alone
  obtain ⟨hsrc, hinc, hnone, hentries⟩ :=
    hdoes.request_of_mem (hx.reachable.installOk p) hpacket hpay
  obtain rfl : heap = x.heap := by
    rw [hnone] at hwrite
    exact (Prod.mk.inj (Option.some.inj hwrite)).1.symm
  constructor
  · rw [hsrc, hx.reachable.me p, hinc, ← hdoes.incarnation_of_mem hpacket]
    change ((H.raft t).peers p).incarnation = _
    rw [hinstall, System.install_peers_self]
  · rw [Packet.reading, hpay] at hreading
    rw [← Option.some.inj hreading]
    exact hx.arrays.current p hentries

theorem Settled.step {m : ι} {t : σ} (hx : H.Settled x) (hok : ok x.state m)
    (hstep : H.step x.state m = some t) :
    ∃ y, Reach H.sharingStep (H.Unaltered ok) x y ∧ y.state = t ∧ H.Settled y := by
  cases haction : H.action x.state m with
  | none =>
    have hmeets : H.Unaltered ok x (.move m 0) := hok
    have hraft := H.raft_of_none hstep haction
    have hmove : H.sharingStep x (.move m 0) = some { x with state := t } := by
      simp only [sharingStep, hstep, Option.bind_some, haction]
    have hmoved := Reach.single hmeets hmove
    refine ⟨_, hmoved, rfl, arraysOk_reach hx.arrays hmoved, ?_, ?_⟩
    · dsimp only
      rw [hraft]
      exact hx.reachable
    · dsimp only
      rw [hraft]
      exact hx.calls
  | some a =>
    obtain ⟨y, hy, rfl, hcalls⟩ := hx.follow hok hstep haction
    exact ⟨y, hy, rfl, arraysOk_reach hx.arrays hy,
      hx.reachable.next (H.raft_of_some hstep haction), hcalls⟩

/-- Every run is one in which all requests are encoded as they were built, at once. -/
theorem Settled.reach {t : σ} (hx : H.Settled x) (h : Reach H.step ok x.state t) :
    ∃ y, Reach H.sharingStep (H.Unaltered ok) x y ∧ y.state = t ∧ H.Settled y := by
  induction h with
  | refl => exact ⟨x, Reach.refl x, rfl, hx⟩
  | tail _ hlast ih =>
    obtain ⟨m, hok, hstep⟩ := hlast
    obtain ⟨y, hy, rfl, hsettled⟩ := ih
    obtain ⟨z, hz, rfl, hsettled'⟩ := hsettled.step hok hstep
    exact ⟨z, hy.trans hz, rfl, hsettled'⟩

theorem settled_share {s : σ} (hs : (H.raft s).Reachable) : H.Settled (H.share s) :=
  ⟨arraysOk_share s, hs, rfl⟩

theorem exists_unaltered {s t : σ} (hs : (H.raft s).Reachable) (h : Reach H.step ok s t) :
    ∃ x, H.SharesUnaltered ok s x ∧ x.state = t := by
  obtain ⟨x, hx, hstate, -⟩ := (settled_share hs).reach h
  exact ⟨x, hx, hstate⟩

theorem meets_of_unaltered (h : Reach H.sharingStep (H.Unaltered ok) x y) :
    Reach H.sharingStep (Meets ok) x y := by
  refine h.mono fun z m hm => ?_
  cases m with
  | move => exact hm
  | encode => trivial

theorem SharesUnaltered.shares {s : σ} (h : H.SharesUnaltered ok s x) : H.Shares ok s x :=
  meets_of_unaltered h

end Host

end Hosts

end LogicRaft
