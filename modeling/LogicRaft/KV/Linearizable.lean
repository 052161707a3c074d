import LogicRaft.KV.Books
import LogicRaft.Porcupine.CheckHistory

/-!
# The key-value service is linearizable

Clerks, network, handlers, servers and the cluster run together (`Service`). In every run whose
cluster steps are orderly, whose requests are sent as they were built and in which `applyTask`
notifies a handler only in the term in which its command was accepted, books can be kept that are in
order at any time (`Service.Ok`). So the operations that the clients have recorded are linearizable,
together with those that are not over yet (`operations_linearizable`), and once all are over the
check of the tests finds nothing (`check_ok`).
-/

namespace LogicRaft

open Porcupine
open Porcupine.KvModel (LinearizableStore)

variable {n m : ℕ}

/-- What the loop of a clerk makes of the return of a `Call`. -/
inductive Clerk.Rounds (ck : Clerk n) (request : Request) :
    Option OpReply → Clerk n → Option String → Prop
  | failed {reply : Option OpReply} : Rounds ck request reply ck.retry none
  | read {args : GetArgs} {reply : OpReply} (hrequest : request = .get args)
      (hleader : reply.err ≠ .errWrongLeader) (htimeout : reply.err ≠ .errTimeout) :
      Rounds ck request (some reply) ck (some reply.value)
  | written {args : PutAppendArgs} {reply : OpReply} (hrequest : request = .putAppend args)
      (hleader : reply.err ≠ .errWrongLeader) (htimeout : reply.err ≠ .errTimeout) :
      Rounds ck request (some reply) { ck with seqId := ck.seqId + 1 } (some "")

theorem Clerk.rounds (ck : Clerk n) (request : Request) (reply : Option OpReply) :
    ck.Rounds request reply (ck.round request reply).1 (ck.round request reply).2 := by
  unfold round
  split
  case h_1 => exact .failed
  case h_2 reply =>
    split
    case isTrue => exact .failed
    case isFalse herr =>
      rw [not_or] at herr
      split
      case h_1 => exact .read rfl herr.1 herr.2
      case h_2 => exact .written rfl herr.1 herr.2

namespace Service

/-- A step of the servers is one of a regular run. -/
def Regular (s : Service n m) : ServiceMove n m → Prop
  | .serving move => s.serving.Regular move
  | _ => True

instance (s : Service n m) (a : ServiceMove n m) : Decidable (s.Regular a) :=
  match a with
  | .serving move => inferInstanceAs (Decidable (s.serving.Regular move))
  | .begin .. | .call .. | .deliver .. | .respond .. | .receive .. | .fail .. | .tick ..
  | .finish ..
  | .log .. => .isTrue trivial

section Runs

variable [RaftGob Op] [KVGob]

/-- The books are in order. -/
structure Ok (ids : Fin m → ℤ) (s : Service n m) (B : Books m) : Prop where
  servers : ServersOk s.serving s.callers s.calls B
  mail : MailOk s.requests s.replies (appliedOps s.serving.deployment.raft.trace) s.calls B
  ledger : B.Ok ids (appliedOps s.serving.deployment.raft.trace)
  asked_before : ∀ c, ∀ t ∈ B.tickets c, t.call ≤ s.clock
  answered_before : ∀ c, ∀ r ∈ B.receipts c, r.time ≤ s.clock
  clients : ∀ c, ClientOk B s.calls c (ids c) (s.clerks c) (s.phases c)
  items : ItemsOk s.operations s.phases B

namespace Ok

variable {ids : Fin m → ℤ} {s : Service n m} {B : Books m} {c : Fin m}

/-- The servers move. -/
theorem serving (h : s.Ok ids B) {move : ServingMove n} (hok : s.serving.Regular move)
    (hcall : ∀ p request, move ≠ .call p request) {t : Serving n}
    (hstep : s.serving.step move = some t) : (s.follow t).Ok ids B := by
  obtain ⟨ev, hframe⟩ := Serving.frame_of_step h.servers.replies hcall hstep
  have hservers := h.servers.frame hframe (h.servers.replies.step hok hstep)
  have hpre : appliedOps s.serving.deployment.raft.trace <+:
      appliedOps t.deployment.raft.trace := by
    rw [hframe.trace]
    exact appliedOps_grows _ _
  exact {
    servers := hservers
    mail := h.mail.mono (.refl _ _) (Nat.le_refl _) hpre
    ledger := h.ledger.grow hpre fun i op => hservers.asked
    asked_before := h.asked_before
    answered_before := h.answered_before
    clients := h.clients
    items := h.items }

/-- A request is delivered. -/
theorem deliver (h : s.Ok ids B) {k : ℕ} {rpc : Rpc n} (hrpc : s.requests[k]? = some rpc)
    {t : Serving n} (hstep : s.serving.step (.call rpc.dst rpc.request) = some t) :
    Ok ids { s with
      serving := t
      callers := Function.update s.callers rpc.dst (s.callers rpc.dst ++ [{ id := rpc.id }])
      requests := s.requests.eraseIdx k } B := by
  obtain ⟨ticket, hissued, hrequest⟩ := h.mail.requests rpc (List.mem_of_getElem? hrpc)
  have hservers := h.servers.called hissued (hrequest ▸ hstep)
  obtain rfl := Option.some.inj hstep
  exact {
    servers := hservers
    mail := ⟨fun x hx => h.mail.requests x (List.mem_of_mem_eraseIdx hx), h.mail.replies⟩
    ledger := h.ledger
    asked_before := h.asked_before
    answered_before := h.answered_before
    clients := h.clients
    items := h.items }

/-- A handler returns. -/
theorem respond (hids : Function.Injective ids) (h : s.Ok ids B) {p : Fin n} {j id : ℕ}
    {request : Request} {start : Option (ℕ × ℕ)} {reply : OpReply} {cleanup answered : Bool}
    (hx : (s.serving.handlers p)[j]? = some ⟨request, .replied start reply cleanup⟩)
    (hcaller : (s.callers p)[j]? = some ⟨id, answered⟩) :
    Ok ids { s with
      callers := Function.update s.callers p ((s.callers p).set j ⟨id, true⟩)
      replies := s.replies ++ [(id, reply)] } B where
  servers := h.servers.answered hcaller
  mail := by
    refine ⟨h.mail.requests, fun y hy => ?_⟩
    rcases List.mem_append.mp hy with hold | hnew
    · exact h.mail.replies y hold
    · rw [List.mem_singleton.mp hnew]
      exact h.servers.replyOk hids h.ledger hx hcaller rfl
  ledger := h.ledger
  asked_before := h.asked_before
  answered_before := h.answered_before
  clients := h.clients
  items := h.items

theorem tick (h : s.Ok ids B) (d : ℕ) : Ok ids { s with clock := s.clock + d } B where
  servers := h.servers
  mail := h.mail
  ledger := h.ledger
  asked_before c t ht := (h.asked_before c t ht).trans (by simp)
  answered_before c r hr := (h.answered_before c r hr).trans (by simp)
  clients := h.clients
  items := h.items

/-- A client asks for an operation. -/
theorem begin (h : s.Ok ids B) (op : ClientOp) (hidle : s.phases c = .idle) :
    ∃ B', (s.setPhase c (.looping op ((s.clerks c).request op) s.clock)).Ok ids B' := by
  have hclient := h.clients c
  have hphase := hclient.phase
  rw [hidle] at hphase
  obtain ⟨hlen⟩ := hphase
  let t : Ticket := {
    op, clientId := (s.clerks c).clientId, seqId := (s.clerks c).seqId, call := s.clock
    floor := (appliedOps s.serving.deployment.raft.trace).length }
  let B' : Books m := { B with toLedger := B.ask c t }
  have hle : Books.Le s.calls B B' := ⟨B.tickets_ask c t, fun _ _ => rfl⟩
  have honly : Books.Only c s.calls B B' :=
    ⟨fun c' hc => B.tickets_ask_of_ne hc t, fun _ _ => rfl, fun _ _ => rfl⟩
  have hself : B'.tickets c = B.tickets c ++ [t] := B.tickets_ask_self c t
  have hopen : B'.Open c t := by
    constructor
    · rw [hself, List.length_append, hlen]
      rfl
    · show (B'.tickets c)[(B.receipts c).length]? = some t
      rw [hself, ← hlen, List.getElem?_concat_length]
  refine ⟨B', h.servers.mono hle le_rfl fun c' t' ht' => ?_,
    h.mail.mono hle le_rfl (List.prefix_refl _),
    h.ledger.ask hclient.clientId (fun t' ht' hw _ => ?_) hlen rfl, fun c' t' ht' => ?_,
    h.answered_before, ClientOk.setPhase h.clients honly le_rfl
      ⟨hclient.clientId, fun k t' hk ht' hw => ?_, .looping hopen rfl⟩,
    h.items.congr rfl hle.tickets (fun _ => List.prefix_refl _) (Books.recorded_update honly ?_)⟩
  · rcases Ledger.mem_tickets_ask ht' with hold | ⟨-, rfl⟩
    · exact h.servers.floors c' t' hold
    · exact le_rfl
  · -- all its writes are over
    obtain ⟨k, hk⟩ := List.mem_iff_getElem?.mp ht'
    exact hclient.behind k t' (hlen ▸ (List.getElem?_eq_some_iff.mp hk).1) hk hw
  · rcases Ledger.mem_tickets_ask ht' with hold | ⟨-, rfl⟩
    · exact h.asked_before c' t' hold
    · exact le_rfl
  · rw [hself, List.getElem?_append_left (hlen ▸ hk)] at ht'
    exact hclient.behind k t' hk ht' hw
  · rw [hidle]
    rfl

/-- A clerk calls a server. -/
theorem call (h : s.Ok ids B) {op : ClientOp} {request : Request} {start : ℤ}
    (hlooping : s.phases c = .looping op request start) (dst : Fin n) :
    ∃ B', Ok ids { s.setPhase c (.calling op request start s.calls) with
      calls := s.calls + 1
      requests := s.requests ++ [{ id := s.calls, dst, request }] } B' := by
  have hclient := h.clients c
  have hphase := hclient.phase
  rw [hlooping] at hphase
  obtain _ | ⟨hopen, hseq⟩ := hphase
  rename_i t
  let B' : Books m :=
    { B with issuer := Function.update B.issuer s.calls (some (c, (B.receipts c).length)) }
  have hissuer : ∀ id < s.calls, B'.issuer id = B.issuer id :=
    fun id hid => Function.update_of_ne hid.ne ..
  have hself : B'.issuer s.calls = some (c, (B.receipts c).length) := Function.update_self ..
  have hle : Books.Le s.calls B B' := ⟨fun _ => List.prefix_refl _, hissuer⟩
  have honly : Books.Only c s.calls B B' := ⟨fun _ _ => rfl, fun _ _ => rfl, hissuer⟩
  have hmail := h.mail.mono hle (Nat.le_succ _) (List.prefix_refl _)
  refine ⟨B', h.servers.mono hle (Nat.le_succ _) h.servers.floors,
    ⟨fun rpc hrpc => ?_, hmail.replies⟩,
    h.ledger, h.asked_before, h.answered_before, ClientOk.setPhase h.clients honly (Nat.le_succ _)
      ⟨hclient.clientId, hclient.behind, .calling hopen hseq (Nat.lt_succ_self _) hself⟩,
    h.items.congr rfl hle.tickets (fun _ => List.prefix_refl _) (Books.recorded_update honly ?_)⟩
  · rcases List.mem_append.mp hrpc with hold | hnew
    · exact hmail.requests rpc hold
    · rw [List.mem_singleton.mp hnew]
      exact ⟨t, ⟨Nat.lt_succ_self _, c, _, hself, hopen.2⟩, rfl⟩
  · rw [hlooping]
    rfl

/-- A reply is taken from those on their way. -/
theorem taken (h : s.Ok ids B) (k : ℕ) : Ok ids { s with replies := s.replies.eraseIdx k } B where
  servers := h.servers
  mail := ⟨h.mail.requests, fun y hy => h.mail.replies y (List.mem_of_mem_eraseIdx hy)⟩
  ledger := h.ledger
  asked_before := h.asked_before
  answered_before := h.answered_before
  clients := h.clients
  items := h.items

/-- A `Call` has failed, and the clerk tries again. -/
theorem retried (h : s.Ok ids B) {op : ClientOp} {request : Request} {start : ℤ} {id : ℕ}
    (hcalling : s.phases c = .calling op request start id) :
    Ok ids { s with
      clerks := Function.update s.clerks c (s.clerks c).retry
      phases := Function.update s.phases c (.looping op request start) } B := by
  have hclient := h.clients c
  have hphase := hclient.phase
  rw [hcalling] at hphase
  obtain _ | _ | ⟨hopen, hseq, -, -⟩ := hphase
  have honly := Books.Only.refl c s.calls B
  refine ⟨h.servers, h.mail, h.ledger, h.asked_before, h.answered_before,
    ClientOk.update h.clients honly le_rfl ⟨hclient.clientId, hclient.behind, .looping hopen hseq⟩,
    h.items.congr rfl (fun _ => List.prefix_refl _) (fun _ => List.prefix_refl _)
      (Books.recorded_update honly ?_)⟩
  rw [hcalling]
  rfl

/-- The clerk returns. -/
theorem answered (h : s.Ok ids B) {t : Ticket} {id : ℕ} {reply : OpReply} {value : String}
    {ck : Clerk n} (hcalling : s.phases c = .calling t.op t.request t.call id)
    (hopen : B.Open c t) (hreply : ReplyOk (appliedOps s.serving.deployment.raft.trace) t reply)
    (hleader : reply.err ≠ .errWrongLeader) (htimeout : reply.err ≠ .errTimeout)
    (hvalue : ∀ key, t.op = .get key → value = reply.value)
    (hclientId : ck.clientId = (s.clerks c).clientId) (hseqId : (s.clerks c).seqId ≤ ck.seqId)
    (hnext : t.isWrite = true → t.seqId < ck.seqId) :
    ∃ B', Ok ids { s with
      clerks := Function.update s.clerks c ck
      phases := Function.update s.phases c (.returned t.op t.call value) } B' := by
  obtain ⟨i, hi, hfloor, hread⟩ := (hreply.resolve_left hleader).resolve_left htimeout
  let r : Receipt := {
    value, position := i, time := s.clock
    top := (appliedOps s.serving.deployment.raft.trace).length }
  have hanswers : r.Answers (appliedOps s.serving.deployment.raft.trace) t :=
    ⟨(List.getElem?_eq_some_iff.mp hi).1, le_rfl, hi, hfloor,
      fun key hkey => (hvalue key hkey).trans (hread key hkey),
      h.asked_before c t (List.mem_of_getElem? hopen.2)⟩
  let B' : Books m := { B with toLedger := B.answer c r }
  have hle : Books.Le s.calls B B' := ⟨fun _ => List.prefix_refl _, fun _ _ => rfl⟩
  have honly : Books.Only c s.calls B B' :=
    ⟨fun _ _ => rfl, fun c' hc => B.receipts_answer_of_ne hc r, fun _ _ => rfl⟩
  have hself : B'.receipts c = B.receipts c ++ [r] := B.receipts_answer_self c r
  have hclosed : B'.Closed c t r := by
    refine ⟨(B.receipts c).length, hopen.1, ?_, hopen.2, ?_⟩
    · rw [hself, List.length_append, List.length_singleton]
    · rw [hself, List.getElem?_concat_length]
  have hclient := h.clients c
  refine ⟨B', h.servers.mono hle le_rfl h.servers.floors,
    h.mail.mono hle le_rfl (List.prefix_refl _),
    h.ledger.answer hopen.2 hanswers h.asked_before, h.asked_before, fun c' r' hr' => ?_,
    ClientOk.update h.clients honly le_rfl
      ⟨hclientId.trans hclient.clientId, fun k t' hk ht' hw => ?_, .returned hclosed⟩,
    h.items.congr rfl hle.tickets (B.receipts_answer c r) (Books.recorded_update honly ?_)⟩
  · rcases Ledger.mem_receipts_answer hr' with hold | rfl
    · exact h.answered_before c' r' hold
    · exact le_rfl
  · rw [hself, List.length_append, List.length_singleton] at hk
    rcases Nat.lt_succ_iff_lt_or_eq.mp hk with hlt | rfl
    · exact (hclient.behind k t' hlt ht' hw).trans_le hseqId
    · obtain rfl := Option.some.inj (hopen.2.symm.trans ht')
      exact hnext hw
  · rw [hcalling]
    simp only [Books.recorded, hself, List.length_append, List.length_singleton, Nat.add_sub_cancel]

/-- The client takes the time of the return. -/
theorem finish (h : s.Ok ids B) {op : ClientOp} {start : ℤ} {value : String}
    (hreturned : s.phases c = .returned op start value) :
    (s.setPhase c (.ended op start value s.clock)).Ok ids B := by
  have hclient := h.clients c
  have hphase := hclient.phase
  rw [hreturned] at hphase
  obtain _ | _ | _ | ⟨hclosed⟩ := hphase
  have honly := Books.Only.refl c s.calls B
  have htime := h.answered_before c _ (List.mem_of_getElem? hclosed.choose_spec.2.2.2)
  refine ⟨h.servers, h.mail, h.ledger, h.asked_before, h.answered_before,
    ClientOk.setPhase h.clients honly le_rfl
      ⟨hclient.clientId, hclient.behind, .ended hclosed htime⟩,
    h.items.congr rfl (fun _ => List.prefix_refl _) (fun _ => List.prefix_refl _)
      (Books.recorded_update honly ?_)⟩
  rw [hreturned]
  rfl

/-- The client records its operation. -/
theorem log (h : s.Ok ids B) {op : ClientOp} {start ret : ℤ} {value : String}
    (hended : s.phases c = .ended op start value ret) :
    ∃ B', Ok ids { s.setPhase c .idle with
      operations := s.operations ++
        [{ clientId := c, input := op.input, call := start, output := { value }, ret }] } B' := by
  have hclient := h.clients c
  have hphase := hclient.phase
  rw [hended] at hphase
  obtain _ | _ | _ | _ | ⟨hclosed, hret⟩ := hphase
  rename_i t r
  obtain ⟨k, hlen, hlen', -⟩ := id hclosed
  let x : Ledger.Item m := ⟨c, k, t, r.value, ret⟩
  let B' : Books m := { B with items := B.items ++ [x] }
  have hle : Books.Le s.calls B B' := ⟨fun _ => List.prefix_refl _, fun _ _ => rfl⟩
  have honly : Books.Only c s.calls B B' := ⟨fun _ _ => rfl, fun _ _ => rfl, fun _ _ => rfl⟩
  refine ⟨B', h.servers.mono hle le_rfl h.servers.floors,
    h.mail.mono hle le_rfl (List.prefix_refl _),
    h.ledger, h.asked_before, h.answered_before, ClientOk.setPhase h.clients honly le_rfl
      ⟨hclient.clientId, hclient.behind, .idle (hlen.trans hlen'.symm)⟩,
    h.items.record (x := x) hclosed hlen'.symm rfl hret ?_⟩
  show B.recorded c (s.phases c) = k
  rw [hended]
  simp only [Books.recorded, hlen', Nat.add_sub_cancel]

/-- A `Call` returns, with a reply that belongs to it if there is one. -/
theorem resume (h : s.Ok ids B) {op : ClientOp} {request : Request} {start : ℤ} {id : ℕ}
    (hcalling : s.phases c = .calling op request start id) (reply : Option OpReply)
    (hreply : ∀ y, reply = some y →
      ∃ t, B.Issued s.calls id t ∧ ReplyOk (appliedOps s.serving.deployment.raft.trace) t y) :
    ∃ B', (s.resume c op request start reply).Ok ids B' := by
  unfold Service.resume
  have hrounds := (s.clerks c).rounds request reply
  generalize (s.clerks c).round request reply = result at hrounds
  obtain ⟨ck, value?⟩ := result
  have hphase := (h.clients c).phase
  rw [hcalling] at hphase
  obtain _ | _ | ⟨hopen, hseq, -, hissuer⟩ := hphase
  rename_i t
  -- the reply is to what the client waits for
  have hself : ∀ y, reply = some y → ReplyOk (appliedOps s.serving.deployment.raft.trace) t y := by
    intro y hy
    obtain ⟨t', ⟨-, c', k, hissuer', ht'⟩, hok⟩ := hreply y hy
    obtain ⟨rfl, rfl⟩ := Prod.mk.inj (Option.some.inj (hissuer.symm.trans hissuer'))
    obtain rfl := Option.some.inj (hopen.2.symm.trans ht')
    exact hok
  cases hrounds with
  | failed => exact ⟨B, h.retried hcalling⟩
  | read hrequest hleader htimeout =>
    refine h.answered hcalling hopen (hself _ rfl) hleader htimeout (fun _ _ => rfl) rfl le_rfl
      fun hw => ?_
    rw [Ticket.isWrite, ClientOp.isWrite_of_get hrequest] at hw
    cases hw
  | written hrequest hleader htimeout =>
    refine h.answered hcalling hopen (hself _ rfl) hleader htimeout (fun key hkey => ?_) rfl
      (Int.le.intro 1 rfl) (fun _ => hseq.trans_lt (Int.lt_succ _))
    rw [Ticket.request, hkey] at hrequest
    cases hrequest

/-- At the start nobody has asked for anything. -/
theorem init (ids : Fin m → ℤ) (maxraftstate : ℤ) (servers : Fin m → List (Fin n)) :
    (Service.init maxraftstate servers ids).Ok ids
      { tickets := fun _ => [], receipts := fun _ => [], issuer := fun _ => none,
        items := [] } where
  servers := ⟨Serving.repliesOk (Reach.refl _), nofun, fun _ => rfl, nofun, nofun⟩
  mail := ⟨nofun, nofun⟩
  ledger := ⟨nofun, fun _ => .nil, nofun, nofun, nofun, nofun⟩
  asked_before := nofun
  answered_before := nofun
  clients _ := ⟨rfl, nofun, .idle rfl⟩
  items := ⟨rfl, .nil, nofun, nofun⟩

/-- Whatever happens, the books can be kept in order. -/
theorem step (hids : Function.Injective ids) (h : s.Ok ids B) {a : ServiceMove n m}
    (hok : s.Regular a) {s' : Service n m} (hstep : s.step a = some s') : ∃ B', s'.Ok ids B' := by
  cases a with
  | serving move =>
    simp only [Service.step] at hstep
    split at hstep
    case h_1 => cases hstep
    case h_2 hcall =>
      obtain ⟨t, ht, rfl⟩ := Option.map_eq_some_iff.mp hstep
      exact ⟨B, h.serving hok hcall ht⟩
  | begin c op =>
    simp only [Service.step] at hstep
    split at hstep
    case h_1 hidle =>
      obtain rfl := Option.some.inj hstep
      exact h.begin op hidle
    case h_2 => cases hstep
  | call c =>
    simp only [Service.step] at hstep
    split at hstep
    case h_1 op request start hlooping =>
      obtain ⟨dst, -, rfl⟩ := Option.map_eq_some_iff.mp hstep
      exact h.call hlooping dst
    case h_2 => cases hstep
  | deliver k =>
    simp only [Service.step] at hstep
    split at hstep
    case h_1 => cases hstep
    case h_2 rpc hrpc =>
      obtain ⟨t, ht, rfl⟩ := Option.map_eq_some_iff.mp hstep
      exact ⟨B, h.deliver hrpc ht⟩
  | respond p j =>
    simp only [Service.step] at hstep
    split at hstep
    case h_1 hx hcaller =>
      obtain rfl := Option.some.inj hstep
      exact ⟨B, h.respond hids hx hcaller⟩
    case h_2 => cases hstep
  | receive c k =>
    simp only [Service.step] at hstep
    split at hstep
    case h_1 op request start id id' reply hcalling hreply =>
      split at hstep
      case isTrue hid =>
        obtain rfl := Option.some.inj hstep
        subst hid
        obtain ⟨B', hB'⟩ := h.resume hcalling (some reply) fun y hy => by
          obtain rfl := Option.some.inj hy
          exact h.mail.replies _ (List.mem_of_getElem? hreply)
        exact ⟨B', hB'.taken k⟩
      case isFalse => cases hstep
    case h_2 => cases hstep
  | fail c =>
    simp only [Service.step] at hstep
    split at hstep
    case h_1 op request start id hcalling =>
      obtain rfl := Option.some.inj hstep
      exact h.resume hcalling none fun y hy => by cases hy
    case h_2 => cases hstep
  | tick d =>
    obtain rfl := Option.some.inj hstep
    exact ⟨B, h.tick d⟩
  | finish c =>
    simp only [Service.step] at hstep
    split at hstep
    case h_1 op start value hreturned =>
      obtain rfl := Option.some.inj hstep
      exact ⟨B, h.finish hreturned⟩
    case h_2 => cases hstep
  | log c =>
    simp only [Service.step] at hstep
    split at hstep
    case h_1 op start value ret hended =>
      obtain rfl := Option.some.inj hstep
      exact h.log hended
    case h_2 => cases hstep

end Ok

theorem exists_ok {ids : Fin m → ℤ} (hids : Function.Injective ids) {maxraftstate : ℤ}
    {servers : Fin m → List (Fin n)} {s : Service n m}
    (h : Reach step Regular (init maxraftstate servers ids) s) : ∃ B, s.Ok ids B :=
  h.invariant (I := fun s => ∃ B, s.Ok ids B)
    (fun _ _ _ ⟨_, hs⟩ hok hstep => hs.step hids hok hstep)
    ⟨_, .init ids maxraftstate servers⟩

end Runs

end Service

/-! ## Operations that are not recorded -/

/-- What the operation of client `c` that has not been recorded may count as at the time `now`. If
the clerk has not returned, any answer may come at this time, or none at all. -/
inductive Phase.Completed (c : Fin m) (now : ℤ) : Phase → Option KvOperation → Prop
  | idle : Completed c now .idle none
  | dropped {op : ClientOp} {request : Request} {start : ℤ} {phase : Phase}
      (hphase : phase = .looping op request start ∨ ∃ id, phase = .calling op request start id) :
      Completed c now phase none
  | answered {op : ClientOp} {request : Request} {start : ℤ} {phase : Phase} (output : KvOutput)
      (hphase : phase = .looping op request start ∨ ∃ id, phase = .calling op request start id) :
      Completed c now phase
        (some { clientId := c, input := op.input, call := start, output, ret := now })
  | returned (op : ClientOp) (start : ℤ) (value : String) :
      Completed c now (.returned op start value)
        (some { clientId := c, input := op.input, call := start, output := { value }, ret := now })
  | ended (op : ClientOp) (start : ℤ) (value : String) (ret : ℤ) :
      Completed c now (.ended op start value ret)
        (some { clientId := c, input := op.input, call := start, output := { value }, ret })

/-- The books say that `item?` is what client `c` has done and not recorded. -/
structure Books.Unrecorded (B : Books m) (ops : List Op) (now : ℤ) (c : Fin m) (phase : Phase)
    (item? : Option (Ledger.Item m)) : Prop where
  completed : phase.Completed c now (item?.map Ledger.Item.operation)
  item : ∀ x ∈ item?, x.client = c ∧ B.recorded c phase ≤ x.number ∧
    (B.tickets c)[x.number]? = some x.ticket ∧
    ((∃ r, (B.receipts c)[x.number]? = some r ∧ r.value = x.value ∧ r.time ≤ x.ret) ∨
      (x.ticket.isWrite = true ∧ x.ticket.command ∈ ops ∧ x.ret = now))
  complete : ∀ (k : ℕ) t, B.recorded c phase ≤ k → (B.tickets c)[k]? = some t → t.isWrite = true →
    t.command ∈ ops → ∃ x ∈ item?, x.number = k

namespace Books

variable {B : Books m} {ops : List Op} {now : ℤ} {c : Fin m} {phase : Phase} {t : Ticket}
  {r : Receipt}

/-- The clerk has not returned: the operation counts if it is a write that has been executed. -/
theorem Open.exists_unrecorded (hopen : B.Open c t)
    (hphase : phase = .looping t.op t.request t.call ∨
      ∃ id, phase = .calling t.op t.request t.call id) :
    ∃ item?, B.Unrecorded ops now c phase item? := by
  have hrecorded : B.recorded c phase = (B.receipts c).length := by
    rcases hphase with rfl | ⟨id, rfl⟩ <;> rfl
  have honly : ∀ (k : ℕ) t', B.recorded c phase ≤ k → (B.tickets c)[k]? = some t' →
      k = (B.receipts c).length ∧ t' = t := by
    intro k t' hk ht'
    have hlt := (List.getElem?_eq_some_iff.mp ht').1
    obtain rfl : k = (B.receipts c).length := by rw [hopen.1] at hlt; omega
    exact ⟨rfl, Option.some.inj (ht'.symm.trans hopen.2)⟩
  by_cases hexec : t.isWrite = true ∧ t.command ∈ ops
  · refine ⟨some ⟨c, (B.receipts c).length, t, "", now⟩, .answered _ hphase, ?_,
      fun k t' hk ht' _ _ => ?_⟩
    · intro x hx
      obtain rfl := Option.mem_some.mp hx
      exact ⟨rfl, hrecorded.le, hopen.2, Or.inr ⟨hexec.1, hexec.2, rfl⟩⟩
    · exact ⟨_, rfl, (honly k t' hk ht').1.symm⟩
  · refine ⟨none, .dropped hphase, nofun, fun k t' hk ht' hw hmem => ?_⟩
    obtain ⟨-, rfl⟩ := honly k t' hk ht'
    exact absurd ⟨hw, hmem⟩ hexec

/-- The clerk has returned. -/
theorem Closed.exists_unrecorded (hclosed : B.Closed c t r) {ret : ℤ} (hret : r.time ≤ ret)
    (hrecorded : B.recorded c phase = (B.receipts c).length - 1)
    (hcompleted : phase.Completed c now (some
      { clientId := c, input := t.op.input, call := t.call, output := { value := r.value },
        ret })) :
    ∃ item?, B.Unrecorded ops now c phase item? := by
  obtain ⟨k, hlen, hlen', ht, hr⟩ := hclosed
  rw [hlen', Nat.add_sub_cancel] at hrecorded
  refine ⟨some ⟨c, k, t, r.value, ret⟩, hcompleted, ?_, fun k' t' hk' ht' _ _ => ?_⟩
  · intro x hx
    obtain rfl := Option.mem_some.mp hx
    exact ⟨rfl, hrecorded.le, ht, Or.inl ⟨r, hr, rfl, hret⟩⟩
  · have hlt := (List.getElem?_eq_some_iff.mp ht').1
    exact ⟨_, rfl, show k = k' by omega⟩

end Books

namespace Service

section Linearizable

variable [RaftGob Op] [KVGob] {ids : Fin m → ℤ} {s : Service n m} {B : Books m}

theorem Ok.exists_unrecorded (h : s.Ok ids B) (c : Fin m) :
    ∃ item?, B.Unrecorded (appliedOps s.serving.deployment.raft.trace) s.clock c
      (s.phases c) item? := by
  have hphase := (h.clients c).phase
  generalize s.phases c = phase at hphase
  cases hphase with
  | idle hlen =>
    refine ⟨none, .idle, nofun, fun k t hk ht _ _ => ?_⟩
    have hlt := (List.getElem?_eq_some_iff.mp ht).1
    have hrecorded : B.recorded c .idle = (B.receipts c).length := rfl
    omega
  | looping hopen => exact hopen.exists_unrecorded (Or.inl rfl)
  | calling hopen => exact hopen.exists_unrecorded (Or.inr ⟨_, rfl⟩)
  | returned hclosed =>
    have htime := h.answered_before c _ (List.mem_of_getElem? hclosed.choose_spec.2.2.2)
    exact hclosed.exists_unrecorded htime rfl (.returned ..)
  | ended hclosed hret => exact hclosed.exists_unrecorded hret rfl (.ended ..)

/-- What has been recorded and what has not make a history of the ledger. -/
theorem Ok.history (h : s.Ok ids B) {item? : Fin m → Option (Ledger.Item m)}
    (hitem : ∀ c, B.Unrecorded (appliedOps s.serving.deployment.raft.trace) s.clock c (s.phases c)
      (item? c)) :
    B.History (appliedOps s.serving.deployment.raft.trace)
      (B.items ++ (List.finRange m).filterMap item?) := by
  have hmem : ∀ x, x ∈ (List.finRange m).filterMap item? → ∃ c, item? c = some x := by
    intro x hx
    obtain ⟨c, -, hc⟩ := List.mem_filterMap.mp hx
    exact ⟨c, hc⟩
  refine ⟨?_, fun x hx => ?_, fun x hx => ?_, fun c k t ht hw hmem' => ?_⟩
  · rw [List.map_append, List.nodup_append]
    refine ⟨h.items.nodup, ?_, ?_⟩
    · rw [List.map_filterMap]
      refine (List.nodup_finRange m).filterMap fun c c' y hy hy' => ?_
      obtain ⟨x, hx, rfl⟩ := Option.map_eq_some_iff.mp hy
      obtain ⟨x', hx', heq⟩ := Option.map_eq_some_iff.mp hy'
      rw [← ((hitem c).item x hx).1, ← ((hitem c').item x' hx').1]
      exact (Prod.mk.inj heq).1.symm
    · -- numbers of recorded operations are below those of the others
      rintro _ hold _ hnew rfl
      obtain ⟨x, hx, rfl⟩ := List.mem_map.mp hold
      obtain ⟨y, hy, heq⟩ := List.mem_map.mp hnew
      obtain ⟨c, hc⟩ := hmem y hy
      obtain ⟨rfl, hle, -⟩ := (hitem c).item y hc
      obtain ⟨hclient, hnumber⟩ := Prod.mk.inj heq
      have hlt := (h.items.item x hx).1
      rw [← hclient, ← hnumber] at hlt
      exact absurd hlt (not_lt.mpr hle)
  · rcases List.mem_append.mp hx with hx | hx
    · exact (h.items.item x hx).2.1
    · obtain ⟨c, hc⟩ := hmem x hx
      obtain ⟨rfl, -, ht, -⟩ := (hitem c).item x hc
      exact ht
  · rcases List.mem_append.mp hx with hx | hx
    · exact Or.inl (h.items.item x hx).2.2
    · obtain ⟨c, hc⟩ := hmem x hx
      obtain ⟨rfl, -, -, hreturned⟩ := (hitem c).item x hc
      refine hreturned.imp_right fun ⟨hw, hexec, hret⟩ => ⟨hw, hexec, fun c t ht => ?_⟩
      rw [hret]
      exact h.asked_before c t ht
  · rcases Nat.lt_or_ge k (B.recorded c (s.phases c)) with hlt | hge
    · obtain ⟨x, hx, hrest⟩ := h.items.complete c k hlt
      exact ⟨x, List.mem_append_left _ hx, hrest⟩
    · obtain ⟨x, hx, rfl⟩ := (hitem c).complete k t hge ht hw hmem'
      exact ⟨x, List.mem_append_right _ (List.mem_filterMap.mpr ⟨c, List.mem_finRange c, hx⟩),
        ((hitem c).item x hx).1, rfl⟩

theorem Ok.linearizable_completion (hids : Function.Injective ids) (h : s.Ok ids B) :
    ∃ rest : Fin m → Option KvOperation, (∀ c, (s.phases c).Completed c s.clock (rest c)) ∧
      LinearizableStore (s.operations ++ (List.finRange m).filterMap rest) := by
  choose item? hitem using h.exists_unrecorded
  refine ⟨fun c => (item? c).map Ledger.Item.operation, fun c => (hitem c).completed, ?_⟩
  have hlinear := h.ledger.linearizable hids (h.history hitem)
  rwa [List.map_append, ← h.items.operations, List.map_filterMap] at hlinear

/-- Once all clients are done, what they have recorded is linearizable by itself. -/
theorem Ok.linearizable_of_idle (hids : Function.Injective ids) (h : s.Ok ids B)
    (hidle : ∀ c, s.phases c = .idle) : LinearizableStore s.operations := by
  obtain ⟨rest, hrest, hlinear⟩ := h.linearizable_completion hids
  have hnone : (List.finRange m).filterMap rest = [] := by
    refine List.filterMap_eq_nil_iff.mpr fun c _ => ?_
    have hc := hrest c
    rw [hidle c] at hc
    generalize rest c = v? at hc
    cases hc with
    | idle => rfl
    | dropped => rfl
    | answered output hphase => rcases hphase with hphase | ⟨id, hphase⟩ <;> cases hphase
  rwa [hnone, List.append_nil] at hlinear

/-- What is recorded was called before it returned. -/
theorem Ok.call_le_ret (h : s.Ok ids B) : ∀ v ∈ s.operations, v.call ≤ v.ret := by
  intro v hv
  rw [h.items.operations] at hv
  obtain ⟨x, hx, rfl⟩ := List.mem_map.mp hv
  obtain ⟨-, ht, r, hr, -, htime⟩ := h.items.item x hx
  obtain ⟨t, ht', hanswers⟩ := h.ledger.answered _ _ r hr
  obtain rfl := Option.some.inj (ht.symm.trans ht')
  exact hanswers.call_le.trans htime

variable {maxraftstate : ℤ} {servers : Fin m → List (Fin n)}

/-- **The service is linearizable.** Clerks with different numbers call the servers, which restart,
run behind, take over from each other and may apply a command twice. In every run whose cluster
steps are orderly, in which no request is altered before it is encoded and in which `applyTask`
notifies a handler only in the term in which its command was accepted, what the clients have
recorded at any time is a history of one store in which every operation takes effect between its
call and its return, if each operation that is not recorded yet is given the answer it has, or if it
has none, some answer or none at all. -/
theorem operations_linearizable (hids : Function.Injective ids) {x : Sharing n Op (Service n m)}
    (h : (host n m).SharesUnaltered Regular (init maxraftstate servers ids) x) :
    ∃ rest : Fin m → Option KvOperation,
      (∀ c, (x.state.phases c).Completed c x.state.clock (rest c)) ∧
      LinearizableStore (x.state.operations ++ (List.finRange m).filterMap rest) := by
  obtain ⟨B, hB⟩ := exists_ok hids (Host.reach_of_unaltered h)
  exact hB.linearizable_completion hids

/-- The tests at the end of such a run: whatever the schedule of `checkOperations` on what the
clients have recorded, and whichever way it sorts the entries, the check never says that it is
illegal. Without a timeout it ends with `ok`, unless there is nothing to check. -/
theorem check_ok (hids : Function.Injective ids) {x : Sharing n Op (Service n m)}
    (h : (host n m).SharesUnaltered Regular (init maxraftstate servers ids) x)
    (hidle : ∀ c, x.state.phases c = .idle) {parts : List (List (Entry KvInput KvOutput))}
    (hparts : OperationParts (fillDefault kvModel) x.state.operations parts) {computeInfo : Bool}
    {timeout : ℤ} {turns : List Turn} {check : Checking KvInput KvOutput String}
    (hrun : exec (Checking.step (fillDefault kvModel) parts computeInfo timeout) (fun _ _ => True)
      turns (Checking.start parts) = some check) :
    (∀ r, check.result = some r → r ≠ .illegal ∧ (timeout ≤ 0 → r = .ok)) ∧
    ((∀ turn, check.step (fillDefault kvModel) parts computeInfo timeout turn = none) →
      timeout ≤ 0 → x.state.operations ≠ [] → check.result = some .ok) := by
  obtain ⟨B, hB⟩ := exists_ok hids (Host.reach_of_unaltered h)
  have hle := hB.call_le_ret
  have hle' := KvModel.le_of_mem_partition hle
  have hwf := hparts.wellFormed hle'
  have hiff := (hparts.linearizable_iff hle').trans (KvModel.forall_partition_iff hle)
  have hlinear := hB.linearizable_of_idle hids hidle
  have hverdict : ∀ r, check.result = some r → r ≠ .illegal ∧ (timeout ≤ 0 → r = .ok) := by
    intro r hr
    have hright := Checking.right_of_parts hwf KvModel.equalSound hiff (Reach.of_exec hrun) hr
    have hlegal : r ≠ .illegal := fun hr => hright.illegal hr hlinear
    refine ⟨hlegal, fun htimeout => ?_⟩
    cases r with
    | ok => rfl
    | illegal => exact absurd rfl hlegal
    | unknown => exact absurd (hright.unknown rfl) (not_lt.mpr htimeout)
  refine ⟨hverdict, fun hstuck htimeout hne => ?_⟩
  cases hresult : check.result with
  | some r => rw [(hverdict r hresult).2 htimeout]
  | none =>
    obtain ⟨hnil, -⟩ := (Checking.bound_and_progress hwf KvModel.equalSound hrun).2 hstuck hresult
    have hlen : (KvModel.partition x.state.operations).length = 0 := by
      have := hparts.length_eq
      rwa [hnil] at this
    exact absurd (KvModel.partition_eq_nil.mp (List.eq_nil_of_length_eq_zero hlen)) hne

end Linearizable

/-- Peer `0` is elected. Client `0` puts a key and client `1` gets it; `Start` has accepted both. -/
def untilAsked : List (ServiceMove 3 2) :=
  [.serving (.raft (.act 0 .tickerStep)), .serving (.raft (.act 0 .electionTimeout)),
    .serving (.raft (.act 0 (.startElection 0))), .serving (.raft (.deliver 0)),
    .serving (.raft (.deliver 1)), .begin 0 (.put "x" "a"), .call 0, .deliver 0, .tick 1,
    .serving (.run 0 0), .serving (.run 0 0), .serving (.run 0 0), .begin 1 (.get "x"), .call 1,
    .deliver 0, .serving (.run 0 1), .serving (.run 0 1)]

/-- Both commands are committed and applied. The clerk of client `0` has its reply. -/
def untilAnswered : List (ServiceMove 3 2) :=
  [.serving (.raft (.act 0 (.replicationTick 0))), .serving (.raft (.deliver 1)),
    .serving (.raft (.deliver 2)), .serving (.raft (.act 0 .tickerStep)),
    .serving (.raft (.act 0 .tickerStep)), .serving (.raft (.act 0 .tickerStep)),
    .serving (.task 0),
    .serving (.task 0), .serving (.task 0), .serving (.raft (.act 0 .tickerStep)),
    .serving (.raft (.act 0 .tickerStep)), .serving (.task 0), .serving (.task 0),
    .serving (.task 0),
    .serving (.run 0 0), .serving (.run 0 1), .respond 0 0, .respond 0 1, .receive 0 0]

/-- Both clients have recorded their operations. -/
def untilRecorded : List (ServiceMove 3 2) :=
  [.receive 1 0, .tick 1, .finish 0, .tick 1, .finish 1, .log 0, .log 1]

/-- The clerks of the two clients. -/
def twoClerks : Service 3 2 := init (-1) (fun _ => [0, 1, 2]) fun c => 7 + c

/-- Nothing is recorded, but one client knows that its key has been put. -/
theorem operations_linearizable_before_recorded : ∃ x : Sharing 3 Op (Service 3 2),
    (host 3 2).SharesUnaltered Regular twoClerks x ∧
    x.state.phases 0 = .returned (.put "x" "a") 0 "" ∧ x.state.phases 1 ≠ .idle ∧
    x.state.operations = [] ∧
    ∃ rest : Fin 2 → Option KvOperation,
      (∀ c, (x.state.phases c).Completed c x.state.clock (rest c)) ∧
      LinearizableStore ((List.finRange 2).filterMap rest) := by
  have hrun : ∃ s : Service 3 2, Reach step Regular twoClerks s ∧
      (s.phases 0 = .returned (.put "x" "a") 0 "" ∧ s.phases 1 ≠ .idle ∧ s.operations = []) :=
    Reach.exists_of_exec (untilAsked ++ untilAnswered) (by decide +kernel)
  obtain ⟨s, hs, hreturned, hbusy, hnone⟩ := hrun
  obtain ⟨x, hx, rfl⟩ := (host 3 2).exists_unaltered (s := twoClerks) (Reach.refl _) hs
  obtain ⟨rest, hrest, hlinear⟩ := operations_linearizable (by decide) hx
  rw [hnone, List.nil_append] at hlinear
  exact ⟨x, hx, hreturned, hbusy, hnone, rest, hrest, hlinear⟩

/-- The clients record `putAndGet`, and the check of it says `ok`. -/
theorem check_ok_putAndGet : ∃ x : Sharing 3 Op (Service 3 2),
    (host 3 2).SharesUnaltered Regular twoClerks x ∧ x.state.operations = putAndGet ∧
    ∃ check : Checking KvInput KvOutput String,
      exec (Checking.step (fillDefault kvModel) [makeEntries x.state.operations] true 0)
        (fun _ _ => True) Checking.putAndGetTurns
          (Checking.start [makeEntries x.state.operations]) =
          some check ∧
      check.result = some .ok := by
  have hreach : ∃ s : Service 3 2, Reach step Regular twoClerks s ∧
      (s.operations = putAndGet ∧ ∀ c, s.phases c = .idle) :=
    Reach.exists_of_exec (untilAsked ++ untilAnswered ++ untilRecorded) (by decide +kernel)
  obtain ⟨s, hs, hoperations, hidle⟩ := hreach
  obtain ⟨x, hx, rfl⟩ := (host 3 2).exists_unaltered (s := twoClerks) (Reach.refl _) hs
  obtain ⟨check, hrun, hresult⟩ := Checking.exists_checked_putAndGet
  have hparts := operationParts_makeEntries (fillDefault kvModel) putAndGet
  rw [show (fillDefault kvModel).partition putAndGet = [putAndGet] from partition_putAndGet,
    ← hoperations] at hparts
  rw [← hoperations] at hrun
  obtain ⟨r, hr⟩ : ∃ r, check.result = some r := ⟨_, hresult⟩
  have hok : r = .ok := ((check_ok (by decide) hx hidle hparts hrun).1 r hr).2 le_rfl
  exact ⟨x, hx, hoperations, check, hrun, hok ▸ hr⟩

end Service

end LogicRaft
