import LogicRaft.Common.GrowingLists
import LogicRaft.KV.Clerk
import LogicRaft.KV.ExactlyOnce

/-!
# From one sequence of commands to a linearizable history

What the clients of a key-value service see is explained by the sequence `ops` of commands that its
servers execute. A `Ledger` says how: for every client the operations it has asked for, each with
the number of commands that had been executed by then (`Ticket`), and those that have been answered,
each with the place of the command that its answer comes from (`Receipt`). A client's write is
retried, so it may have many copies in `ops`; the first of them is the one that counts.

If the ledger is in order (`Ledger.Ok`), the operations are linearizable: writes take effect at
their first copies, and reads where they were answered (`Ledger.Ok.linearizable`).
-/

namespace LogicRaft

open Porcupine (KvInput KvOutput KvOperation)
open Porcupine.KvModel (storeStep LinearizableStore)

/-! ## Operations and their commands -/

namespace ClientOp

/-- The command for the log. -/
def command (clientId seqId : ℤ) : ClientOp → Op
  | .get key => { key, opType := .opGet }
  | .put key value => { key, value, opType := .opPut, clientId, seqId }
  | .append key value => { key, value, opType := .opAppend, clientId, seqId }

def isWrite : ClientOp → Bool
  | .get _ => false
  | _ => true

theorem op?_request (op : ClientOp) (clientId seqId : ℤ) :
    (op.request clientId seqId).op? = some (op.command clientId seqId) := by
  cases op <;> rfl

theorem isWrite_command (op : ClientOp) (clientId seqId : ℤ) :
    (op.command clientId seqId).isWrite = op.isWrite := by
  cases op <;> rfl

/-- Only writes carry the numbers of their client. -/
theorem ids_command {op : ClientOp} (h : op.isWrite = true) (clientId seqId : ℤ) :
    (op.command clientId seqId).clientId = clientId ∧
    (op.command clientId seqId).seqId = seqId := by
  cases op with
  | get => cases h
  | put | append => exact ⟨rfl, rfl⟩

theorem isWrite_of_get {op : ClientOp} {clientId seqId : ℤ} {args : GetArgs}
    (h : op.request clientId seqId = .get args) : op.isWrite = false := by
  cases op with
  | get => rfl
  | put | append => cases h

/-- Only writes are sent as `PutAppend`, with the numbers of their client. -/
theorem ids_request {op : ClientOp} {clientId seqId : ℤ} {args : PutAppendArgs}
    (h : op.request clientId seqId = .putAppend args) :
    op.isWrite = true ∧ args.clientId = clientId ∧ args.seqId = seqId := by
  cases op with
  | get => cases h
  | put | append =>
    obtain rfl := Request.putAppend.inj h
    exact ⟨rfl, rfl, rfl⟩

end ClientOp

/-- The values of all keys, as `Get` returns them. -/
def Store.values (st : Store) (key : String) : String := (st.stateMachine.get key).1

namespace KVStateMachine

theorem get_fst (m : KVStateMachine) (key : String) :
    (m.get key).1 = (m.kv.lookup key).getD "" := by
  unfold get
  split
  case h_1 value hvalue => rw [hvalue]; rfl
  case h_2 hnone => rw [hnone]; rfl

theorem values_insert (m : KVStateMachine) (key value : String) :
    (fun k => (KVStateMachine.get ⟨m.kv.insert key value⟩ k).1) =
      Function.update (fun k => (m.get k).1) key value := by
  funext k
  rw [get_fst]
  by_cases hk : k = key
  · subst hk
    rw [Finmap.lookup_insert, Function.update_self]
    rfl
  · rw [Finmap.lookup_insert_of_ne _ hk, Function.update_of_ne hk, get_fst]

end KVStateMachine

namespace Store

variable (st : Store)

/-- A read is allowed where it returns what is there. -/
theorem storeStep_get {v : KvOperation} {key : String}
    (hinput : v.input = ClientOp.input (.get key))
    (hvalue : v.output.value = st.values key) : storeStep st.values v = some st.values := by
  simp [storeStep, hinput, ClientOp.input, hvalue]

/-- A write that is not a repeated one does to the values what it says. -/
theorem storeStep_write {v : KvOperation} {op : ClientOp} (hinput : v.input = op.input)
    (hw : op.isWrite = true) {clientId seqId : ℤ}
    (hnew : st.requestDuplicated clientId seqId = false) :
    storeStep st.values v = some (st.applyOp (op.command clientId seqId)).1.values := by
  obtain ⟨hclient, hseq⟩ := ClientOp.ids_command hw clientId seqId
  rw [st.applyOp_write (by rw [op.isWrite_command, hw]) (by rw [hclient, hseq, hnew])]
  cases op with
  | get => cases hw
  | put key value =>
    simp only [storeStep, hinput, ClientOp.input, ClientOp.command,
      KVStateMachine.applyToStateMachine, KVStateMachine.put]
    exact congrArg some (KVStateMachine.values_insert _ key value).symm
  | append key value =>
    simp only [storeStep, hinput, ClientOp.input, ClientOp.command,
      KVStateMachine.applyToStateMachine, KVStateMachine.append, ← KVStateMachine.get_fst]
    exact congrArg some (KVStateMachine.values_insert _ key _).symm

end Store

/-! ## The ledger -/

/-- An operation that a client has asked for: with which numbers, when, and how many commands had
been executed by then. -/
structure Ticket where
  op : ClientOp
  clientId : ℤ
  seqId : ℤ
  call : ℤ
  floor : ℕ

/-- The answer to an operation: its value, where the command stands that it comes from, and how many
commands had been executed when it was received, and at what time. -/
structure Receipt where
  value : String
  position : ℕ
  top : ℕ
  time : ℤ

/-- The operations of every client and the answers to them, the oldest first. -/
structure Ledger (m : ℕ) where
  tickets : Fin m → List Ticket
  receipts : Fin m → List Receipt

namespace Ticket

def request (t : Ticket) : Request := t.op.request t.clientId t.seqId

def command (t : Ticket) : Op := t.op.command t.clientId t.seqId

def isWrite (t : Ticket) : Bool := t.op.isWrite

theorem op?_request (t : Ticket) : t.request.op? = some t.command := t.op.op?_request _ _

theorem isWrite_command (t : Ticket) : t.command.isWrite = t.isWrite := t.op.isWrite_command _ _

end Ticket

/-- The answer comes from a command of the operation. A read returns what was there, and its command
was executed after it was asked for. -/
structure Receipt.Answers (r : Receipt) (ops : List Op) (t : Ticket) : Prop where
  lt_top : r.position < r.top
  top_le : r.top ≤ ops.length
  command : ops[r.position]? = some t.command
  floor_le : t.isWrite = false → t.floor ≤ r.position
  value : ∀ key, t.op = .get key → r.value = (Store.replay (ops.take r.position)).values key
  call_le : t.call ≤ r.time

theorem Receipt.Answers.mono {r : Receipt} {ops ops' : List Op} {t : Ticket} (h : r.Answers ops t)
    (hpre : ops <+: ops') : r.Answers ops' t where
  lt_top := h.lt_top
  top_le := h.top_le.trans hpre.length_le
  command := getElem?_of_grown hpre h.command
  floor_le := h.floor_le
  value key hkey := by
    rw [take_of_grown hpre (h.lt_top.le.trans h.top_le)]
    exact h.value key hkey
  call_le := h.call_le

namespace Ledger

variable {m : ℕ}

/-- The ledger explains the sequence `ops`, for clients with the numbers `ids`. -/
structure Ok (ids : Fin m → ℤ) (ops : List Op) (L : Ledger m) : Prop where
  clientId : ∀ c, ∀ t ∈ L.tickets c, t.clientId = ids c
  /-- a client numbers its writes -/
  increasing : ∀ c, (L.tickets c).Pairwise fun t t' =>
    t.isWrite = true → t'.isWrite = true → t.seqId < t'.seqId
  /-- a client asks for one operation after the other -/
  sequential : ∀ c (k k' : ℕ) t', (L.tickets c)[k']? = some t' → k < k' →
    ∃ r, (L.receipts c)[k]? = some r ∧ r.top ≤ t'.floor
  answered : ∀ c (k : ℕ) r, (L.receipts c)[k]? = some r →
    ∃ t, (L.tickets c)[k]? = some t ∧ r.Answers ops t
  /-- every write was asked for, and was executed after that -/
  asked : ∀ (i : ℕ) op, ops[i]? = some op → op.isWrite = true →
    ∃ c, ∃ t ∈ L.tickets c, t.command = op ∧ t.floor ≤ i
  /-- what was answered in the past of an operation has its command before it -/
  timely : ∀ c, ∀ r ∈ L.receipts c, ∀ c', ∀ t ∈ L.tickets c', r.time < t.call → r.top ≤ t.floor

namespace Ok

variable {ids : Fin m → ℤ} {ops : List Op} {L : Ledger m}

/-- A write comes from the client it names. -/
theorem same_client (hids : Function.Injective ids) (h : L.Ok ids ops) {c c' : Fin m}
    {t t' : Ticket} (ht : t ∈ L.tickets c) (ht' : t' ∈ L.tickets c') (hw : t.isWrite = true)
    (hw' : t'.isWrite = true) (hclient : t.command.clientId = t'.command.clientId) : c = c' := by
  apply hids
  rw [← h.clientId c t ht, ← h.clientId c' t' ht']
  exact (ClientOp.ids_command hw _ _).1.symm.trans (hclient.trans (ClientOp.ids_command hw' _ _).1)

theorem seqId_lt (h : L.Ok ids ops) {c : Fin m} {k k' : ℕ} {t t' : Ticket}
    (ht : (L.tickets c)[k]? = some t) (ht' : (L.tickets c)[k']? = some t') (hw : t.isWrite = true)
    (hw' : t'.isWrite = true) (hlt : k < k') : t.command.seqId < t'.command.seqId := by
  obtain ⟨hk, rfl⟩ := List.getElem?_eq_some_iff.mp ht
  obtain ⟨hk', rfl⟩ := List.getElem?_eq_some_iff.mp ht'
  have hsorted := List.pairwise_iff_getElem.mp (h.increasing c) k k' hk hk' hlt hw hw'
  exact (ClientOp.ids_command hw _ _).2.trans_lt
    (hsorted.trans_eq (ClientOp.ids_command hw' _ _).2.symm)

/-- A write is known by its numbers. -/
theorem unique (hids : Function.Injective ids) (h : L.Ok ids ops) {c c' : Fin m} {k k' : ℕ}
    {t t' : Ticket} (ht : (L.tickets c)[k]? = some t) (ht' : (L.tickets c')[k']? = some t')
    (hw : t.isWrite = true) (hw' : t'.isWrite = true)
    (hclient : t.command.clientId = t'.command.clientId)
    (hseq : t.command.seqId = t'.command.seqId) :
    c = c' ∧ k = k' := by
  obtain rfl := h.same_client hids (List.mem_of_getElem? ht)
    (List.mem_of_getElem? ht') hw hw' hclient
  refine ⟨rfl, ?_⟩
  rcases Nat.lt_trichotomy k k' with hlt | heq | hgt
  · exact absurd hseq (h.seqId_lt ht ht' hw hw' hlt).ne
  · exact heq
  · exact absurd hseq (h.seqId_lt ht' ht hw' hw hgt).ne'

/-- What a client has left behind was executed before anything it asked for later. -/
theorem executed_before (h : L.Ok ids ops) {c : Fin m} {k k' : ℕ} {t t' : Ticket}
    (ht : (L.tickets c)[k]? = some t) (ht' : (L.tickets c)[k']? = some t') (hlt : k < k') :
    ∃ i < t'.floor, ops[i]? = some t.command := by
  obtain ⟨r, hr, hfloor⟩ := h.sequential c k k' t' ht' hlt
  obtain ⟨t₀, ht₀, hanswers⟩ := h.answered c k r hr
  obtain rfl := Option.some.inj (ht.symm.trans ht₀)
  exact ⟨r.position, hanswers.lt_top.trans_le hfloor, hanswers.command⟩

/-- The ticket of a write in the sequence. -/
theorem exists_ticket (h : L.Ok ids ops) {i : ℕ} {op : Op} (hop : ops[i]? = some op)
    (hw : op.isWrite = true) : ∃ c, ∃ k : ℕ, ∃ t, (L.tickets c)[k]? = some t ∧ t.command = op ∧
      t.isWrite = true ∧ t.floor ≤ i := by
  obtain ⟨c, t, ht, hcommand, hfloor⟩ := h.asked i op hop hw
  obtain ⟨k, hk⟩ := List.mem_iff_getElem?.mp ht
  exact ⟨c, k, t, hk, hcommand, by rw [← t.isWrite_command, hcommand, hw], hfloor⟩

/-- If a client has a write with a higher number in the sequence, its own write is there before. -/
theorem overtaken (hids : Function.Injective ids) (h : L.Ok ids ops) {c : Fin m} {k i : ℕ}
    {t : Ticket} {op : Op} (ht : (L.tickets c)[k]? = some t) (hw : t.isWrite = true)
    (hop : ops[i]? = some op) (hwop : op.isWrite = true)
    (hclient : op.clientId = t.command.clientId)
    (hlt : t.command.seqId < op.seqId) : ∃ j < i, ops[j]? = some t.command := by
  obtain ⟨c', k', t', ht', rfl, hw', hfloor⟩ := h.exists_ticket hop hwop
  obtain rfl := h.same_client hids (List.mem_of_getElem? ht')
    (List.mem_of_getElem? ht) hw' hw hclient
  have hk : k < k' := by
    rcases Nat.lt_trichotomy k k' with hlt | rfl | hgt
    · exact hlt
    · rw [Option.some.inj (ht.symm.trans ht')] at hlt
      exact absurd hlt (lt_irrefl _)
    · exact absurd hlt (h.seqId_lt ht' ht hw' hw hgt).asymm
  obtain ⟨j, hj, hcopy⟩ := h.executed_before ht ht' hk
  exact ⟨j, hj.trans_le hfloor, hcopy⟩

/-- A client that has got as far as this write in the sequence has executed it. -/
theorem executed (hids : Function.Injective ids) (h : L.Ok ids ops) {c : Fin m} {k i : ℕ}
    {t : Ticket} {op : Op} (ht : (L.tickets c)[k]? = some t) (hw : t.isWrite = true)
    (hop : ops[i]? = some op) (hwop : op.isWrite = true)
    (hclient : op.clientId = t.command.clientId)
    (hle : t.command.seqId ≤ op.seqId) : ∃ j ≤ i, ops[j]? = some t.command := by
  rcases hle.lt_or_eq with hlt | heq
  · obtain ⟨j, hj, hcopy⟩ := h.overtaken hids ht hw hop hwop hclient hlt
    exact ⟨j, hj.le, hcopy⟩
  · obtain ⟨c', k', t', ht', rfl, hw', -⟩ := h.exists_ticket hop hwop
    obtain ⟨rfl, rfl⟩ := h.unique hids ht' ht hw' hw hclient heq.symm
    rw [Option.some.inj (ht.symm.trans ht')]
    exact ⟨i, Nat.le_refl i, hop⟩

/-- The first copies of every client's writes come in the order of their numbers. -/
theorem clerkOrder (hids : Function.Injective ids) (h : L.Ok ids ops) (k : ℕ) :
    ClerkOrder (ops.take k) := by
  induction k with
  | zero =>
    rw [List.take_zero]
    exact fun i j a b ha => by cases ha.1
  | succ k ih =>
    cases hop : ops[k]? with
    | none => rwa [List.take_add_one, hop, Option.toList_none, List.append_nil]
    | some op =>
      rw [List.take_add_one, hop, Option.toList_some, ClerkOrder, writes_concat]
      split
      case isFalse => rwa [List.append_nil]
      case isTrue hw =>
        refine ih.concat fun b hb hclient hlt => ?_
        obtain ⟨hb, hwb⟩ := List.mem_filter.mp hb
        obtain ⟨i, hi⟩ := List.mem_iff_getElem?.mp hb
        rw [List.getElem?_take, Option.ite_none_right_eq_some] at hi
        obtain ⟨hik, hi⟩ := hi
        obtain ⟨c, j, t, ht, rfl, hwt, -⟩ := h.exists_ticket hop hw
        obtain ⟨i', hi', hcopy⟩ := h.overtaken hids ht hwt hi hwb hclient hlt
        refine ⟨t.command, List.mem_filter.mpr ⟨?_, hw⟩, rfl, rfl⟩
        exact List.mem_of_getElem? ((List.getElem?_take_of_lt (hi'.trans hik)).trans hcopy)

/-- A write is skipped exactly if it is a repeated copy. -/
theorem duplicated_iff (hids : Function.Injective ids) (h : L.Ok ids ops) {k : ℕ} {op : Op}
    (hop : ops[k]? = some op) (hw : op.isWrite = true) :
    (Store.replay (ops.take k)).requestDuplicated op.clientId op.seqId = true ↔
      op ∈ ops.take k := by
  rw [(deduplicated_replay (h.clerkOrder hids k)).requestDuplicated_iff]
  constructor
  · rintro ⟨b, hb, hclient, hle⟩
    obtain ⟨hb, hwb⟩ := List.mem_filter.mp hb
    obtain ⟨i, hi⟩ := List.mem_iff_getElem?.mp hb
    rw [List.getElem?_take, Option.ite_none_right_eq_some] at hi
    obtain ⟨hik, hi⟩ := hi
    obtain ⟨c, j, t, ht, rfl, hwt, -⟩ := h.exists_ticket hop hw
    obtain ⟨i', hi', hcopy⟩ := h.executed hids ht hwt hi hwb hclient hle
    exact List.mem_of_getElem? ((List.getElem?_take_of_lt (hi'.trans_lt hik)).trans hcopy)
  · intro hmem
    exact ⟨op, List.mem_filter.mpr ⟨hmem, hw⟩, rfl, le_refl _⟩

end Ok

/-! ## Keeping the ledger -/

/-- Client `c` asks for another operation. -/
def ask (L : Ledger m) (c : Fin m) (t : Ticket) : Ledger m :=
  { L with tickets := Function.update L.tickets c (L.tickets c ++ [t]) }

/-- The operation that client `c` waits for is answered. -/
def answer (L : Ledger m) (c : Fin m) (r : Receipt) : Ledger m :=
  { L with receipts := Function.update L.receipts c (L.receipts c ++ [r]) }

section Keeping

variable {ids : Fin m → ℤ} {ops ops' : List Op} {L : Ledger m} {c : Fin m} {t : Ticket}
  {r : Receipt}

theorem tickets_ask_self (L : Ledger m) (c : Fin m) (t : Ticket) :
    (L.ask c t).tickets c = L.tickets c ++ [t] :=
  Function.update_self ..

theorem tickets_ask_of_ne (L : Ledger m) {c c' : Fin m} (hc : c' ≠ c) (t : Ticket) :
    (L.ask c t).tickets c' = L.tickets c' :=
  Function.update_of_ne hc ..

theorem receipts_answer_self (L : Ledger m) (c : Fin m) (r : Receipt) :
    (L.answer c r).receipts c = L.receipts c ++ [r] :=
  Function.update_self ..

theorem receipts_answer_of_ne (L : Ledger m) {c c' : Fin m} (hc : c' ≠ c) (r : Receipt) :
    (L.answer c r).receipts c' = L.receipts c' :=
  Function.update_of_ne hc ..

theorem tickets_ask (L : Ledger m) (c : Fin m) (t : Ticket) (c' : Fin m) :
    L.tickets c' <+: (L.ask c t).tickets c' := by
  by_cases hc : c' = c
  · subst hc
    rw [tickets_ask_self]
    exact List.prefix_append _ _
  · rw [L.tickets_ask_of_ne hc]

theorem receipts_answer (L : Ledger m) (c : Fin m) (r : Receipt) (c' : Fin m) :
    L.receipts c' <+: (L.answer c r).receipts c' := by
  by_cases hc : c' = c
  · subst hc
    rw [receipts_answer_self]
    exact List.prefix_append _ _
  · rw [L.receipts_answer_of_ne hc]

theorem mem_tickets_ask {c' : Fin m} {t' : Ticket} (h : t' ∈ (L.ask c t).tickets c') :
    t' ∈ L.tickets c' ∨ (c' = c ∧ t' = t) := by
  by_cases hc : c' = c
  · subst hc
    rw [tickets_ask_self] at h
    simpa using h
  · rw [L.tickets_ask_of_ne hc] at h
    exact Or.inl h

theorem mem_receipts_answer {c' : Fin m} {r' : Receipt} (h : r' ∈ (L.answer c r).receipts c') :
    r' ∈ L.receipts c' ∨ r' = r := by
  by_cases hc : c' = c
  · subst hc
    rw [receipts_answer_self] at h
    simpa using h
  · rw [L.receipts_answer_of_ne hc] at h
    exact Or.inl h

/-- More commands are executed. -/
theorem Ok.grow (h : L.Ok ids ops) (hpre : ops <+: ops')
    (hasked : ∀ (i : ℕ) op, ops'[i]? = some op → op.isWrite = true →
      ∃ c, ∃ t ∈ L.tickets c, t.command = op ∧ t.floor ≤ i) : L.Ok ids ops' where
  clientId := h.clientId
  increasing := h.increasing
  sequential := h.sequential
  answered c k r hr := by
    obtain ⟨t, ht, hanswers⟩ := h.answered c k r hr
    exact ⟨t, ht, hanswers.mono hpre⟩
  asked := hasked
  timely := h.timely

/-- A client that waits for nothing asks for another operation. -/
theorem Ok.ask (h : L.Ok ids ops) (hid : t.clientId = ids c)
    (hseq : ∀ t' ∈ L.tickets c, t'.isWrite = true → t.isWrite = true → t'.seqId < t.seqId)
    (hidle : (L.tickets c).length = (L.receipts c).length) (hfloor : t.floor = ops.length) :
    (L.ask c t).Ok ids ops := by
  have hpre := L.tickets_ask c t
  have htop : ∀ c' (k : ℕ) r, (L.receipts c')[k]? = some r → r.top ≤ t.floor := by
    intro c' k r hr
    obtain ⟨_, -, hanswers⟩ := h.answered c' k r hr
    rw [hfloor]
    exact hanswers.top_le
  refine ⟨fun c' t' ht' => ?_, fun c' => ?_, fun c' k k' t' ht' hlt => ?_, fun c' k r hr => ?_,
    fun i op hop hw => ?_, fun c₁ r hr c' t' ht' hlt => ?_⟩
  · rcases mem_tickets_ask ht' with hold | ⟨rfl, rfl⟩
    · exact h.clientId c' t' hold
    · exact hid
  · by_cases hc : c' = c
    · subst hc
      rw [tickets_ask_self]
      refine List.pairwise_append.mpr ⟨h.increasing c', List.pairwise_singleton _ _, ?_⟩
      intro t₁ ht₁ t₂ ht₂
      rw [List.mem_singleton.mp ht₂]
      exact hseq t₁ ht₁
    · rw [L.tickets_ask_of_ne hc]
      exact h.increasing c'
  · by_cases hc : c' = c
    · subst hc
      rw [tickets_ask_self] at ht'
      rcases getElem?_concat_cases ht' with hold | ⟨rfl, rfl⟩
      · exact h.sequential c' k k' t' hold hlt
      · have hr := List.getElem?_eq_getElem (hidle ▸ hlt)
        exact ⟨_, hr, htop c' k _ hr⟩
    · rw [L.tickets_ask_of_ne hc] at ht'
      exact h.sequential c' k k' t' ht' hlt
  · obtain ⟨t', ht', hanswers⟩ := h.answered c' k r hr
    exact ⟨t', getElem?_of_grown (hpre c') ht', hanswers⟩
  · obtain ⟨c', t', ht', hrest⟩ := h.asked i op hop hw
    exact ⟨c', t', (hpre c').subset ht', hrest⟩
  · rcases mem_tickets_ask ht' with hold | ⟨rfl, rfl⟩
    · exact h.timely c₁ r hr c' t' hold hlt
    · obtain ⟨k, hk⟩ := List.mem_iff_getElem?.mp hr
      exact htop c₁ k r hk

/-- A client is answered, and what it has asked for is the oldest operation without an answer. -/
theorem Ok.answer (h : L.Ok ids ops) (ht : (L.tickets c)[(L.receipts c).length]? = some t)
    (hanswers : r.Answers ops t) (htime : ∀ c', ∀ t' ∈ L.tickets c', t'.call ≤ r.time) :
    (L.answer c r).Ok ids ops := by
  have hpre := L.receipts_answer c r
  refine ⟨h.clientId, h.increasing, fun c' k k' t' ht' hlt => ?_, fun c' k r' hr' => ?_, h.asked,
    fun c₁ r' hr' c' t' ht' hlt => ?_⟩
  · obtain ⟨r', hr', hfloor⟩ := h.sequential c' k k' t' ht' hlt
    exact ⟨r', getElem?_of_grown (hpre c') hr', hfloor⟩
  · by_cases hc : c' = c
    · subst hc
      rw [receipts_answer_self] at hr'
      rcases getElem?_concat_cases hr' with hold | ⟨rfl, rfl⟩
      · exact h.answered c' k r' hold
      · exact ⟨t, ht, hanswers⟩
    · rw [L.receipts_answer_of_ne hc] at hr'
      exact h.answered c' k r' hr'
  · rcases mem_receipts_answer hr' with hold | rfl
    · exact h.timely c₁ r' hold c' t' ht' hlt
    · exact absurd hlt (not_lt.mpr (htime c' t' ht'))

end Keeping

/-! ## Operations at their places -/

/-- An operation of the history: which one of its client it is, its answer, and when it returned. -/
structure Item (m : ℕ) where
  client : Fin m
  number : ℕ
  ticket : Ticket
  value : String
  ret : ℤ

/-- As a test records it. -/
def Item.operation (x : Item m) : KvOperation where
  clientId := x.client
  input := x.ticket.op.input
  call := x.ticket.call
  output := { value := x.value }
  ret := x.ret

/-- The operations `items` are a history of the ledger: every one with its ticket, answered before
it returned, or a write without an answer that has been executed nevertheless; and no write that has
been executed is missing. -/
structure History (ops : List Op) (L : Ledger m) (items : List (Item m)) : Prop where
  nodup : (items.map fun x => (x.client, x.number)).Nodup
  ticket : ∀ x ∈ items, (L.tickets x.client)[x.number]? = some x.ticket
  returned : ∀ x ∈ items,
    (∃ r, (L.receipts x.client)[x.number]? = some r ∧ r.value = x.value ∧ r.time ≤ x.ret) ∨
      (x.ticket.isWrite = true ∧ x.ticket.command ∈ ops ∧
        ∀ c, ∀ t ∈ L.tickets c, t.call ≤ x.ret)
  complete : ∀ c (k : ℕ) t, (L.tickets c)[k]? = some t → t.isWrite = true → t.command ∈ ops →
    ∃ x ∈ items, x.client = c ∧ x.number = k

/-- Where an operation takes effect: a write at its first copy, a read where it was answered. -/
def position (L : Ledger m) (ops : List Op) (x : Item m) : ℕ :=
  if x.ticket.isWrite then ops.idxOf x.ticket.command
  else ((L.receipts x.client)[x.number]?.map Receipt.position).getD 0

namespace History

variable {ids : Fin m → ℤ} {ops : List Op} {L : Ledger m} {items : List (Item m)}

/-- A read has been answered. -/
theorem answered (h : L.History ops items) {x : Item m} (hx : x ∈ items)
    (hw : x.ticket.isWrite = false) :
    ∃ r, (L.receipts x.client)[x.number]? = some r ∧ r.value = x.value := by
  rcases h.returned x hx with ⟨r, hr, hvalue, -⟩ | ⟨hwrite, -⟩
  · exact ⟨r, hr, hvalue⟩
  · cases hw.symm.trans hwrite

theorem receipt_answers (h : L.History ops items) (hok : L.Ok ids ops) {x : Item m} (hx : x ∈ items)
    {r : Receipt} (hr : (L.receipts x.client)[x.number]? = some r) : r.Answers ops x.ticket := by
  obtain ⟨t, ht, hanswers⟩ := hok.answered _ _ r hr
  rwa [Option.some.inj (ht.symm.trans (h.ticket x hx))] at hanswers

theorem command_mem (h : L.History ops items) (hok : L.Ok ids ops) {x : Item m} (hx : x ∈ items) :
    x.ticket.command ∈ ops := by
  rcases h.returned x hx with ⟨r, hr, -⟩ | ⟨-, hmem, -⟩
  · exact List.mem_of_getElem? (h.receipt_answers hok hx hr).command
  · exact hmem

/-- An operation takes effect at a copy of its command, and not before it was asked for. -/
theorem position_spec (hids : Function.Injective ids) (h : L.History ops items) (hok : L.Ok ids ops)
    {x : Item m} (hx : x ∈ items) :
    ops[L.position ops x]? = some x.ticket.command ∧ x.ticket.floor ≤ L.position ops x := by
  unfold position
  split
  case isTrue hw =>
    have hfirst := List.getElem?_idxOf (h.command_mem hok hx)
    refine ⟨hfirst, ?_⟩
    obtain ⟨c, k, t, ht, hcommand, hwt, hfloor⟩ :=
      hok.exists_ticket hfirst (x.ticket.isWrite_command.trans hw)
    obtain ⟨rfl, rfl⟩ := hok.unique hids ht (h.ticket x hx) hwt hw (congrArg Op.clientId hcommand)
      (congrArg Op.seqId hcommand)
    rwa [Option.some.inj (ht.symm.trans (h.ticket x hx))] at hfloor
  case isFalse hw =>
    rw [Bool.not_eq_true] at hw
    obtain ⟨r, hr, -⟩ := h.answered hx hw
    have hanswers := h.receipt_answers hok hx hr
    rw [hr, Option.map_some, Option.getD_some]
    exact ⟨hanswers.command, hanswers.floor_le hw⟩

/-- An operation that has been answered takes effect before that. -/
theorem position_lt_top (h : L.History ops items) (hok : L.Ok ids ops) {x : Item m} (hx : x ∈ items)
    {r : Receipt} (hr : (L.receipts x.client)[x.number]? = some r) : L.position ops x < r.top := by
  have hanswers := h.receipt_answers hok hx hr
  unfold position
  split
  case isTrue =>
    have hmem : x.ticket.command ∈ ops.take (r.position + 1) := by
      refine List.mem_of_getElem? (i := r.position) ?_
      rw [List.getElem?_take_of_lt (Nat.lt_succ_self _), hanswers.command]
    have hlt := (List.mem_take_iff_idxOf_lt (h.command_mem hok hx)).mp hmem
    have := hanswers.lt_top
    omega
  case isFalse =>
    rw [hr, Option.map_some, Option.getD_some]
    exact hanswers.lt_top

/-- The places keep the order of the history. -/
theorem position_lt (hids : Function.Injective ids) (h : L.History ops items) (hok : L.Ok ids ops)
    {x y : Item m} (hx : x ∈ items) (hy : y ∈ items) (hlt : x.ret < y.ticket.call) :
    L.position ops x < L.position ops y := by
  have hticket := List.mem_of_getElem? (h.ticket y hy)
  rcases h.returned x hx with ⟨r, hr, -, htime⟩ | ⟨-, -, hlate⟩
  · have htop := hok.timely _ r (List.mem_of_getElem? hr) _ _ hticket (htime.trans_lt hlt)
    have hfloor := (h.position_spec hids hok hy).2
    have := h.position_lt_top hok hx hr
    omega
  · exact absurd hlt (not_lt.mpr (hlate _ _ hticket))

end History

/-! ## Each place does what its operations say -/

/-- Different elements with the same image are one. -/
theorem eq_singleton_of_nodup {α β : Type} {f : α → β} {l : List α} {a : α} (h : (l.map f).Nodup)
    (ha : a ∈ l) (hall : ∀ b ∈ l, f b = f a) : l = [a] := by
  match l with
  | [] => cases ha
  | [b] => rw [List.mem_singleton.mp ha]
  | b :: c :: l =>
    have hb := hall b (by simp)
    have hc := hall c (by simp)
    simp [hb, hc] at h

section Legal

variable {ids : Fin m → ℤ} {ops : List Op} {L : Ledger m} {items : List (Item m)}

open Linearizability (run ofKey run_of_fixed linearizable_of_positions)

theorem mem_ofKey {k : ℕ} {x : Item m} :
    x ∈ ofKey (L.position ops) k items ↔ x ∈ items ∧ L.position ops x = k := by
  simp [ofKey]

/-- The operations at a place, between the states before and after the command there. -/
theorem History.legal (hids : Function.Injective ids) (h : L.History ops items) (hok : L.Ok ids ops)
    {k : ℕ} (hk : k < ops.length) :
    run (fun values x => storeStep values (Item.operation x)) (Store.replay (ops.take k)).values
        (ofKey (L.position ops) k items) =
      some (Store.replay (ops.take (k + 1))).values := by
  obtain ⟨op, hop⟩ : ∃ op, ops[k]? = some op := ⟨_, List.getElem?_eq_getElem hk⟩
  have hnext : Store.replay (ops.take (k + 1)) = ((Store.replay (ops.take k)).applyOp op).1 := by
    rw [List.take_add_one, hop, Option.toList_some, Store.replay_append]
  have hcommand : ∀ x ∈ ofKey (L.position ops) k items, x.ticket.command = op := by
    intro x hx
    obtain ⟨hmem, rfl⟩ := mem_ofKey.mp hx
    exact Option.some.inj ((h.position_spec hids hok hmem).1.symm.trans hop)
  rw [hnext]
  by_cases hw : op.isWrite = true
  · have hdup := hok.duplicated_iff hids hop hw
    by_cases hold : op ∈ ops.take k
    · -- nothing takes effect at a repeated copy
      have hnone : ofKey (L.position ops) k items = [] := by
        refine List.eq_nil_iff_forall_not_mem.mpr fun x hx => ?_
        have hx' := hcommand x hx
        have hwx : x.ticket.isWrite = true := by rw [← x.ticket.isWrite_command, hx', hw]
        have hpos := (mem_ofKey.mp hx).2
        rw [position, if_pos hwx, hx'] at hpos
        have := (List.mem_take_iff_idxOf_lt (List.mem_of_getElem? hop)).mp hold
        omega
      rw [hnone, Store.applyOp_duplicate _ hw (hdup.mpr hold)]
      rfl
    · -- at a first copy there is its operation, and no other
      obtain ⟨c, j, t, ht, rfl, hwt, -⟩ := hok.exists_ticket hop hw
      have hmem := List.mem_of_getElem? hop
      obtain ⟨x, hx, rfl, rfl⟩ := h.complete c j t ht hwt hmem
      obtain rfl := Option.some.inj ((h.ticket x hx).symm.trans ht)
      have hpos : L.position ops x = k := by
        rw [position, if_pos hwt]
        refine Nat.le_antisymm ?_ (not_lt.mp (mt (List.mem_take_iff_idxOf_lt hmem).mpr hold))
        refine Nat.lt_succ_iff.mp ((List.mem_take_iff_idxOf_lt hmem).mp ?_)
        exact List.mem_of_getElem? ((List.getElem?_take_of_lt (Nat.lt_succ_self k)).trans hop)
      have hone : ofKey (L.position ops) k items = [x] := by
        refine eq_singleton_of_nodup (f := fun y => (y.client, y.number))
          (h.nodup.sublist (List.filter_sublist.map _)) (mem_ofKey.mpr ⟨hx, hpos⟩) fun y hy => ?_
        have hy' := hcommand y hy
        have hwy : y.ticket.isWrite = true := by rw [← y.ticket.isWrite_command, hy', hw]
        obtain ⟨hclient, hnumber⟩ := hok.unique hids (h.ticket y (mem_ofKey.mp hy).1) ht hwy hwt
          (congrArg Op.clientId hy') (congrArg Op.seqId hy')
        exact Prod.ext hclient hnumber
      obtain ⟨hclient, hseq⟩ := ClientOp.ids_command hwt x.ticket.clientId x.ticket.seqId
      have hnew : (Store.replay (ops.take k)).requestDuplicated x.ticket.clientId x.ticket.seqId =
          false := by
        have hnot := mt hdup.mp hold
        rwa [show x.ticket.command.clientId = _ from hclient,
          show x.ticket.command.seqId = _ from hseq, Bool.not_eq_true] at hnot
      rw [hone, Linearizability.run_cons, Store.storeStep_write _ rfl hwt hnew]
      rfl
  · -- reads
    rw [Bool.not_eq_true] at hw
    rw [Store.applyOp_get _ hw]
    refine run_of_fixed fun x hx => ?_
    obtain ⟨hmem, hpos⟩ := mem_ofKey.mp hx
    have hwx : x.ticket.isWrite = false := by rw [← x.ticket.isWrite_command, hcommand x hx, hw]
    obtain ⟨r, hr, hvalue⟩ := h.answered hmem hwx
    rw [position, hwx, if_neg (by decide), hr, Option.map_some, Option.getD_some] at hpos
    cases hget : x.ticket.op with
    | put | append =>
      rw [Ticket.isWrite, hget] at hwx
      cases hwx
    | get key =>
      refine Store.storeStep_get _ (congrArg ClientOp.input hget) ?_
      rw [← hpos, ← (h.receipt_answers hok hmem hr).value key hget]
      exact hvalue.symm

/-- A history of a ledger in order is linearizable. -/
theorem Ok.linearizable (hids : Function.Injective ids) (hok : L.Ok ids ops)
    (h : L.History ops items) : LinearizableStore (items.map Item.operation) := by
  refine (Linearizability.linearizable_map _ _ _ _ _).mpr ?_
  refine linearizable_of_positions (fun k => (Store.replay (ops.take k)).values) (L.position ops)
    (N := ops.length) (fun x hx => ?_) (fun x hx y hy => ?_) fun k hk => ?_
  · exact (List.getElem?_eq_some_iff.mp (h.position_spec hids hok hx).1).1
  · exact h.position_lt hids hok hx hy
  · exact h.legal hids hok hk

end Legal

end Ledger

end LogicRaft
