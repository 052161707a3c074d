import LogicRaft.Common.Linearizability
import Mathlib.Data.Finmap
import Mathlib.Data.List.Sort
import Mathlib.Order.Lattice

/-!
# Histories and models of the linearizability checker

The data of `porcupine/model.go` and the lists of entries that `porcupine/checker.go` makes of a
history. `ι` are the arguments of operations, `ο` their answers and `σ` the states of the model,
which are `interface{}` in the source; a type assertion that fails panics there and is `none` here.

A list of entries is `WellFormed` when its operations are numbered `0, …, n-1`, each with one call
and one return after it. What the checker has to decide is stated over such a list: `Before` is the
order of real time, `stepOf` what an operation does in the model, and the history is linearizable in
the sense of `Linearizability.Linearizable`.
-/

namespace LogicRaft.Porcupine

variable {ι ο σ : Type}

structure Operation (ι ο : Type) where
  clientId : ℤ
  input : ι
  call : ℤ
  output : ο
  ret : ℤ
deriving DecidableEq

/-- The `interface{}` an event or entry carries: an argument, an answer, or nothing. -/
inductive Value (ι ο : Type)
  | nil
  | input (i : ι)
  | output (o : ο)
deriving DecidableEq

inductive EventKind
  | callEvent
  | returnEvent
deriving DecidableEq

structure Event (ι ο : Type) where
  clientId : ℤ
  kind : EventKind
  value : Value ι ο
  id : ℤ
deriving DecidableEq

/-- A model with every function the checker calls. -/
structure Model (ι ο σ : Type) where
  partition : List (Operation ι ο) → List (List (Operation ι ο))
  partitionEvent : List (Event ι ο) → List (List (Event ι ο))
  init : σ
  step : σ → ι → ο → Bool × σ
  equal : σ → σ → Bool

/-- A model as its author writes it, where functions may be left `nil`. -/
structure ModelFields (ι ο σ : Type) where
  partition : Option (List (Operation ι ο) → List (List (Operation ι ο))) := none
  partitionEvent : Option (List (Event ι ο) → List (List (Event ι ο))) := none
  init : σ
  step : σ → ι → ο → Bool × σ
  equal : Option (σ → σ → Bool) := none

def noPartition (history : List (Operation ι ο)) : List (List (Operation ι ο)) := [history]

def noPartitionEvent (history : List (Event ι ο)) : List (List (Event ι ο)) := [history]

def shallowEqual [DecidableEq σ] (state1 state2 : σ) : Bool := state1 = state2

/-- `fillDefault`, for the functions the check uses. -/
def fillDefault [DecidableEq σ] (model : ModelFields ι ο σ) : Model ι ο σ where
  partition := model.partition.getD noPartition
  partitionEvent := model.partitionEvent.getD noPartitionEvent
  init := model.init
  step := model.step
  equal := model.equal.getD shallowEqual

/-- What operation `(i, o)` does to a state, if the model allows it. -/
def Model.apply (model : Model ι ο σ) (s : σ) (op : ι × ο) : Option σ :=
  if (model.step s op.1 op.2).1 then some (model.step s op.1 op.2).2 else none

/-- States that the model calls equal allow the same continuations, which is what the checker relies
on when it prunes. -/
def Model.EqualSound (model : Model ι ο σ) : Prop :=
  ∀ s t, model.equal s t = true → ∀ u : List (ι × ο),
    (Linearizability.run model.apply s u).isSome → (Linearizability.run model.apply t u).isSome

/-! ## Entries -/

inductive EntryKind
  | callEntry
  | returnEntry
deriving DecidableEq

structure Entry (ι ο : Type) where
  kind : EntryKind
  value : Value ι ο
  id : ℤ
  time : ℤ
  clientId : ℤ
deriving DecidableEq

/-- `byTime.Less`: by time, calls before returns where the times are the same. -/
def byTimeLess (a b : Entry ι ο) : Bool :=
  if a.time ≠ b.time then a.time < b.time
  else a.kind = .callEntry && b.kind = .returnEntry

/-- The entry of the call of operation `elem`, which has number `id`. -/
def Operation.callEntry (id : ℤ) (elem : Operation ι ο) : Entry ι ο where
  kind := .callEntry
  value := .input elem.input
  id := id
  time := elem.call
  clientId := elem.clientId

/-- The entry of its return. -/
def Operation.returnEntry (id : ℤ) (elem : Operation ι ο) : Entry ι ο where
  kind := .returnEntry
  value := .output elem.output
  id := id
  time := elem.ret
  clientId := elem.clientId

/-- The entries of `makeEntries` before they are sorted, the operations numbered from `id` on. -/
def operationEntries (id : ℤ) : List (Operation ι ο) → List (Entry ι ο)
  | [] => []
  | elem :: history =>
    elem.callEntry id :: elem.returnEntry id :: operationEntries (id + 1) history

/-- What `sort.Sort` may leave of `entries`: it is not stable, so entries that compare as equal may
stand in any order. -/
structure Sorts (entries sorted : List (Entry ι ο)) : Prop where
  perm : sorted.Perm entries
  sorted : sorted.Pairwise fun a b => byTimeLess b a = false

/-- `makeEntries`, with one of the orders `sort.Sort` may choose. -/
def makeEntries (history : List (Operation ι ο)) : List (Entry ι ο) :=
  (operationEntries 0 history).insertionSort fun a b => byTimeLess b a = false

/-- `renumber`: ids in the order of their first appearance; `m` holds the ids seen so far and `id`
is the next one. -/
def renumberFrom (m : Finmap fun _ : ℤ => ℤ) (id : ℤ) : List (Event ι ο) → List (Event ι ο)
  | [] => []
  | v :: events =>
    match m.lookup v.id with
    | some r => { v with id := r } :: renumberFrom m id events
    | none => { v with id := id } :: renumberFrom (m.insert v.id id) (id + 1) events

def renumber (events : List (Event ι ο)) : List (Event ι ο) := renumberFrom ∅ 0 events

/-- `convertEntries`: the index is used as time. -/
def convertEntries (events : List (Event ι ο)) : List (Entry ι ο) :=
  events.zipIdx.map fun (elem, i) =>
    { kind := if elem.kind = .returnEvent then .returnEntry else .callEntry, value := elem.value,
      id := elem.id, time := i, clientId := elem.clientId }

/-! ## Histories as lists of entries -/

def Entry.IsCall (e : Entry ι ο) : Prop := e.kind = .callEntry

def Entry.IsReturn (e : Entry ι ο) : Prop := e.kind = .returnEntry

instance (e : Entry ι ο) : Decidable e.IsCall := inferInstanceAs (Decidable (_ = _))

instance (e : Entry ι ο) : Decidable e.IsReturn := inferInstanceAs (Decidable (_ = _))

theorem Entry.not_isCall {e : Entry ι ο} : ¬ e.IsCall ↔ e.IsReturn := by
  unfold IsCall IsReturn
  cases e.kind <;> decide

theorem Entry.not_isReturn {e : Entry ι ο} : ¬ e.IsReturn ↔ e.IsCall := by
  rw [← Entry.not_isCall, not_not]

/-- The ids of the calls, in order: the operations of the history. -/
def callIds (entries : List (Entry ι ο)) : List ℤ := (entries.filter fun e => e.IsCall).map Entry.id

/-- The ids of the returns, in order. -/
def returnIds (entries : List (Entry ι ο)) : List ℤ :=
  (entries.filter fun e => e.IsReturn).map Entry.id

/-- Operation `i` returned before operation `j` was called. -/
def Before (entries : List (Entry ι ο)) (i j : ℤ) : Prop :=
  ∃ r c : Entry ι ο, r.IsReturn ∧ c.IsCall ∧ r.id = i ∧ c.id = j ∧ [r, c].Sublist entries

/-- The argument of operation `i`. -/
def inputOf (entries : List (Entry ι ο)) (i : ℤ) : Option ι :=
  (entries.find? fun e => e.IsCall ∧ e.id = i).bind fun e =>
    match e.value with
    | .input a => some a
    | _ => none

/-- The answer of operation `i`. -/
def outputOf (entries : List (Entry ι ο)) (i : ℤ) : Option ο :=
  (entries.find? fun e => e.IsReturn ∧ e.id = i).bind fun e =>
    match e.value with
    | .output a => some a
    | _ => none

/-- What operation `i` does in the model. -/
def stepOf (model : Model ι ο σ) (entries : List (Entry ι ο)) (s : σ) (i : ℤ) : Option σ := do
  let a ← inputOf entries i
  let o ← outputOf entries i
  model.apply s (a, o)

/-- The history `entries` is linearizable. -/
def LinearizableEntries (model : Model ι ο σ) (entries : List (Entry ι ο)) : Prop :=
  Linearizability.Linearizable (stepOf model entries) model.init (Before entries) (callIds entries)

/-- Each operation has one call and one return, the return after the call. -/
structure Paired (entries : List (Entry ι ο)) : Prop where
  distinct : entries.Pairwise fun u v => u.kind = v.kind → u.id ≠ v.id
  answered : ∀ c ∈ entries, c.IsCall → ∃ r, r.IsReturn ∧ r.id = c.id ∧ [c, r].Sublist entries
  asked : ∀ r ∈ entries, r.IsReturn → r.id ∈ callIds entries
  inputs : ∀ c ∈ entries, c.IsCall → ∃ i, c.value = .input i
  outputs : ∀ r ∈ entries, r.IsReturn → ∃ o, r.value = .output o

/-- Moreover the operations are numbered `0, …, n-1`. -/
structure WellFormed (entries : List (Entry ι ο)) : Prop extends Paired entries where
  range : ∀ i, i ∈ callIds entries ↔ 0 ≤ i ∧ i < (callIds entries).length

/-! ## Well-formed histories -/

/-- In a list in which `a` stands once, what comes after `a` in a sublist comes after `a`. -/
theorem mem_of_pair_sublist {α : Type*} {a b : α} {pre post : List α} (hpre : a ∉ pre)
    (h : [a, b].Sublist (pre ++ a :: post)) : b ∈ post := by
  induction pre with
  | nil =>
    cases h with
    | cons _ h => exact h.subset (by simp)
    | cons_cons _ h => exact List.singleton_sublist.mp h
  | cons c pre ih =>
    obtain ⟨hac, hpre⟩ := not_or.mp (List.mem_cons.not.mp hpre)
    cases h with
    | cons _ h => exact ih hpre h
    | cons_cons _ _ => exact absurd rfl hac

/-- In a list without repetitions two elements stand in one order only. -/
theorem not_pair_sublist_swap {α : Type*} {a b : α} {l : List α} (hl : l.Nodup)
    (hab : [a, b].Sublist l) : ¬ [b, a].Sublist l := by
  intro hba
  obtain ⟨pre, post, rfl⟩ := List.append_of_mem (hab.subset (List.mem_cons_self))
  have hdisj := List.nodup_append.mp hl
  have hapre : a ∉ pre := fun ha => hdisj.2.2 a ha a List.mem_cons_self rfl
  obtain ⟨mid, post', rfl⟩ := List.append_of_mem (mem_of_pair_sublist hapre hab)
  rw [← List.cons_append, ← List.append_assoc] at hl hba
  have hdisj' := List.nodup_append.mp hl
  have hbpre : b ∉ pre ++ a :: mid := fun hb => hdisj'.2.2 b hb b List.mem_cons_self rfl
  have ha := mem_of_pair_sublist hbpre hba
  exact hdisj'.2.2 a (by simp) a (List.mem_cons_of_mem b ha) rfl

/-- Two elements of `l.map f` in their order come from two elements of `l` in this order. -/
theorem exists_pair_of_sublist_map {α β : Type*} {f : α → β} {a b : β} {l : List α}
    (h : [a, b].Sublist (l.map f)) : ∃ x y, f x = a ∧ f y = b ∧ [x, y].Sublist l := by
  obtain ⟨v, hv, hmap⟩ := List.sublist_map_iff.mp h
  obtain ⟨x, v, rfl, hx, hmap⟩ := List.map_eq_cons_iff.mp hmap.symm
  obtain ⟨y, v, rfl, hy, hmap⟩ := List.map_eq_cons_iff.mp hmap
  obtain rfl := List.map_eq_nil_iff.mp hmap
  exact ⟨x, y, hx, hy, hv⟩

section Paired

variable {entries : List (Entry ι ο)} {e e' : Entry ι ο}

theorem mem_callIds {i : ℤ} : i ∈ callIds entries ↔ ∃ c ∈ entries, c.IsCall ∧ c.id = i := by
  simp [callIds, and_assoc]

theorem mem_returnIds {i : ℤ} : i ∈ returnIds entries ↔ ∃ r ∈ entries, r.IsReturn ∧ r.id = i := by
  simp [returnIds, and_assoc]

namespace Paired

variable (hwf : Paired entries)

include hwf

theorem nodup_callIds : (callIds entries).Nodup := by
  refine List.pairwise_map.mpr ((hwf.distinct.filter _).imp_of_mem fun {u v} hu hv huv => ?_)
  have hu : u.IsCall := by simpa using (List.mem_filter.mp hu).2
  have hv : v.IsCall := by simpa using (List.mem_filter.mp hv).2
  exact huv (hu.trans hv.symm)

theorem nodup_returnIds : (returnIds entries).Nodup := by
  refine List.pairwise_map.mpr ((hwf.distinct.filter _).imp_of_mem fun {u v} hu hv huv => ?_)
  have hu : u.IsReturn := by simpa using (List.mem_filter.mp hu).2
  have hv : v.IsReturn := by simpa using (List.mem_filter.mp hv).2
  exact huv (hu.trans hv.symm)

theorem mem_returnIds_iff (i : ℤ) : i ∈ returnIds entries ↔ i ∈ callIds entries := by
  constructor
  · intro hi
    obtain ⟨r, hr, hret, rfl⟩ := mem_returnIds.mp hi
    exact hwf.asked r hr hret
  · intro hi
    obtain ⟨c, hc, hcall, rfl⟩ := mem_callIds.mp hi
    obtain ⟨r, hret, hid, hsub⟩ := hwf.answered c hc hcall
    exact mem_returnIds.mpr ⟨r, hsub.subset (by simp), hret, hid⟩

theorem nodup : entries.Nodup := hwf.distinct.imp fun h heq => by
  subst heq
  exact h rfl rfl

/-- There are as many returns as calls. -/
theorem length_eq : entries.length = 2 * (callIds entries).length := by
  have hperm : (returnIds entries).Perm (callIds entries) :=
    (List.perm_ext_iff_of_nodup hwf.nodup_returnIds hwf.nodup_callIds).mpr hwf.mem_returnIds_iff
  have hlen := hperm.length_eq
  have hsplit := (List.filter_append_perm (fun e : Entry ι ο => e.IsCall) entries).length_eq
  have hret : entries.filter (fun e => !decide e.IsCall) = entries.filter fun e => e.IsReturn :=
    List.filter_congr fun e _ => by
      by_cases h : e.IsCall
      · simp [h, Entry.not_isReturn.mpr h]
      · simp [h, Entry.not_isCall.mp h]
  rw [hret, List.length_append] at hsplit
  simp only [callIds, returnIds, List.length_map] at hlen ⊢
  omega

/-- Two entries of one kind and id are the same. -/
theorem eq_of_mem (he : e ∈ entries) (he' : e' ∈ entries) (hkind : e.kind = e'.kind)
    (hid : e.id = e'.id) : e = e' := by
  by_contra hne
  have hsymm : Std.Symm fun u v : Entry ι ο => u.kind = v.kind → u.id ≠ v.id :=
    ⟨fun u v h hk => Ne.symm (h hk.symm)⟩
  exact hwf.distinct.forall he he' hne hkind hid

/-- A search for the kind and id of an entry finds it. -/
theorem find?_eq {p : Entry ι ο → Bool} (he : e ∈ entries)
    (hp : ∀ e', p e' = true ↔ e'.kind = e.kind ∧ e'.id = e.id) : entries.find? p = some e := by
  obtain ⟨e', he'⟩ := Option.isSome_iff_exists.mp
    (List.find?_isSome.mpr ⟨e, he, (hp e).mpr ⟨rfl, rfl⟩⟩)
  obtain ⟨hkind, hid⟩ := (hp e').mp (List.find?_some he')
  rw [he', hwf.eq_of_mem (List.mem_of_find?_eq_some he') he hkind hid]

theorem inputOf_eq (he : e ∈ entries) (hcall : e.IsCall) {i : ι} (hi : e.value = .input i) :
    inputOf entries e.id = some i := by
  rw [inputOf, hwf.find?_eq he fun e' => by rw [decide_eq_true_eq, Entry.IsCall, hcall],
    Option.bind_some, hi]

theorem outputOf_eq (he : e ∈ entries) (hret : e.IsReturn) {o : ο} (ho : e.value = .output o) :
    outputOf entries e.id = some o := by
  rw [outputOf, hwf.find?_eq he fun e' => by rw [decide_eq_true_eq, Entry.IsReturn, hret],
    Option.bind_some, ho]

end Paired

end Paired

end LogicRaft.Porcupine
