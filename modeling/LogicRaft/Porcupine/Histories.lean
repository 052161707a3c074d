import LogicRaft.Porcupine.Model
import Mathlib.Data.List.FinRange

/-!
# From operations and events to entries

The checker works on lists of entries; its callers have operations with times, or a list of events.
The entries of operations, in any order that `sort.Sort` may leave them in, are well formed and give
the operations' real-time order (`linearizable_operations`). Events are renumbered first; the
entries are then well formed, and renumbering does not change what is linearizable
(`linearizable_renumber`).
-/

namespace LogicRaft.Porcupine

open Linearizability (Linearizable)

variable {ι ο σ : Type} {model : Model ι ο σ}

/-! ## Order in a list -/

/-- Of two different elements of a list one stands before the other. -/
theorem pair_sublist_or {α : Type*} {a b : α} {l : List α} (ha : a ∈ l) (hb : b ∈ l) (hab : a ≠ b) :
    [a, b].Sublist l ∨ [b, a].Sublist l := by
  induction l with
  | nil => cases ha
  | cons c l ih =>
    obtain rfl | ha' := List.mem_cons.mp ha
    · have hb' := (List.mem_cons.mp hb).resolve_left (Ne.symm hab)
      exact .inl ((List.singleton_sublist.mpr hb').cons_cons a)
    · obtain rfl | hb' := List.mem_cons.mp hb
      · exact .inr ((List.singleton_sublist.mpr ha').cons_cons b)
      · exact (ih ha' hb').imp (·.cons c) (·.cons c)

/-- A relation that holds along a list holds of two of its elements in their order. -/
theorem rel_of_pair_sublist {α : Type*} {R : α → α → Prop} {a b : α} {l : List α}
    (hl : l.Pairwise R) (h : [a, b].Sublist l) : R a b := by
  simpa using hl.sublist h

/-- A call is sorted before a return that is not earlier. -/
theorem byTimeLess_call_return {c r : Entry ι ο} (hc : c.IsCall) (hr : r.IsReturn) :
    byTimeLess c r = true ↔ c.time ≤ r.time := by
  unfold byTimeLess
  rw [show c.kind = .callEntry from hc, show r.kind = .returnEntry from hr]
  split
  case isTrue hne => rw [decide_eq_true_eq]; omega
  case isFalse heq => simp [not_not.mp heq]

/-- A return is sorted before what is later. -/
theorem byTimeLess_return {r e : Entry ι ο} (hr : r.IsReturn) :
    byTimeLess r e = true ↔ r.time < e.time := by
  unfold byTimeLess
  rw [show r.kind = .returnEntry from hr]
  split
  case isTrue hne => rw [decide_eq_true_eq]
  case isFalse heq => simp [not_not.mp heq]

/-! ## Operations -/

/-- The operations `history` are linearizable in real time. -/
def LinearizableOperations (model : Model ι ο σ) (history : List (Operation ι ο)) : Prop :=
  Linearizable (fun s op => model.apply s (op.input, op.output)) model.init
    (fun a b : Operation ι ο => a.ret < b.call) history

theorem Operation.isCall_callEntry (op : Operation ι ο) (id : ℤ) : (op.callEntry id).IsCall := rfl

theorem Operation.isReturn_returnEntry (op : Operation ι ο) (id : ℤ) :
    (op.returnEntry id).IsReturn := rfl

section Operations

open Operation (isCall_callEntry isReturn_returnEntry)

variable {history : List (Operation ι ο)} {entries : List (Entry ι ο)} {e : Entry ι ο}

theorem mem_operationEntries {id : ℤ} :
    e ∈ operationEntries id history ↔
      ∃ k : Fin history.length, e = (history.get k).callEntry (id + (k : ℕ)) ∨
        e = (history.get k).returnEntry (id + (k : ℕ)) := by
  induction history generalizing id with
  | nil => simp [operationEntries]
  | cons op history ih =>
    rw [operationEntries, List.mem_cons, List.mem_cons, ih]
    constructor
    · rintro (rfl | rfl | ⟨k, hk⟩)
      · exact ⟨⟨0, by simp⟩, .inl (by simp)⟩
      · exact ⟨⟨0, by simp⟩, .inr (by simp)⟩
      · refine ⟨k.succ, ?_⟩
        simpa [add_assoc, add_comm (1 : ℤ)] using hk
    · rintro ⟨k, hk⟩
      induction k using Fin.cases with
      | zero =>
        obtain rfl | rfl := hk
        · exact .inl (by simp)
        · exact .inr (.inl (by simp))
      | succ k =>
        refine .inr (.inr ⟨k, ?_⟩)
        simpa [add_assoc, add_comm (1 : ℤ)] using hk

theorem le_id_of_mem {id : ℤ} (he : e ∈ operationEntries id history) : id ≤ e.id := by
  obtain ⟨k, rfl | rfl⟩ := mem_operationEntries.mp he <;>
    simp [Operation.callEntry, Operation.returnEntry]

theorem distinct_operationEntries (id : ℤ) (history : List (Operation ι ο)) :
    (operationEntries id history).Pairwise fun u v => u.kind = v.kind → u.id ≠ v.id := by
  induction history generalizing id with
  | nil => exact List.Pairwise.nil
  | cons op history ih =>
    have hlater : ∀ v ∈ operationEntries (id + 1) history, id ≠ v.id := fun v hv => by
      have := le_id_of_mem hv
      omega
    refine List.pairwise_cons.mpr ⟨fun v hv hkind => ?_, List.pairwise_cons.mpr
      ⟨fun v hv _ => hlater v hv, ih (id + 1)⟩⟩
    obtain rfl | hv := List.mem_cons.mp hv
    · cases hkind
    · exact hlater v hv

theorem callIds_operationEntries (id : ℤ) (history : List (Operation ι ο)) :
    callIds (operationEntries id history) =
      (List.finRange history.length).map fun k : Fin history.length => id + ((k : ℕ) : ℤ) := by
  induction history generalizing id with
  | nil => rfl
  | cons op history ih =>
    have hfilter : callIds (operationEntries id (op :: history)) =
        id :: callIds (operationEntries (id + 1) history) := by
      simp [callIds, operationEntries, Operation.callEntry, Operation.returnEntry, Entry.IsCall]
    rw [hfilter, ih, List.length_cons, List.finRange_succ, List.map_cons, List.map_map]
    simp [Function.comp_def, add_assoc, add_comm (1 : ℤ)]

theorem callIds_perm {entries' : List (Entry ι ο)} (h : entries.Perm entries') :
    (callIds entries).Perm (callIds entries') := (h.filter _).map _

section Sorted

variable (hsort : Sorts (operationEntries 0 history) entries)

include hsort

theorem Sorts.mem_iff :
    e ∈ entries ↔ ∃ k : Fin history.length, e = (history.get k).callEntry (k : ℕ) ∨
      e = (history.get k).returnEntry (k : ℕ) := by
  rw [hsort.perm.mem_iff, mem_operationEntries]
  simp only [zero_add]

theorem Sorts.callIds_perm :
    (callIds entries).Perm
      ((List.finRange history.length).map fun k : Fin history.length => ((k : ℕ) : ℤ)) := by
  refine (Porcupine.callIds_perm hsort.perm).trans (List.Perm.of_eq ?_)
  rw [callIds_operationEntries]
  simp only [zero_add]

theorem Sorts.length_callIds : (callIds entries).length = history.length := by
  rw [hsort.callIds_perm.length_eq, List.length_map, List.length_finRange]

theorem Sorts.mem_call (k : Fin history.length) : (history.get k).callEntry (k : ℕ) ∈ entries :=
  hsort.mem_iff.mpr ⟨k, .inl rfl⟩

theorem Sorts.mem_return (k : Fin history.length) : (history.get k).returnEntry (k : ℕ) ∈ entries :=
  hsort.mem_iff.mpr ⟨k, .inr rfl⟩

/-- A call stands before its return, as it is not later and calls come first. -/
theorem Sorts.call_return (hle : ∀ op ∈ history, op.call ≤ op.ret) (k : Fin history.length) :
    [(history.get k).callEntry (k : ℕ), (history.get k).returnEntry (k : ℕ)].Sublist entries := by
  have hop := hle (history.get k) (List.get_mem history k)
  obtain h | h := pair_sublist_or (hsort.mem_call k) (hsort.mem_return k)
    (by simp [Operation.callEntry, Operation.returnEntry])
  · exact h
  · exfalso
    have hless := rel_of_pair_sublist hsort.sorted h
    rw [(byTimeLess_call_return (isCall_callEntry _ _) (isReturn_returnEntry _ _)).mpr hop] at hless
    cases hless

/-- Before in the list is before in real time. -/
theorem Sorts.return_call_iff (j k : Fin history.length) :
    [(history.get j).returnEntry (j : ℕ), (history.get k).callEntry (k : ℕ)].Sublist entries ↔
      (history.get j).ret < (history.get k).call := by
  constructor
  · intro h
    have hless := rel_of_pair_sublist hsort.sorted h
    by_contra hlt
    rw [(byTimeLess_call_return (isCall_callEntry _ _) (isReturn_returnEntry _ _)).mpr
      (not_lt.mp hlt)] at hless
    cases hless
  · intro hlt
    obtain h | h := pair_sublist_or (hsort.mem_return j) (hsort.mem_call k)
      (by simp [Operation.callEntry, Operation.returnEntry])
    · exact h
    · exfalso
      have hless := rel_of_pair_sublist hsort.sorted h
      rw [(byTimeLess_return (isReturn_returnEntry _ _)
        (e := (history.get k).callEntry (k : ℕ))).mpr
        hlt] at hless
      cases hless

theorem Sorts.wellFormed (hle : ∀ op ∈ history, op.call ≤ op.ret) : WellFormed entries := by
  have hmem : ∀ i, i ∈ callIds entries ↔ ∃ k : Fin history.length, ((k : ℕ) : ℤ) = i := fun i => by
    rw [hsort.callIds_perm.mem_iff]
    simp
  refine
    { distinct := (List.Perm.pairwise_iff (fun h hk => Ne.symm (h hk.symm)) hsort.perm).mpr
        (distinct_operationEntries 0 history),
      answered := fun c hc hcall => ?_, asked := fun r hr hret => ?_,
      inputs := fun c hc hcall => ?_, outputs := fun r hr hret => ?_, range := fun i => ?_ }
  · obtain ⟨k, rfl | rfl⟩ := hsort.mem_iff.mp hc
    · exact ⟨_, isReturn_returnEntry _ _, rfl, hsort.call_return hle k⟩
    · cases hcall
  · obtain ⟨k, rfl | rfl⟩ := hsort.mem_iff.mp hr
    · cases hret
    · exact (hmem _).mpr ⟨k, rfl⟩
  · obtain ⟨k, rfl | rfl⟩ := hsort.mem_iff.mp hc
    · exact ⟨_, rfl⟩
    · cases hcall
  · obtain ⟨k, rfl | rfl⟩ := hsort.mem_iff.mp hr
    · cases hret
    · exact ⟨_, rfl⟩
  · rw [hmem, hsort.length_callIds]
    constructor
    · rintro ⟨k, rfl⟩
      exact ⟨Int.natCast_nonneg _, Int.ofNat_lt.mpr k.isLt⟩
    · rintro ⟨h0, hn⟩
      exact ⟨⟨i.toNat, by omega⟩, by simpa using h0⟩

theorem Sorts.stepOf_eq (hwf : WellFormed entries) (s : σ) (k : Fin history.length) :
    stepOf model entries s (k : ℕ) = model.apply s
      ((history.get k).input, (history.get k).output) := by
  have hin := hwf.inputOf_eq (hsort.mem_call k) rfl rfl
  have hout := hwf.outputOf_eq (hsort.mem_return k) rfl rfl
  simp only [Operation.callEntry, Operation.returnEntry] at hin hout
  simp [stepOf, hin, hout]

theorem Sorts.before_iff (hwf : WellFormed entries) (j k : Fin history.length) :
    Before entries (j : ℕ) (k : ℕ) ↔ (history.get j).ret < (history.get k).call := by
  rw [← hsort.return_call_iff j k]
  constructor
  · rintro ⟨r, c, hret, hcall, hrid, hcid, hsub⟩
    have hr : r = (history.get j).returnEntry (j : ℕ) :=
      hwf.eq_of_mem (hsub.subset (by simp)) (hsort.mem_return j) hret hrid
    have hc : c = (history.get k).callEntry (k : ℕ) :=
      hwf.eq_of_mem (hsub.subset (by simp)) (hsort.mem_call k) hcall hcid
    rwa [hr, hc] at hsub
  · exact fun h => ⟨_, _, isReturn_returnEntry _ _, isCall_callEntry _ _, rfl, rfl, h⟩

/-- The entries are linearizable exactly when the operations are. -/
theorem Sorts.linearizable_iff (hle : ∀ op ∈ history, op.call ≤ op.ret) :
    LinearizableEntries model entries ↔ LinearizableOperations model history := by
  have hwf := hsort.wellFormed hle
  have hops : LinearizableOperations model history ↔
      Linearizable (fun s k =>
        model.apply s ((history.get k).input, (history.get k).output)) model.init
        (fun j k => (history.get j).ret < (history.get k).call) (List.finRange history.length) := by
    have h := Linearizability.linearizable_map
      (fun s op => model.apply s (op.input, op.output)) model.init
      (fun a b : Operation ι ο => a.ret < b.call) history.get (List.finRange history.length)
    rw [List.map_get_finRange] at h
    exact h
  have hids : LinearizableEntries model entries ↔
      Linearizable (fun s (k : Fin history.length) => stepOf model entries s (k : ℕ)) model.init
        (fun j k => Before entries (j : ℕ) (k : ℕ)) (List.finRange history.length) := by
    rw [← Linearizability.linearizable_map (stepOf model entries) model.init (Before entries)
      (fun k : Fin history.length => ((k : ℕ) : ℤ))]
    exact ⟨fun h => h.of_perm hsort.callIds_perm, fun h => h.of_perm hsort.callIds_perm.symm⟩
  rw [hops, hids]
  constructor
  · exact Linearizable.congr (fun k _ s => hsort.stepOf_eq hwf s k)
      fun j _ k _ h => (hsort.before_iff hwf j k).mpr h
  · exact Linearizable.congr (fun k _ s => (hsort.stepOf_eq hwf s k).symm)
      fun j _ k _ h => (hsort.before_iff hwf j k).mp h

end Sorted

/-- `makeEntries` sorts. -/
theorem sorts_makeEntries (history : List (Operation ι ο)) :
    Sorts (operationEntries 0 history) (makeEntries history) where
  perm := List.perm_insertionSort _ _
  sorted := by
    have hspec : ∀ a b : Entry ι ο, byTimeLess b a = false ↔
        a.time < b.time ∨ a.time = b.time ∧ (a.IsCall ∨ b.IsReturn) := by
      intro a b
      by_cases hb : b.IsReturn
      · rw [← Bool.not_eq_true, byTimeLess_return hb]
        simp only [hb, or_true, and_true]
        omega
      · have hb' := Entry.not_isReturn.mp hb
        by_cases ha : a.IsReturn
        · rw [← Bool.not_eq_true, byTimeLess_call_return hb' ha]
          simp only [hb, Entry.not_isCall.mpr ha, or_self, and_false, or_false]
          omega
        · have ha' := Entry.not_isReturn.mp ha
          unfold byTimeLess
          rw [show a.kind = .callEntry from ha', show b.kind = .callEntry from hb']
          split
          case isTrue hne => simp only [decide_eq_false_iff_not, ha', true_or, and_true]; omega
          case isFalse heq => simp [not_not.mp heq, ha']
    have htotal : Std.Total fun a b : Entry ι ο => byTimeLess b a = false := ⟨fun a b => by
      rw [hspec, hspec]
      by_cases ha : a.IsCall
      · simp only [ha, true_or, and_true]
        omega
      · simp only [Entry.not_isCall.mp ha, or_true, and_true]
        omega⟩
    have htrans : IsTrans (Entry ι ο) fun a b => byTimeLess b a = false := ⟨fun a b c hab hbc => by
      rw [hspec] at *
      by_cases hb : b.IsCall
      · have hb' : ¬ b.IsReturn := Entry.not_isReturn.mpr hb
        by_cases ha : a.IsCall
        · simp only [ha, true_or, and_true] at *
          omega
        · simp only [ha, hb', or_self, and_false, or_false] at *
          omega
      · by_cases hc : c.IsReturn
        · simp only [hc, or_true, and_true] at *
          omega
        · simp only [hb, hc, or_self, and_false, or_false] at *
          omega⟩
    exact List.pairwise_insertionSort _ _

end Operations

/-! ## Events -/

/-- The events, in the order of the list, are linearizable. -/
def LinearizableEvents (model : Model ι ο σ) (events : List (Event ι ο)) : Prop :=
  LinearizableEntries model (convertEntries events)

/-- An entry with its id changed. -/
def Entry.rename (ρ : ℤ → ℤ) (e : Entry ι ο) : Entry ι ο := { e with id := ρ e.id }

/-- Entries with their ids changed. -/
def relabel (ρ : ℤ → ℤ) (entries : List (Entry ι ο)) : List (Entry ι ο) :=
  entries.map (Entry.rename ρ)

section Relabel

variable {entries : List (Entry ι ο)} {ρ : ℤ → ℤ}

theorem callIds_relabel : callIds (relabel ρ entries) = (callIds entries).map ρ := by
  unfold callIds relabel
  rw [List.filter_map, List.map_map, List.map_map]
  rfl

theorem mem_ids_of_mem (hpaired : Paired entries) {e : Entry ι ο} (he : e ∈ entries) :
    e.id ∈ callIds entries := by
  by_cases hcall : e.IsCall
  · exact mem_callIds.mpr ⟨e, he, hcall, rfl⟩
  · exact hpaired.asked e he (Entry.not_isCall.mp hcall)

theorem find?_relabel {p q : Entry ι ο → Bool} (hpq : ∀ e ∈ entries, p (e.rename ρ) = q e) :
    (relabel ρ entries).find? p = (entries.find? q).map (Entry.rename ρ) := by
  induction entries with
  | nil => rfl
  | cons e es ih =>
    have hes := ih fun e' he' => hpq e' (List.mem_cons_of_mem e he')
    have he := hpq e List.mem_cons_self
    rw [relabel, List.map_cons, List.find?_cons, List.find?_cons, he]
    cases q e with
    | true => rfl
    | false => exact hes

variable (hpaired : Paired entries)
  (hinj : ∀ i ∈ callIds entries, ∀ j ∈ callIds entries, ρ i = ρ j → i = j)

include hpaired hinj

theorem stepOf_relabel (s : σ) {i : ℤ} (hi : i ∈ callIds entries) :
    stepOf model (relabel ρ entries) s (ρ i) = stepOf model entries s i := by
  have hid : ∀ e ∈ entries, ρ e.id = ρ i ↔ e.id = i := fun e he =>
    ⟨fun h => hinj _ (mem_ids_of_mem hpaired he) _ hi h, fun h => h ▸ rfl⟩
  have hin : inputOf (relabel ρ entries) (ρ i) = inputOf entries i := by
    unfold inputOf
    rw [find?_relabel (q := fun e => e.IsCall ∧ e.id = i) fun e he =>
      decide_eq_decide.mpr (and_congr_right fun _ => hid e he), Option.bind_map]
    rfl
  have hout : outputOf (relabel ρ entries) (ρ i) = outputOf entries i := by
    unfold outputOf
    rw [find?_relabel (q := fun e => e.IsReturn ∧ e.id = i) fun e he =>
      decide_eq_decide.mpr (and_congr_right fun _ => hid e he), Option.bind_map]
    rfl
  simp only [stepOf, hin, hout]

theorem before_relabel {i j : ℤ} (hi : i ∈ callIds entries) (hj : j ∈ callIds entries) :
    Before (relabel ρ entries) (ρ i) (ρ j) ↔ Before entries i j := by
  constructor
  · rintro ⟨r, c, hret, hcall, hrid, hcid, hsub⟩
    obtain ⟨r', c', rfl, rfl, hl⟩ := exists_pair_of_sublist_map hsub
    refine ⟨r', c', hret, hcall, ?_, ?_, hl⟩
    · exact hinj _ (mem_ids_of_mem hpaired (hl.subset (by simp))) _ hi hrid
    · exact hinj _ (mem_ids_of_mem hpaired (hl.subset (by simp))) _ hj hcid
  · rintro ⟨r, c, hret, hcall, rfl, rfl, hsub⟩
    exact ⟨r.rename ρ, c.rename ρ, hret, hcall, rfl, rfl, hsub.map (Entry.rename ρ)⟩

/-- Other names for the operations do not change what is linearizable. -/
theorem linearizable_relabel :
    LinearizableEntries model (relabel ρ entries) ↔ LinearizableEntries model entries := by
  unfold LinearizableEntries
  rw [callIds_relabel, Linearizability.linearizable_map]
  constructor
  · exact Linearizable.congr (fun i hi s => stepOf_relabel hpaired hinj s hi)
      fun i hi j hj h => (before_relabel hpaired hinj hi hj).mpr h
  · exact Linearizable.congr (fun i hi s => (stepOf_relabel hpaired hinj s hi).symm)
      fun i hi j hj h => (before_relabel hpaired hinj hi hj).mp h

theorem paired_relabel : Paired (relabel ρ entries) := by
  refine
    { distinct := List.pairwise_map.mpr
        (hpaired.distinct.imp_of_mem fun {u v} hu hv h hk heq => ?_),
      answered := fun c hc hcall => ?_, asked := fun r hr hret => ?_,
      inputs := fun c hc hcall => ?_, outputs := fun r hr hret => ?_ }
  · exact h hk (hinj _ (mem_ids_of_mem hpaired hu) _ (mem_ids_of_mem hpaired hv) heq)
  · obtain ⟨c', hc', rfl⟩ := List.mem_map.mp hc
    obtain ⟨r, hret, hid, hsub⟩ := hpaired.answered c' hc' hcall
    exact ⟨r.rename ρ, hret, congrArg ρ hid, hsub.map (Entry.rename ρ)⟩
  · obtain ⟨r', hr', rfl⟩ := List.mem_map.mp hr
    rw [callIds_relabel]
    exact List.mem_map_of_mem (hpaired.asked r' hr' hret)
  · obtain ⟨c', hc', rfl⟩ := List.mem_map.mp hc
    exact hpaired.inputs c' hc' hcall
  · obtain ⟨r', hr', rfl⟩ := List.mem_map.mp hr
    exact hpaired.outputs r' hr' hret

end Relabel

/-- The ids seen so far have the numbers below `id`, each one of them. -/
structure Numbering (m : Finmap fun _ : ℤ => ℤ) (id : ℤ) : Prop where
  nonneg : 0 ≤ id
  lt : ∀ i k, m.lookup i = some k → 0 ≤ k ∧ k < id
  inj : ∀ i j k, m.lookup i = some k → m.lookup j = some k → i = j
  onto : ∀ k, 0 ≤ k → k < id → ∃ i, m.lookup i = some k

theorem Numbering.insert {m : Finmap fun _ : ℤ => ℤ} {id i : ℤ} (h : Numbering m id)
    (hi : m.lookup i = none) : Numbering (m.insert i id) (id + 1) := by
  have hlookup : ∀ j k, (m.insert i id).lookup j = some k ↔ j = i ∧ k = id ∨ j ≠ i ∧
      m.lookup j = some k := by
    intro j k
    by_cases hj : j = i
    · subst hj
      simp [eq_comm]
    · simp [hj, Finmap.lookup_insert_of_ne m hj]
  refine ⟨by have := h.nonneg; omega, fun j k hjk => ?_, fun j j' k hj hj' => ?_, fun k h0 hk => ?_⟩
  · obtain ⟨rfl, rfl⟩ | ⟨-, hjk⟩ := (hlookup j k).mp hjk
    · exact ⟨h.nonneg, by omega⟩
    · obtain ⟨h0, hlt⟩ := h.lt j k hjk
      exact ⟨h0, by omega⟩
  · obtain ⟨hji, hk⟩ | ⟨-, hold⟩ := (hlookup j k).mp hj
    · obtain ⟨hji', -⟩ | ⟨-, hold'⟩ := (hlookup j' k).mp hj'
      · exact hji.trans hji'.symm
      · have := (h.lt _ _ hold').2
        omega
    · obtain ⟨-, hk⟩ | ⟨-, hold'⟩ := (hlookup j' k).mp hj'
      · have := (h.lt _ _ hold).2
        omega
      · exact h.inj j j' k hold hold'
  · by_cases hkid : k = id
    · exact ⟨i, (hlookup i k).mpr (.inl ⟨rfl, hkid⟩)⟩
    · obtain ⟨j, hj⟩ := h.onto k h0 (by omega)
      refine ⟨j, (hlookup j k).mpr (.inr ⟨fun heq => ?_, hj⟩)⟩
      rw [heq, hi] at hj
      cases hj

/-- `renumber` gives the ids of the events other names, `0, …, id' - 1`. -/
theorem renumberFrom_spec {m : Finmap fun _ : ℤ => ℤ} {id : ℤ} (h : Numbering m id)
    (events : List (Event ι ο)) :
    ∃ (m' : Finmap fun _ : ℤ => ℤ) (id' : ℤ), Numbering m' id' ∧
      (∀ i k, m.lookup i = some k → m'.lookup i = some k) ∧
      (∀ i k, m'.lookup i = some k → m.lookup i = some k ∨ ∃ v ∈ events, v.id = i) ∧
      (∀ v ∈ events, (m'.lookup v.id).isSome) ∧
      renumberFrom m id events = events.map fun v => { v with id := (m'.lookup v.id).getD 0 } := by
  induction events generalizing m id with
  | nil =>
    exact ⟨m, id, h, fun _ _ hk => hk, fun _ _ hk => .inl hk,
      fun v hv => absurd hv List.not_mem_nil, rfl⟩
  | cons v events ih =>
    cases hv : m.lookup v.id with
    | some r =>
      obtain ⟨m', id', h', hext, hnew, hall, hren⟩ := ih h
      refine ⟨m', id', h', hext, fun i k hk => ?_, fun u hu => ?_, ?_⟩
      · obtain hk | ⟨u, hu, hid⟩ := hnew i k hk
        · exact .inl hk
        · exact .inr ⟨u, List.mem_cons_of_mem v hu, hid⟩
      · obtain rfl | hu := List.mem_cons.mp hu
        · simp [hext _ _ hv]
        · exact hall u hu
      · simp [renumberFrom, hv, hren, hext _ _ hv]
    | none =>
      obtain ⟨m', id', h', hext, hnew, hall, hren⟩ := ih (h.insert hv)
      have hvm' : m'.lookup v.id = some id := hext _ _ (Finmap.lookup_insert m)
      refine ⟨m', id', h', fun i k hk => hext i k ?_, fun i k hk => ?_, fun u hu => ?_, ?_⟩
      · rw [Finmap.lookup_insert_of_ne m fun heq => ?_, hk]
        rw [heq, hv] at hk
        cases hk
      · obtain hk' | ⟨u, hu, hid⟩ := hnew i k hk
        · by_cases hi : i = v.id
          · exact .inr ⟨v, List.mem_cons_self, hi.symm⟩
          · rw [Finmap.lookup_insert_of_ne m hi] at hk'
            exact .inl hk'
        · exact .inr ⟨u, List.mem_cons_of_mem v hu, hid⟩
      · obtain rfl | hu := List.mem_cons.mp hu
        · simp [hvm']
        · exact hall u hu
      · simp [renumberFrom, hv, hren, hvm']

theorem convertEntries_map (f : ℤ → ℤ) (events : List (Event ι ο)) :
    convertEntries (events.map fun v => { v with id := f v.id }) =
      relabel f (convertEntries events) := by
  unfold convertEntries relabel
  rw [List.zipIdx_map, List.map_map, List.map_map]
  rfl

theorem exists_event {events : List (Event ι ο)} {e : Entry ι ο} (he : e ∈ convertEntries events) :
    ∃ v ∈ events, v.id = e.id := by
  obtain ⟨⟨v, k⟩, hv, rfl⟩ := List.mem_map.mp he
  exact ⟨v, List.fst_mem_of_mem_zipIdx hv, rfl⟩

theorem exists_entry {events : List (Event ι ο)} {v : Event ι ο} (hv : v ∈ events) :
    ∃ e ∈ convertEntries events, e.id = v.id := by
  obtain ⟨k, hk, rfl⟩ := List.mem_iff_getElem.mp hv
  have hmem : (events[k], k) ∈ events.zipIdx := List.mk_mem_zipIdx_iff_getElem?.mpr (by simp [hk])
  exact ⟨_, List.mem_map_of_mem hmem, rfl⟩

/-- The entries of renumbered events are well formed, and linearizable exactly if the events are. -/
theorem renumber_spec (model : Model ι ο σ) {events : List (Event ι ο)}
    (hpaired : Paired (convertEntries events)) :
    WellFormed (convertEntries (renumber events)) ∧
      (LinearizableEntries model (convertEntries (renumber events)) ↔
        LinearizableEvents model events) := by
  have hempty : Numbering (∅ : Finmap fun _ : ℤ => ℤ) 0 :=
    ⟨le_rfl, fun i k h => by simp at h, fun i j k h => by simp at h, fun k h0 hk => by omega⟩
  obtain ⟨m, id, hm, -, hnew, hall, hren⟩ := renumberFrom_spec hempty events
  have hids : ∀ i, i ∈ callIds (convertEntries events) ↔ (m.lookup i).isSome := by
    intro i
    constructor
    · intro hi
      obtain ⟨e, he, -, rfl⟩ := mem_callIds.mp hi
      obtain ⟨v, hv, hid⟩ := exists_event he
      exact hid ▸ hall v hv
    · intro hi
      obtain ⟨k, hk⟩ := Option.isSome_iff_exists.mp hi
      obtain hk' | ⟨v, hv, rfl⟩ := hnew i k hk
      · simp at hk'
      · obtain ⟨e, he, hid⟩ := exists_entry hv
        exact hid ▸ mem_ids_of_mem hpaired he
  have hinj : ∀ i ∈ callIds (convertEntries events), ∀ j ∈ callIds (convertEntries events),
      (m.lookup i).getD 0 = (m.lookup j).getD 0 → i = j := by
    intro i hi j hj heq
    obtain ⟨k, hk⟩ := Option.isSome_iff_exists.mp ((hids i).mp hi)
    obtain ⟨k', hk'⟩ := Option.isSome_iff_exists.mp ((hids j).mp hj)
    rw [hk, hk'] at heq
    obtain rfl : k = k' := heq
    exact hm.inj i j k hk hk'
  have hconv : convertEntries (renumber events) =
      relabel (fun i => (m.lookup i).getD 0) (convertEntries events) := by
    rw [renumber, hren]
    exact convertEntries_map (fun i => (m.lookup i).getD 0) events
  have hpaired' := paired_relabel hpaired hinj
  rw [hconv]
  refine ⟨⟨hpaired', fun i => ?_⟩, linearizable_relabel hpaired hinj⟩
  have hmem : ∀ i, i ∈ callIds (relabel (fun i => (m.lookup i).getD 0) (convertEntries events)) ↔
      0 ≤ i ∧ i < id := by
    intro i
    rw [callIds_relabel, List.mem_map]
    constructor
    · rintro ⟨j, hj, rfl⟩
      obtain ⟨k, hk⟩ := Option.isSome_iff_exists.mp ((hids j).mp hj)
      rw [hk]
      exact hm.lt j k hk
    · rintro ⟨h0, hlt⟩
      obtain ⟨j, hj⟩ := hm.onto i h0 hlt
      exact ⟨j, (hids j).mpr (by simp [hj]), by simp [hj]⟩
  -- the ids are the numbers below `id`, so there are `id` of them
  have hperm : (callIds (relabel (fun i => (m.lookup i).getD 0) (convertEntries events))).Perm
      ((List.range id.toNat).map fun k : ℕ => (k : ℤ)) := by
    refine (List.perm_ext_iff_of_nodup hpaired'.nodup_callIds ?_).mpr fun i => ?_
    · exact List.nodup_range.map fun a b hab => by exact_mod_cast hab
    · rw [hmem]
      simp only [List.mem_map, List.mem_range]
      constructor
      · rintro ⟨h0, hlt⟩
        exact ⟨i.toNat, by omega, by omega⟩
      · rintro ⟨k, hk, rfl⟩
        omega
  rw [hmem, hperm.length_eq, List.length_map, List.length_range, Int.toNat_of_nonneg hm.nonneg]

end LogicRaft.Porcupine
