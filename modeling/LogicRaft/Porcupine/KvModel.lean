import LogicRaft.Porcupine.Histories
import Mathlib.Data.Finset.Sort
import Mathlib.Data.String.Basic

/-!
# The model of the key-value service

`KvModel` of `models/kv.go`. Its state is the value of one key, and `Partition` splits a history by
key, so that the checker looks at each key by itself. The service is about all keys: `storeStep`
says what an operation does to the whole store, and the history of each key is linearizable for
`KvModel` exactly when the whole history is for the store (`forall_partition_iff`). That a store is
one object for each of its keys is locality (`Linearizability.linearizable_iff_forall_key`).
-/

namespace LogicRaft.Porcupine

open Linearizability (Linearizable ofKey stepAt)

/-- States compared with `==` allow the same continuations. -/
theorem equalSound_fillDefault {ι ο σ : Type} [DecidableEq σ] {model : ModelFields ι ο σ}
    (hequal : model.equal = none) : (fillDefault model).EqualSound := by
  intro s t heq u h
  have hst : s = t := by simpa [fillDefault, hequal, shallowEqual] using heq
  exact hst ▸ h

/-- In `op`, `0` is a get, `1` a put and `2` an append. -/
structure KvInput where
  op : UInt8
  key : String
  value : String := ""
deriving DecidableEq

structure KvOutput where
  value : String := ""
deriving DecidableEq

/-- An operation on the key-value service. -/
abbrev KvOperation := Operation KvInput KvOutput

namespace KvModel

/-- The map `m` of `Partition`: the operations on each key, in the order of the history. -/
def groupByKey (history : List KvOperation) : Finmap fun _ : String => List KvOperation :=
  history.foldl (fun m v => m.insert v.input.key ((m.lookup v.input.key).getD [] ++ [v])) ∅

def partition (history : List KvOperation) : List (List KvOperation) :=
  ((groupByKey history).keys.sort (· ≤ ·)).map fun k => ((groupByKey history).lookup k).getD []

def init : String := ""

def step (state : String) (inp : KvInput) (out : KvOutput) : Bool × String :=
  if inp.op = 0 then (out.value = state, state)
  else if inp.op = 1 then (true, inp.value)
  else (true, state ++ inp.value)

end KvModel

def kvModel : ModelFields KvInput KvOutput String where
  partition := some KvModel.partition
  init := KvModel.init
  step := KvModel.step

/-! ## The history of each key -/

namespace KvModel

def keyOf (v : KvOperation) : String := v.input.key

theorem groupByKey_concat (history : List KvOperation) (v : KvOperation) :
    groupByKey (history ++ [v]) = (groupByKey history).insert v.input.key
      (((groupByKey history).lookup v.input.key).getD [] ++ [v]) := by
  simp [groupByKey]

/-- A key is in the map when it has operations, and then with all of them. -/
theorem lookup_groupByKey (history : List KvOperation) (k : String) :
    (groupByKey history).lookup k = if ofKey keyOf k history = [] then none
      else some (ofKey keyOf k history) := by
  induction history using List.reverseRecOn with
  | nil => simp [groupByKey, ofKey]
  | append_singleton history v ih =>
    have hsplit : ofKey keyOf k (history ++ [v]) = ofKey keyOf k history ++ ofKey keyOf k [v] := by
      simp [ofKey]
    rw [groupByKey_concat, hsplit]
    by_cases hk : v.input.key = k
    · subst hk
      have hone : ofKey keyOf v.input.key [v] = [v] := by simp [ofKey, keyOf]
      rw [Finmap.lookup_insert, ih, hone,
        if_neg (List.append_ne_nil_of_right_ne_nil _ (List.cons_ne_nil _ _))]
      by_cases hnil : ofKey keyOf v.input.key history = []
      · simp [hnil]
      · simp [hnil]
    · have hnone : ofKey keyOf k [v] = [] := by simp [ofKey, keyOf, hk]
      rw [Finmap.lookup_insert_of_ne _ (Ne.symm hk), ih, hnone, List.append_nil]

/-- The parts of a history are the operations of each key that has any. -/
theorem mem_partition {history sub : List KvOperation} :
    sub ∈ partition history ↔ sub ≠ [] ∧ ∃ k, ofKey keyOf k history = sub := by
  simp only [partition, List.mem_map, Finset.mem_sort, Finmap.mem_keys]
  constructor
  · rintro ⟨k, hk, rfl⟩
    obtain ⟨l, hl⟩ := Finmap.mem_iff.mp hk
    rw [lookup_groupByKey] at hl ⊢
    split at hl
    case isTrue => cases hl
    case isFalse hne =>
      rw [if_neg hne, Option.getD_some]
      exact ⟨hne, k, rfl⟩
  · rintro ⟨hne, k, rfl⟩
    have hlookup : (groupByKey history).lookup k = some (ofKey keyOf k history) := by
      rw [lookup_groupByKey, if_neg hne]
    exact ⟨k, Finmap.mem_iff.mpr ⟨_, hlookup⟩, by rw [hlookup, Option.getD_some]⟩

/-- Only the empty history has no part. -/
theorem partition_eq_nil {history : List KvOperation} : partition history = [] ↔ history = [] := by
  constructor
  · intro h
    cases history with
    | nil => rfl
    | cons v history =>
      have hmem : ofKey keyOf (keyOf v) (v :: history) ∈ partition (v :: history) :=
        mem_partition.mpr ⟨by simp [ofKey], keyOf v, rfl⟩
      rw [h] at hmem
      cases hmem
  · rintro rfl
    refine List.eq_nil_iff_forall_not_mem.mpr fun sub hsub => ?_
    obtain ⟨hne, k, rfl⟩ := mem_partition.mp hsub
    exact hne rfl

/-! ## The store -/

/-- What an operation on the service does to the values of all keys, and what it may answer. -/
def storeStep (store : String → String) (v : KvOperation) : Option (String → String) :=
  if v.input.op = 0 then
    if v.output.value = store v.input.key then some store else none
  else if v.input.op = 1 then some (Function.update store v.input.key v.input.value)
  else some (Function.update store v.input.key (store v.input.key ++ v.input.value))

/-- The history is linearizable as that of one store, empty at first. -/
def LinearizableStore (history : List KvOperation) : Prop :=
  Linearizable storeStep (fun _ => "") (fun a b => a.ret < b.call) history

/-- An operation of the model on the value of a key. -/
def keyStep (value : String) (v : KvOperation) : Option String :=
  (fillDefault kvModel).apply value (v.input, v.output)

theorem storeStep_eq (store : String → String) (v : KvOperation) :
    storeStep store v = stepAt keyStep keyOf store v := by
  unfold storeStep stepAt keyStep keyOf Model.apply
  simp only [fillDefault, kvModel, step]
  split
  case isTrue =>
    by_cases hout : v.output.value = store v.input.key <;> simp [hout]
  case isFalse => split <;> simp

/-- The operations of each key are linearizable for `KvModel` exactly when all of them are for the
store. -/
theorem forall_partition_iff {history : List KvOperation} (hle : ∀ v ∈ history, v.call ≤ v.ret) :
    (∀ sub ∈ (fillDefault kvModel).partition history,
      LinearizableOperations (fillDefault kvModel) sub) ↔ LinearizableStore history := by
  have hlocal := Linearizability.linearizable_iff_forall_key keyStep keyOf Operation.call
    Operation.ret "" hle
  have hstep : storeStep = stepAt keyStep keyOf := funext₂ storeStep_eq
  rw [LinearizableStore, hstep, hlocal]
  constructor
  · intro h k
    by_cases hne : ofKey keyOf k history = []
    · rw [hne]
      exact ⟨[], .nil, .nil, rfl⟩
    · exact h _ (mem_partition.mpr ⟨hne, k, rfl⟩)
  · intro h sub hsub
    obtain ⟨-, k, rfl⟩ := mem_partition.mp hsub
    exact h k

theorem le_of_mem_partition {history : List KvOperation} (hle : ∀ v ∈ history, v.call ≤ v.ret)
    (sub : List KvOperation) (hsub : sub ∈ (fillDefault kvModel).partition history) :
    ∀ v ∈ sub, v.call ≤ v.ret := by
  obtain ⟨-, k, rfl⟩ := mem_partition.mp hsub
  exact fun v hv => hle v (List.mem_of_mem_filter hv)

theorem equalSound : (fillDefault kvModel).EqualSound := equalSound_fillDefault rfl

end KvModel

end LogicRaft.Porcupine
