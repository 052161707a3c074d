import LogicRaft.Porcupine.Interleavings

/-!
# Checks of histories

`checkOperations` and `checkEvents` split a history with the model's functions, make entries of each
part and hand them to `checkParallel`. What they return is right for the history itself, in every
schedule: for operations of the key-value service as one store (`checkOperations_kvModel`), for
events in the order they stand in (`checkEvents_decides`). With `computeInfo` the sequences reported
are beginnings of linearizations, as long as they can be (`checkParallel_info`).
-/

namespace LogicRaft.Porcupine

open Linearizability (Partial IsLinearization)

variable {ι ο σ : Type}

namespace Checking

variable {model : Model ι ο σ} {history : List (List (Entry ι ο))} {timeout : ℤ}
  {c : Checking ι ο σ} {i : ℕ} {p : List (Entry ι ο)}

/-! ## What is reported -/

/-- With `computeInfo` every part gets its partial linearizations: beginnings of linearizations in
any case, and without a timeout a longest one for every operation that any of them has, or a whole
linearization if there is one. -/
theorem checkParallel_info (hwf : ∀ p ∈ history, WellFormed p) (hequal : model.EqualSound)
    (hrun : Reach (Checking.step model history true timeout) (fun _ _ => True) (start history) c)
    {r : CheckResult} (hresult : c.result = some r) (hp : history[i]? = some p) :
    ∃ partials, (c.info history true).partialLinearizations[i]? = some partials ∧
      (∀ q ∈ partials, ∃ s, Partial (stepOf model p) model.init (Before p) (callIds p) q s) ∧
      (timeout ≤ 0 →
        (LinearizableEntries model p → ∀ q ∈ partials,
          IsLinearization (stepOf model p) model.init (Before p) (callIds p) q) ∧
        ∀ w s, Partial (stepOf model p) model.init (Before p) (callIds p) w s → ∀ k ∈ w,
          ∃ q ∈ partials, k ∈ q ∧ w.length ≤ q.length) := by
  obtain ⟨b, hinv⟩ := inv_of_reach hwf hequal hrun
  have hphase : c.phase = .returned := by
    by_contra hne
    simp [result, hne] at hresult
  have hmain := hinv.main
  unfold MainOk at hmain
  rw [hphase] at hmain
  obtain ⟨hs, hcount⟩ := hmain
  obtain ⟨ok, hw⟩ := hinv.running.all_sent (hcount rfl).ge hp
  obtain ⟨l, hl, hreport⟩ := hinv.running.report hp hw
  refine ⟨l.reduceOption.dedup, by simp [info, hl], fun q hq => ?_, fun htimeout => ?_⟩
  · obtain ⟨k, hk⟩ := mem_reduceOption_dedup.mp hq
    exact (hreport.sound.beginnings k q hk).2
  · have htimedOut : c.timedOut = false := by
      by_contra htrue
      have := hs.timedOut (by simpa using htrue)
      omega
    have hexact := hreport.exact (hs.kill rfl htimedOut)
    refine ⟨fun hlin q hq => ?_, fun w s hpartial k hk =>
      hexact.exists_longest (hwf p (List.mem_of_getElem? hp)) hpartial hk⟩
    obtain ⟨v, hv, rfl⟩ := hexact.complete (hexact.linearizable.mpr hlin)
    obtain ⟨k, hk⟩ := mem_reduceOption_dedup.mp hq
    obtain ⟨_, hvq⟩ := List.getElem?_eq_some_iff.mp hk
    obtain rfl : v = q := by simpa using hvq
    exact hv

theorem checkParallel_info_putAndGet :
    ∃ (c : Checking KvInput KvOutput String) (partials : List (List ℤ)),
      (c.info [makeEntries putAndGet] true).partialLinearizations[0]? = some partials ∧
      ∀ q ∈ partials, ∃ s, Partial (stepOf (fillDefault kvModel) (makeEntries putAndGet)) ""
        (Before (makeEntries putAndGet)) (callIds (makeEntries putAndGet)) q s := by
  obtain ⟨c, hrun, hresult⟩ := exists_checked_putAndGet
  obtain ⟨partials, hpartials, hsound, -⟩ :=
    checkParallel_info wellFormed_putAndGet KvModel.equalSound
    (Reach.of_exec hrun) hresult (i := 0) rfl
  exact ⟨c, partials, hpartials, hsound⟩

end Checking

/-! ## Operations and events

`checkOperations` and `checkEvents` split the history with the model's functions and hand the
entries of each part to `checkParallel`. -/

section Parts

variable {model : Model ι ο σ} {computeInfo : Bool} {timeout : ℤ}

/-- The parts that `checkOperations` checks, each sorted in one of the ways `sort.Sort` may. -/
def OperationParts (model : Model ι ο σ) (history : List (Operation ι ο))
    (parts : List (List (Entry ι ο))) : Prop :=
  List.Forall₂ (fun subhistory entries => Sorts (operationEntries 0 subhistory) entries)
    (model.partition history) parts

/-- The parts that `checkEvents` checks. -/
def eventParts (model : Model ι ο σ) (history : List (Event ι ο)) : List (List (Entry ι ο)) :=
  (model.partitionEvent history).map fun subhistory => convertEntries (renumber subhistory)

theorem operationParts_makeEntries (model : Model ι ο σ) (history : List (Operation ι ο)) :
    OperationParts model history ((model.partition history).map makeEntries) := by
  refine List.forall₂_map_right_iff.mpr (List.forall₂_same.mpr fun sub _ => sorts_makeEntries sub)

variable {history : List (Operation ι ο)} {parts : List (List (Entry ι ο))}

/-- Every part comes from one of the model's. -/
theorem exists_of_forall₂ {α β : Type*} {R : α → β → Prop} {l : List α} {l' : List β}
    (h : List.Forall₂ R l l') {b : β} (hb : b ∈ l') : ∃ a ∈ l, R a b := by
  obtain ⟨i, hi, rfl⟩ := List.mem_iff_getElem.mp hb
  have hi' : i < l.length := h.length_eq ▸ hi
  exact ⟨l[i], List.getElem_mem hi', h.get hi' hi⟩

theorem OperationParts.wellFormed (h : OperationParts model history parts)
    (hle : ∀ sub ∈ model.partition history, ∀ op ∈ sub, op.call ≤ op.ret) :
    ∀ p ∈ parts, WellFormed p := by
  intro p hp
  obtain ⟨sub, hsub, hsort⟩ := exists_of_forall₂ h hp
  exact hsort.wellFormed (hle sub hsub)

theorem OperationParts.linearizable_iff (h : OperationParts model history parts)
    (hle : ∀ sub ∈ model.partition history, ∀ op ∈ sub, op.call ≤ op.ret) :
    (∀ p ∈ parts, LinearizableEntries model p) ↔
      ∀ sub ∈ model.partition history, LinearizableOperations model sub := by
  constructor
  · intro hall sub hsub
    obtain ⟨p, hp, hsort⟩ := exists_of_forall₂ h.flip hsub
    exact (hsort.linearizable_iff (hle sub hsub)).mp (hall p hp)
  · intro hall p hp
    obtain ⟨sub, hsub, hsort⟩ := exists_of_forall₂ h hp
    exact (hsort.linearizable_iff (hle sub hsub)).mpr (hall sub hsub)

/-- The result of a check is right for the property `P` of histories. -/
structure Right (P : Prop) (timeout : ℤ) (r : CheckResult) : Prop where
  ok : r = .ok → P
  illegal : r = .illegal → ¬ P
  unknown : r = .unknown → 0 < timeout

/-- The result of a check of parts, in terms of the whole. -/
theorem Checking.right_of_parts {P : Prop} (hwf : ∀ p ∈ parts, WellFormed p)
    (hequal : model.EqualSound)
    (hparts : (∀ p ∈ parts, LinearizableEntries model p) ↔ P) {c : Checking ι ο σ}
    (hrun : Reach (Checking.step model parts computeInfo timeout) (fun _ _ => True) (start parts) c)
    {r : CheckResult} (hresult : c.result = some r) : Right P timeout r := by
  obtain ⟨b, hinv⟩ := inv_of_reach hwf hequal hrun
  obtain ⟨hok, hillegal, hunknown⟩ := hinv.verdict
  refine ⟨?_, ?_, ?_⟩
  · rintro rfl
    exact hparts.mp (hok hresult)
  · rintro rfl hP
    obtain ⟨p, hp, hnot⟩ := hillegal hresult
    exact hnot (hparts.mpr hP p hp)
  · rintro rfl
    exact hunknown hresult

/-- **`checkOperations` for the key-value service.** In every schedule, whichever way the entries of
each key are sorted: the check ends, with a verdict on the history as that of one store, unless the
history is empty and there is no timeout. -/
theorem checkOperations_kvModel {history : List KvOperation} (hle : ∀ v ∈ history, v.call ≤ v.ret)
    {parts : List (List (Entry KvInput KvOutput))}
    (hparts : OperationParts (fillDefault kvModel) history parts) {turns : List Turn}
    {c : Checking KvInput KvOutput String}
    (hrun : exec (Checking.step (fillDefault kvModel) parts computeInfo timeout)
      (fun _ _ => True) turns (Checking.start parts) = some c) :
    turns.length ≤ Checking.turnsBound parts ∧
    (∀ r, c.result = some r → Right (KvModel.LinearizableStore history) timeout r) ∧
    ((∀ turn, c.step (fillDefault kvModel) parts computeInfo timeout turn = none) →
      c.result = none → history = [] ∧ timeout ≤ 0) := by
  have hle' := KvModel.le_of_mem_partition hle
  have hwf := hparts.wellFormed hle'
  have hiff := (hparts.linearizable_iff hle').trans (KvModel.forall_partition_iff hle)
  obtain ⟨hbound, hprogress⟩ := Checking.bound_and_progress hwf KvModel.equalSound hrun
  refine ⟨hbound, fun r hr => Checking.right_of_parts hwf KvModel.equalSound hiff
    (Reach.of_exec hrun) hr, fun hstuck hnone => ?_⟩
  obtain ⟨hnil, htimeout⟩ := hprogress hstuck hnone
  have hlen : (KvModel.partition history).length = 0 := by
    have := hparts.length_eq
    rwa [hnil] at this
  exact ⟨KvModel.partition_eq_nil.mp (List.eq_nil_of_length_eq_zero hlen), htimeout⟩

theorem partition_putAndGet : KvModel.partition putAndGet = [putAndGet] := by
  have hgroup : KvModel.groupByKey putAndGet = Finmap.singleton "x" putAndGet := by decide +kernel
  rw [KvModel.partition, hgroup, Finmap.keys_singleton, Finset.sort_singleton, List.map_singleton,
    Finmap.lookup_singleton_eq, Option.getD_some]

theorem checkOperations_putAndGet : KvModel.LinearizableStore putAndGet := by
  obtain ⟨c, hrun, hresult⟩ := Checking.exists_checked_putAndGet
  have hparts := operationParts_makeEntries (fillDefault kvModel) putAndGet
  rw [show (fillDefault kvModel).partition putAndGet = [putAndGet] from partition_putAndGet]
    at hparts
  exact ((checkOperations_kvModel (by decide) hparts hrun).2.1 .ok hresult).ok rfl

/-- `checkEvents` for a model that does not split events: in every schedule the check ends with a
verdict on the order in which the events stand. -/
theorem checkEvents_decides {history : List (Event ι ο)} (hequal : model.EqualSound)
    (hwhole : model.partitionEvent = noPartitionEvent) (hpaired : Paired (convertEntries history))
    {turns : List Turn} {c : Checking ι ο σ}
    (hrun : exec (Checking.step model (eventParts model history) computeInfo timeout)
      (fun _ _ => True) turns (Checking.start (eventParts model history)) = some c) :
    turns.length ≤ Checking.turnsBound (eventParts model history) ∧
    (∀ r, c.result = some r → Right (LinearizableEvents model history) timeout r) ∧
    ((∀ turn, c.step model (eventParts model history) computeInfo timeout turn = none) →
      c.result ≠ none) := by
  have hone : eventParts model history = [convertEntries (renumber history)] := by
    rw [eventParts, hwhole]
    rfl
  obtain ⟨hwf, hiff⟩ := renumber_spec model hpaired
  have hwf' : ∀ p ∈ eventParts model history, WellFormed p := by
    rw [hone]
    exact fun p hp => List.mem_singleton.mp hp ▸ hwf
  have hiff' : (∀ p ∈ eventParts model history, LinearizableEntries model p) ↔
      LinearizableEvents model history := by
    rw [hone, ← hiff]
    exact List.forall_mem_singleton
  obtain ⟨hbound, hprogress⟩ := Checking.bound_and_progress hwf' hequal hrun
  refine ⟨hbound, fun r hr => Checking.right_of_parts hwf' hequal hiff' (Reach.of_exec hrun) hr,
    fun hstuck hnone => ?_⟩
  obtain ⟨hnil, -⟩ := hprogress hstuck hnone
  rw [hone] at hnil
  cases hnil

/-- The events of `putAndGet`, with other ids. -/
def putAndGetEvents : List (Event KvInput KvOutput) :=
  [⟨0, .callEvent, .input { op := 1, key := "x", value := "a" }, 7⟩,
   ⟨1, .callEvent, .input { op := 0, key := "x" }, 3⟩,
   ⟨0, .returnEvent, .output {}, 7⟩, ⟨1, .returnEvent, .output { value := "a" }, 3⟩]

theorem paired_putAndGetEvents : Paired (convertEntries putAndGetEvents) where
  distinct := by decide
  answered := by
    intro c hc hcall
    simp only [putAndGetEvents, convertEntries, List.zipIdx_cons, List.zipIdx_nil, List.map_cons,
      List.map_nil, List.mem_cons, List.not_mem_nil, or_false] at hc
    obtain rfl | rfl | rfl | rfl := hc
    · exact ⟨⟨.returnEntry, .output {}, 7, 2, 0⟩, rfl, rfl, by decide⟩
    · exact ⟨⟨.returnEntry, .output { value := "a" }, 3, 3, 1⟩, rfl, rfl, by decide⟩
    · cases hcall
    · cases hcall
  asked := by decide
  inputs := by simp [putAndGetEvents, convertEntries, Entry.IsCall]
  outputs := by simp [putAndGetEvents, convertEntries, Entry.IsReturn]

theorem checkEvents_decides_putAndGetEvents :
    LinearizableEvents (fillDefault kvModel) putAndGetEvents := by
  obtain ⟨c, hrun, hresult⟩ := Checking.exists_ok (fillDefault kvModel)
    (eventParts (fillDefault kvModel) putAndGetEvents) false 0 Checking.putAndGetTurns
      (by decide +kernel)
  exact ((checkEvents_decides KvModel.equalSound rfl paired_putAndGetEvents hrun).2.1 .ok
    hresult).ok rfl

end Parts

end LogicRaft.Porcupine
