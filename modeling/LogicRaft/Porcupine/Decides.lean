import LogicRaft.Porcupine.KvModel
import LogicRaft.Porcupine.Simulation

/-!
# `checkSingle` decides linearizability

The search over lists meets the conditions of `MemoSearch`: a choice adds an operation, the cache
compares sets of operations, and states that the model calls equal allow the same continuations. So
the loop returns within `(n + 2) ^ (n + 1)` turns on a history of `n` operations, without a panic,
`true` exactly if the history is linearizable (`checkSingle_spec`). With `computePartial` the
sequences it reports are the longest beginnings of linearizations that have each operation.

The entries that `makeEntries` builds are well formed, and their order is the real-time order of the
operations, whichever way `sort.Sort` arranges entries that compare as equal.
-/

namespace LogicRaft.Porcupine

open Linearizability (Linearizable Partial IsLinearization)

variable {ι ο σ : Type} {model : Model ι ο σ} {entries : List (Entry ι ο)}

/-! ## The conditions of the search -/

/-- How many operations of the history a configuration has. -/
def rank (entries : List (Entry ι ο)) (c : Config σ) : ℕ :=
  (c.ids.toFinset ∩ (callIds entries).toFinset).card

theorem rank_le (c : Config σ) : rank entries c ≤ (callIds entries).length :=
  (Finset.card_le_card Finset.inter_subset_right).trans (List.toFinset_card_le _)

theorem graded_problem : MemoSearch.Graded (problem model entries) (rank entries) where
  next := by
    intro c x hx d hd
    obtain ⟨hlive, hcall⟩ := isCall_of_mem_openCalls hx
    obtain ⟨hcell, hfresh⟩ := mem_live.mp hlive
    have hid : x.2.id ∈ callIds entries :=
      mem_callIds.mpr ⟨x.2, mem_of_mem_cellsOf hcell, hcall, rfl⟩
    obtain ⟨t, -, rfl⟩ := Option.map_eq_some_iff.mp hd
    have hset : (c.ids ++ [x.2.id]).toFinset ∩ (callIds entries).toFinset =
        insert x.2.id (c.ids.toFinset ∩ (callIds entries).toFinset) := by
      ext i
      by_cases hi : i = x.2.id
      · simp [hi, hid]
      · simp [hi]
    unfold rank
    rw [hset, Finset.card_insert_of_notMem (by simp [hfresh])]
  same := by
    intro c d hsame
    have heq : c.ids.toFinset = d.ids.toFinset := by
      have := (Bool.and_eq_true_iff.mp hsame).1
      simpa using this
    unfold rank
    rw [heq]

theorem length_choices_le (model : Model ι ο σ) (entries : List (Entry ι ο)) (c : Config σ) :
    ((problem model entries).choices c).length ≤ (callIds entries).length := by
  have hsub : (openCalls (live entries c.ids)).Sublist (cellsOf entries) :=
    (List.takeWhile_sublist _).trans (live_sublist _)
  have hfilter := hsub.filter fun x => x.2.IsCall
  rw [List.filter_eq_self.mpr fun x hx => by simpa using (isCall_of_mem_openCalls hx).2] at hfilter
  refine hfilter.length_le.trans (le_of_eq ?_)
  rw [callIds, List.length_map, ← map_snd_cellsOf entries, List.filter_map, List.length_map,
    map_snd_cellsOf]
  rfl

/-- Configurations with the same operations, the second in a state that allows all continuations of
the first. -/
def Allows (model : Model ι ο σ) (c d : Config σ) : Prop :=
  c.ids.toFinset = d.ids.toFinset ∧ ∀ u : List (ι × ο),
    (Linearizability.run model.apply c.state u).isSome →
      (Linearizability.run model.apply d.state u).isSome

theorem live_congr {w v : List ℤ} (h : w.toFinset = v.toFinset) :
    live entries w = live entries v := by
  refine List.filter_congr fun x _ => ?_
  rw [decide_eq_decide, ← List.mem_toFinset, h, List.mem_toFinset]

/-- A step of an operation is a step of the model on its argument and answer. -/
theorem stepOf_eq_some {s t : σ} {i : ℤ} (h : stepOf model entries s i = some t) :
    ∃ op, model.apply s op = some t ∧ ∀ s', stepOf model entries s' i = model.apply s' op := by
  obtain ⟨a, ha, h⟩ := Option.bind_eq_some_iff.mp h
  obtain ⟨o, ho, h⟩ := Option.bind_eq_some_iff.mp h
  exact ⟨(a, o), h, fun s' => by simp [stepOf, ha, ho]⟩

theorem simulation_problem (hequal : model.EqualSound) :
    MemoSearch.Simulation (problem model entries) (Allows model) where
  refl := fun c => ⟨rfl, fun _ h => h⟩
  trans := fun c d e hcd hde => ⟨hcd.1.trans hde.1, fun u h => hde.2 u (hcd.2 u h)⟩
  same := by
    intro c d hsame
    obtain ⟨hids, heq⟩ := Bool.and_eq_true_iff.mp hsame
    exact ⟨by simpa using hids, hequal _ _ heq⟩
  edge := by
    rintro c c' d ⟨hids, hruns⟩ ⟨x, hx, hnext⟩
    obtain ⟨t, hstep, rfl⟩ := Option.map_eq_some_iff.mp hnext
    obtain ⟨op, happly, hop⟩ := stepOf_eq_some hstep
    have hcons : ∀ {s t : σ}, model.apply s op = some t → ∀ u,
        Linearizability.run model.apply s (op :: u) = Linearizability.run model.apply t u := by
      intro s t h u
      rw [Linearizability.run_cons, h, Option.bind_some]
    obtain ⟨t', ht'⟩ : ∃ t', model.apply c'.state op = some t' := by
      have := hruns [op] (by rw [hcons happly]; rfl)
      rw [Linearizability.run_cons] at this
      cases happly' : model.apply c'.state op with
      | none => simp [happly'] at this
      | some t' => exact ⟨t', rfl⟩
    refine ⟨⟨c'.ids ++ [x.2.id], t'⟩, ⟨x, ?_, ?_⟩, ?_, fun u hu => ?_⟩
    · show x ∈ openCalls (live entries c'.ids)
      rwa [← live_congr hids]
    · simp [problem, hop, ht']
    · ext i
      have := Finset.ext_iff.mp hids i
      simp only [List.mem_toFinset] at this
      simp [this]
    · rw [← hcons ht']
      exact hruns (op :: u) (by rwa [hcons happly])
  accept := by
    rintro c d ⟨hids, -⟩ hacc
    simpa [problem, live_congr hids] using hacc

/-! ## Runs of the loop -/

/-- Work left for a state of the search. -/
def work (entries : List (Entry ι ο)) (t : MemoSearch.State (Config σ) (Cell ι ο)) : ℕ :=
  MemoSearch.weight (rank entries) (callIds entries).length (callIds entries).length t

theorem work_lt {t t' : MemoSearch.State (Config σ) (Cell ι ο)}
    (hinv : MemoSearch.Inv (problem model entries) t)
    (hstep : (problem model entries).step t = some t') : work entries t' < work entries t :=
  MemoSearch.weight_lt graded_problem (length_choices_le model entries)
    (fun _ d _ => rank_le d) hinv hstep

theorem work_initial_lt :
    work entries (problem model entries).initial <
      ((callIds entries).length + 2) ^ ((callIds entries).length + 1) := by
  have hzero : rank entries (problem model entries).start = 0 := by simp [rank, problem]
  have hlen := length_choices_le model entries (problem model entries).start
  have hpos : 0 < ((callIds entries).length + 2) ^ (callIds entries).length :=
    Nat.pow_pos (Nat.succ_pos _)
  simp only [work, MemoSearch.weight, MemoSearch.Problem.initial, MemoSearch.frameWeight, hzero,
    Nat.sub_zero, List.map_nil, List.sum_nil, Nat.add_zero]
  rw [pow_succ']
  exact Nat.mul_lt_mul_of_pos_right (by omega) hpos

/-- The loop, not killed and with enough turns, ends where the search over lists halts. -/
theorem checkLoop_spec (hwf : WellFormed entries) {computePartial : Bool} {fuel : ℕ}
    {s : Search ι ο σ} {t : MemoSearch.State (Config σ) (Cell ι ο)}
    (hrun : (problem model entries).Leads (problem model entries).initial t)
    (hsim : Sim model entries computePartial s t) (hfuel : work entries t < fuel) :
    ∃ t' longest, (problem model entries).Leads (problem model entries).initial t' ∧
      (problem model entries).step t' = none ∧
      checkLoop model computePartial entries.length fuel (fun _ => false) s =
        some ((problem model entries).accept t'.top, longest) ∧
      ((problem model entries).accept t'.top = true →
        longest = List.replicate (callIds entries).length (some t'.top.ids)) ∧
      ((problem model entries).accept t'.top = false →
        LongestOk model entries computePartial longest t'.finished) := by
  induction fuel generalizing s t with
  | zero => exact absurd hfuel (Nat.not_lt_zero _)
  | succ fuel ih =>
    have hinv := MemoSearch.Inv.of_leads graded_problem hrun
    obtain ⟨s', t', hturn, hstep, hsim'⟩ | ⟨hstep, hturn⟩ := hsim.turn hwf hinv
    · have hlt := work_lt hinv hstep
      obtain ⟨t'', longest, hrun'', hhalt, hloop, hspec⟩ :=
        ih (Relation.ReflTransGen.tail hrun hstep) hsim' (by omega)
      exact ⟨t'', longest, hrun'', hhalt, by simp [checkLoop, hturn, hloop], hspec⟩
    · refine ⟨t, _, hrun, hstep, by simp only [checkLoop, hturn]; rfl, fun hacc => if_pos hacc,
        fun hacc => ?_⟩
      rw [if_neg (by simp [hacc])]
      exact hsim.longest

/-- `checkSingle` on a well-formed history, not killed. -/
theorem checkSingle_halts (model : Model ι ο σ) (hwf : WellFormed entries) (computePartial : Bool)
    {fuel : ℕ} (hfuel : ((callIds entries).length + 2) ^ ((callIds entries).length + 1) ≤ fuel) :
    ∃ (t : MemoSearch.State (Config σ) (Cell ι ο)) (longest : Longest),
      (problem model entries).Leads (problem model entries).initial t ∧
      (problem model entries).step t = none ∧
      checkSingle model entries computePartial (fun _ => false) fuel =
        some ((problem model entries).accept t.top, longest) ∧
      ((problem model entries).accept t.top = true →
        longest = List.replicate (callIds entries).length (some t.top.ids)) ∧
      ((problem model entries).accept t.top = false →
        LongestOk model entries computePartial longest t.finished) := by
  obtain ⟨s, hstart, hsim⟩ := sim_start model computePartial hwf
  obtain ⟨t, longest, hrun, hhalt, hloop, hspec⟩ :=
    checkLoop_spec hwf Relation.ReflTransGen.refl hsim
    (work_initial_lt.trans_le hfuel)
  exact ⟨t, longest, hrun, hhalt, by simp [checkSingle, hstart, hloop], hspec⟩

/-- A configuration on the path of an accepting search is a linearization. -/
theorem isLinearization_of_accept (hwf : WellFormed entries)
    {t : MemoSearch.State (Config σ) (Cell ι ο)}
    (hrun : (problem model entries).Leads (problem model entries).initial t)
    (hacc : (problem model entries).accept t.top = true) :
    IsLinearization (stepOf model entries) model.init (Before entries)
      (callIds entries) t.top.ids := by
  have hreach := (MemoSearch.Inv.of_leads graded_problem hrun).stack.reaches
  exact (Linearizability.isLinearization_iff_partial hwf.nodup_callIds).mpr
    ⟨t.top.state, (hwf.reaches_iff _).mp hreach, (hwf.accept_iff t.top).mp hacc⟩

/-- A search that gave up on a linearizable history would have found its linearization. -/
theorem accept_of_linearizable (hwf : WellFormed entries) (hequal : model.EqualSound)
    {t : MemoSearch.State (Config σ) (Cell ι ο)}
    (hrun : (problem model entries).Leads (problem model entries).initial t)
    (hhalt : (problem model entries).step t = none) (hlin : LinearizableEntries model entries) :
    (problem model entries).accept t.top = true := by
  obtain ⟨w, hw⟩ := hlin
  obtain ⟨s, hs, hall⟩ := (Linearizability.isLinearization_iff_partial hwf.nodup_callIds).mp hw
  by_contra hacc
  have hfalse := MemoSearch.not_accept_of_exhausted graded_problem
    (simulation_problem hequal) hrun hhalt (by simpa using hacc) ((hwf.reaches_iff s).mpr hs)
  rw [(hwf.accept_iff ⟨w, s⟩).mpr hall] at hfalse
  cases hfalse

theorem accept_iff_linearizable (hwf : WellFormed entries) (hequal : model.EqualSound)
    {t : MemoSearch.State (Config σ) (Cell ι ο)}
    (hrun : (problem model entries).Leads (problem model entries).initial t)
    (hhalt : (problem model entries).step t = none) :
    (problem model entries).accept t.top = true ↔ LinearizableEntries model entries :=
  ⟨fun hacc => ⟨_, isLinearization_of_accept hwf hrun hacc⟩,
    accept_of_linearizable hwf hequal hrun hhalt⟩

/-- `checkSingle` returns, and its answer is whether the history is linearizable. -/
theorem checkSingle_spec (hwf : WellFormed entries) (hequal : model.EqualSound)
    (computePartial : Bool)
    {fuel : ℕ} (hfuel : ((callIds entries).length + 2) ^ ((callIds entries).length + 1) ≤ fuel) :
    ∃ ok longest, checkSingle model entries computePartial (fun _ => false) fuel =
      some (ok, longest) ∧ (ok = true ↔ LinearizableEntries model entries) := by
  obtain ⟨t, longest, hrun, hhalt, hcheck, -⟩ := checkSingle_halts model hwf computePartial hfuel
  exact ⟨_, longest, hcheck, accept_iff_linearizable hwf hequal hrun hhalt⟩

/-- A put of key `x` and a get that overlaps it and sees it. -/
def putAndGet : List KvOperation :=
  [{ clientId := 0, input := { op := 1, key := "x", value := "a" }, call := 0,
     output := {}, ret := 2 },
   { clientId := 1, input := { op := 0, key := "x" }, call := 1,
     output := { value := "a" }, ret := 3 }]

/-- `checkSingle` on the entries of `makeEntries`, in whichever order `sort.Sort` leaves equal ones,
decides whether the operations are linearizable in real time. -/
theorem checkSingle_decides_operations {history : List (Operation ι ο)}
    (hsort : Sorts (operationEntries 0 history) entries) (hle : ∀ op ∈ history, op.call ≤ op.ret)
    (hequal : model.EqualSound) (computePartial : Bool) {fuel : ℕ}
    (hfuel : (history.length + 2) ^ (history.length + 1) ≤ fuel) :
    ∃ ok longest, checkSingle model entries computePartial (fun _ => false) fuel =
      some (ok, longest) ∧ (ok = true ↔ LinearizableOperations model history) := by
  rw [← hsort.length_callIds] at hfuel
  obtain ⟨ok, longest, hcheck, hok⟩ :=
    checkSingle_spec (hsort.wellFormed hle) hequal computePartial hfuel
  exact ⟨ok, longest, hcheck, hok.trans (hsort.linearizable_iff hle)⟩

theorem checkSingle_decides_putAndGet :
    ∃ ok longest, checkSingle (fillDefault kvModel) (makeEntries putAndGet) true
      (fun _ => false) 64 =
      some (ok, longest) ∧ (ok = true ↔ LinearizableOperations (fillDefault kvModel) putAndGet) :=
  checkSingle_decides_operations (sorts_makeEntries putAndGet) (by decide) KvModel.equalSound true
    (by decide)

/-! ## Partial linearizations -/

/-- `longest` is right for a history that is not linearizable: where it has a sequence, this is a
longest beginning of a linearization that has the operation, and where it has none there is no such
beginning. -/
def LongestRight (model : Model ι ο σ) (entries : List (Entry ι ο)) (longest : Longest) : Prop :=
  longest.length = (callIds entries).length ∧ ∀ k : ℕ, k < (callIds entries).length →
    (∀ q, longest[k]? = some (some q) → (k : ℤ) ∈ q ∧
      (∃ s, Partial (stepOf model entries) model.init (Before entries) (callIds entries) q s) ∧
      ∀ w s, Partial (stepOf model entries) model.init (Before entries) (callIds entries) w s →
        (k : ℤ) ∈ w → w.length ≤ q.length) ∧
    (longest[k]? = some none → ∀ w s,
      Partial (stepOf model entries) model.init (Before entries) (callIds entries) w s →
        (k : ℤ) ∉ w)

/-- Every beginning of a linearization has been matched by a configuration given up, so a sequence
as long has been noted for each of its operations. -/
theorem exists_longest_of_exhausted (hwf : WellFormed entries) (hequal : model.EqualSound)
    {t : MemoSearch.State (Config σ) (Cell ι ο)} {longest : Longest}
    (hrun : (problem model entries).Leads (problem model entries).initial t)
    (hhalt : (problem model entries).step t = none)
    (hacc : (problem model entries).accept t.top = false)
    (hlong : LongestOk model entries true longest t.finished) {w : List ℤ} {s : σ}
    (hw : Partial (stepOf model entries) model.init (Before entries) (callIds entries) w s) {k : ℕ}
    (hk : (k : ℤ) ∈ w) : ∃ q, longest[k]? = some (some q) ∧ w.length ≤ q.length := by
  obtain ⟨f, ⟨hids, -⟩, hf, -⟩ :=
    MemoSearch.exhausted graded_problem (simulation_problem hequal) hrun hhalt
    hacc ((hwf.reaches_iff s).mpr hw)
  have hkf : (k : ℤ) ∈ f.ids := by
    rw [← List.mem_toFinset, ← hids, List.mem_toFinset]
    exact hk
  obtain rfl | hf := hf
  · exact absurd hkf List.not_mem_nil
  · obtain ⟨q, hq, hle⟩ := hlong.complete rfl f hf k hkf
    refine ⟨q, hq, le_trans ?_ hle⟩
    calc w.length = w.toFinset.card := (List.toFinset_card_of_nodup hw.nodup).symm
      _ = f.ids.toFinset.card := congrArg Finset.card hids
      _ ≤ f.ids.length := List.toFinset_card_le _

theorem longestRight_of_exhausted (hwf : WellFormed entries) (hequal : model.EqualSound)
    {t : MemoSearch.State (Config σ) (Cell ι ο)} {longest : Longest}
    (hrun : (problem model entries).Leads (problem model entries).initial t)
    (hhalt : (problem model entries).step t = none)
    (hacc : (problem model entries).accept t.top = false)
    (hlong : LongestOk model entries true longest t.finished) :
    LongestRight model entries longest := by
  refine ⟨hlong.length, fun k hk => ⟨fun q hq => ?_, fun hnone w s hw hmem => ?_⟩⟩
  · obtain ⟨hmem, s, hreach⟩ := hlong.sound k q hq
    refine ⟨hmem, ⟨s, (hwf.reaches_iff s).mp hreach⟩, fun w s' hw hkw => ?_⟩
    obtain ⟨q', hq', hle⟩ := exists_longest_of_exhausted hwf hequal hrun hhalt hacc hlong hw hkw
    obtain rfl : q = q' := by simpa using hq.symm.trans hq'
    exact hle
  · obtain ⟨q, hq, -⟩ := exists_longest_of_exhausted hwf hequal hrun hhalt hacc hlong hw hmem
    rw [hnone] at hq
    cases hq

/-- What `checkSingle` reports with `computePartial`: a linearization, or if there is none, longest
beginnings of one. -/
theorem checkSingle_longest (hwf : WellFormed entries) (hequal : model.EqualSound) {fuel : ℕ}
    (hfuel : ((callIds entries).length + 2) ^ ((callIds entries).length + 1) ≤ fuel) :
    (∃ w, IsLinearization (stepOf model entries) model.init (Before entries) (callIds entries) w ∧
      checkSingle model entries true (fun _ => false) fuel =
        some (true, List.replicate (callIds entries).length (some w))) ∨
    (¬ LinearizableEntries model entries ∧
      ∃ longest, checkSingle model entries true (fun _ => false) fuel = some (false, longest) ∧
        LongestRight model entries longest) := by
  obtain ⟨t, longest, hrun, hhalt, hcheck, htrue, hfalse⟩ :=
    checkSingle_halts model hwf true hfuel
  cases hacc : (problem model entries).accept t.top with
  | true =>
    rw [hacc, htrue hacc] at hcheck
    exact .inl ⟨t.top.ids, isLinearization_of_accept hwf hrun hacc, hcheck⟩
  | false =>
    rw [hacc] at hcheck
    obtain ⟨ok, longest', hcheck', hok⟩ := checkSingle_spec hwf hequal true hfuel
    obtain ⟨rfl, rfl⟩ := Prod.mk.inj (Option.some.inj (hcheck'.symm.trans hcheck))
    exact .inr ⟨fun hlinear => Bool.false_ne_true (hok.mpr hlinear), longest', hcheck,
      longestRight_of_exhausted hwf hequal hrun hhalt hacc (hfalse hacc)⟩

/-- The history is linearizable, so a linearization is reported. -/
theorem checkSingle_longest_putAndGet : ∃ w,
    IsLinearization (stepOf (fillDefault kvModel) (makeEntries putAndGet)) ""
      (Before (makeEntries putAndGet)) (callIds (makeEntries putAndGet)) w ∧
    checkSingle (fillDefault kvModel) (makeEntries putAndGet) true (fun _ => false) 64 =
      some (true, List.replicate 2 (some w)) := by
  have hok : (checkSingle (fillDefault kvModel) (makeEntries putAndGet) true
      (fun _ => false) 64).map Prod.fst = some true := by decide +kernel
  have hfuel : ((callIds (makeEntries putAndGet)).length + 2) ^
      ((callIds (makeEntries putAndGet)).length + 1) ≤ 64 := by decide
  rcases checkSingle_longest ((sorts_makeEntries putAndGet).wellFormed (by decide))
    KvModel.equalSound hfuel with hyes | ⟨-, longest, hno, -⟩
  · exact hyes
  · rw [hno] at hok
    cases hok

end LogicRaft.Porcupine
