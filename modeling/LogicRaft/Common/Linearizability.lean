import Mathlib.Data.List.Dedup
import Mathlib.Data.List.Flatten
import Mathlib.Data.List.Nodup
import Mathlib.Data.List.Perm.Basic
import Mathlib.Data.List.Sort
import Mathlib.Order.Lattice

/-!
# Linearizability

A sequential object is a partial function `step : σ → ι → Option σ`: operation `a`, argument and
answer together, takes state `s` to `t` when `step s a = some t`, and is not allowed in `s`
otherwise. A history is a list `ops` of operations and a relation `before` that says which of them
had returned before another was called. It is linearizable when some order of its operations keeps
`before` and is allowed by the object from its initial state on.

Three facts are developed for it.

* `linearizable_iff_forall_key`: the operations of a family of objects, each operation on the object
  `key a`, are linearizable exactly when those on each object are. From a linearization of each
  object every operation gets a point in time between its call and its return, the latest call so
  far, and the operations sorted by their points are a linearization of the whole.
* `partial_concat`: the beginnings of linearizations are the sequences built one operation at a time
  from those that no remaining operation precedes, which is how a search enumerates them.
* `linearizable_of_positions`: operations that take effect at positions of one sequence of states
  are linearizable if the positions keep the order of the history.
-/

namespace LogicRaft.Linearizability

variable {ι κ σ T : Type*}

/-- State after the operations `w` in this order, if each of them is allowed where it stands. -/
def run (step : σ → ι → Option σ) : σ → List ι → Option σ
  | s, [] => some s
  | s, a :: w => (step s a).bind fun t => run step t w

section run

variable {step : σ → ι → Option σ} {s : σ}

@[simp] theorem run_nil : run step s [] = some s := rfl

@[simp] theorem run_cons (a : ι) (w : List ι) :
    run step s (a :: w) = (step s a).bind fun t => run step t w := rfl

theorem run_append (w v : List ι) :
    run step s (w ++ v) = (run step s w).bind fun t => run step t v := by
  induction w generalizing s with
  | nil => rfl
  | cons a w ih =>
    rw [List.cons_append, run_cons, run_cons, Option.bind_assoc]
    exact congrArg _ (funext fun t => ih)

theorem run_concat (step : σ → ι → Option σ) (w : List ι) (a : ι) :
    run step s (w ++ [a]) = (run step s w).bind fun t => step t a := by
  rw [run_append]
  congr 1
  funext t
  rw [run_cons]
  cases step t a <;> rfl

theorem run_map (f : κ → ι) (w : List κ) :
    run step s (w.map f) = run (fun s a => step s (f a)) s w := by
  induction w generalizing s with
  | nil => rfl
  | cons a w ih =>
    rw [List.map_cons, run_cons, run_cons]
    exact congrArg _ (funext fun t => ih)

theorem run_congr {step' : σ → ι → Option σ} {w : List ι} (h : ∀ a ∈ w, ∀ s, step s a = step' s a) :
    run step s w = run step' s w := by
  induction w generalizing s with
  | nil => rfl
  | cons a w ih =>
    rw [run_cons, run_cons, h a List.mem_cons_self s]
    exact congrArg _ (funext fun t => ih fun b hb => h b (List.mem_cons_of_mem a hb))

/-- Operations that leave a state as it is, as reads do, may come in any number. -/
theorem run_of_fixed {w : List ι} (h : ∀ a ∈ w, step s a = some s) : run step s w = some s := by
  induction w with
  | nil => rfl
  | cons a w ih =>
    rw [run_cons, h a List.mem_cons_self, Option.bind_some]
    exact ih fun b hb => h b (List.mem_cons_of_mem a hb)

end run

/-- `w` is a linearization of the operations `ops`: they stand in it in an order that keeps
`before`, and the object allows them in this order. -/
structure IsLinearization (step : σ → ι → Option σ) (init : σ) (before : ι → ι → Prop)
    (ops w : List ι) : Prop where
  perm : w.Perm ops
  order : w.Pairwise fun a b => ¬ before b a
  legal : (run step init w).isSome

def Linearizable (step : σ → ι → Option σ) (init : σ) (before : ι → ι → Prop) (ops : List ι) :
    Prop :=
  ∃ w, IsLinearization step init before ops w

section Transport

variable {step : σ → ι → Option σ} {init : σ} {before : ι → ι → Prop} {ops : List ι}

/-- Only the operations of the history matter, to the object and to the order. -/
theorem Linearizable.congr {step' : σ → ι → Option σ} {before' : ι → ι → Prop}
    (hstep : ∀ a ∈ ops, ∀ s, step s a = step' s a)
    (hbefore : ∀ a ∈ ops, ∀ b ∈ ops, before' a b → before a b)
    (h : Linearizable step init before ops) : Linearizable step' init before' ops := by
  obtain ⟨w, hperm, horder, hlegal⟩ := h
  have hmem : ∀ a ∈ w, a ∈ ops := fun a => hperm.mem_iff.mp
  refine ⟨w, hperm, ?_, ?_⟩
  · refine horder.imp_of_mem fun {a b} ha hb hab hba => hab ?_
    exact hbefore b (hmem b hb) a (hmem a ha) hba
  · rwa [← run_congr fun a ha => hstep a (hmem a ha)]

theorem Linearizable.of_perm {ops' : List ι} (hperm : ops.Perm ops')
    (h : Linearizable step init before ops) : Linearizable step init before ops' := by
  obtain ⟨w, hw, horder, hlegal⟩ := h
  exact ⟨w, hw.trans hperm, horder, hlegal⟩

/-- A rearrangement of `l.map f` comes from a rearrangement of `l`. -/
theorem exists_map_eq_of_perm (f : κ → ι) {l : List κ} {w : List ι} (h : w.Perm (l.map f)) :
    ∃ v : List κ, v.Perm l ∧ v.map f = w := by
  have hcomp : Relation.Comp (fun u v => u = List.map f v) List.Perm w l := by
    rw [List.eq_map_comp_perm]
    exact h
  obtain ⟨v, hv, hperm⟩ := hcomp
  exact ⟨v, hperm, hv.symm⟩

/-- Operations may be renamed. -/
theorem linearizable_map (step : σ → ι → Option σ) (init : σ) (before : ι → ι → Prop) (f : κ → ι)
    (l : List κ) :
    Linearizable step init before (l.map f) ↔
      Linearizable (fun s a => step s (f a)) init (fun a b => before (f a) (f b)) l := by
  constructor
  · rintro ⟨w, hperm, horder, hlegal⟩
    obtain ⟨v, hv, rfl⟩ := exists_map_eq_of_perm f hperm
    exact ⟨v, hv, List.pairwise_map.mp horder, by rwa [← run_map]⟩
  · rintro ⟨v, hv, horder, hlegal⟩
    exact ⟨v.map f, hv.map f, List.pairwise_map.mpr horder, by rwa [run_map]⟩

end Transport

/-! ## Beginnings of linearizations -/

/-- `w` begins a linearization of `ops` and leads to state `s`: it may be followed by the remaining
operations as far as `before` goes. -/
structure Partial (step : σ → ι → Option σ) (init : σ) (before : ι → ι → Prop) (ops w : List ι)
    (s : σ) : Prop where
  nodup : w.Nodup
  subset : w ⊆ ops
  order : w.Pairwise fun a b => ¬ before b a
  closed : ∀ a ∈ ops, a ∉ w → ∀ b ∈ w, ¬ before a b
  legal : run step init w = some s

/-- `a` may stand next after `w`: no other remaining operation precedes it. -/
structure Next (before : ι → ι → Prop) (ops w : List ι) (a : ι) : Prop where
  mem : a ∈ ops
  fresh : a ∉ w
  minimal : ∀ b ∈ ops, b ∉ w → b ≠ a → ¬ before b a

section Partial

variable {step : σ → ι → Option σ} {init s t : σ} {before : ι → ι → Prop} {ops w : List ι} {a : ι}

theorem partial_nil : Partial step init before ops [] init where
  nodup := List.nodup_nil
  subset := List.nil_subset ops
  order := List.Pairwise.nil
  closed := fun _ _ _ _ hb => absurd hb List.not_mem_nil
  legal := rfl

/-- The beginnings of linearizations grow by operations that may stand next. -/
theorem partial_concat :
    Partial step init before ops (w ++ [a]) t ↔
      ∃ s, Partial step init before ops w s ∧ Next before ops w a ∧ step s a = some t := by
  constructor
  · intro h
    obtain ⟨hw, -, hfresh⟩ := List.nodup_append.mp h.nodup
    obtain ⟨horder, -, hlast⟩ := List.pairwise_append.mp h.order
    have ha : a ∉ w := fun hmem => hfresh a hmem a (List.mem_singleton_self a) rfl
    obtain ⟨s, hs, hstep⟩ := Option.bind_eq_some_iff.mp (run_concat step w a ▸ h.legal)
    refine ⟨s, ⟨hw, ?_, horder, ?_, hs⟩, ⟨?_, ha, ?_⟩, hstep⟩
    · exact fun b hb => h.subset (List.mem_append_left [a] hb)
    · intro b hb hbw c hc
      by_cases hba : b = a
      · exact hba ▸ hlast c hc a (List.mem_singleton_self a)
      · exact h.closed b hb (by simp [hbw, hba]) c (List.mem_append_left [a] hc)
    · exact h.subset (by simp)
    · exact fun b hb hbw hba => h.closed b hb (by simp [hbw, hba]) a (by simp)
  · rintro ⟨s, h, hnext, hstep⟩
    refine ⟨?_, ?_, ?_, ?_, ?_⟩
    · exact List.nodup_append.mpr ⟨h.nodup, List.nodup_singleton a, fun b hb c hc => by
        obtain rfl := List.mem_singleton.mp hc
        exact fun heq => hnext.fresh (heq ▸ hb)⟩
    · exact List.append_subset.mpr ⟨h.subset, by simpa using hnext.mem⟩
    · refine List.pairwise_append.mpr ⟨h.order, List.pairwise_singleton _ _, ?_⟩
      intro b hb c hc
      obtain rfl := List.mem_singleton.mp hc
      exact h.closed c hnext.mem hnext.fresh b hb
    · intro b hb hbw c hc
      have hbw' : b ∉ w := fun h => hbw (List.mem_append_left [a] h)
      have hba : b ≠ a := fun h => hbw (by simp [h])
      obtain hc | hc := List.mem_append.mp hc
      · exact h.closed b hb hbw' c hc
      · obtain rfl := List.mem_singleton.mp hc
        exact hnext.minimal b hb hbw' hba
    · rw [run_concat, h.legal, Option.bind_some, hstep]

/-- A beginning that has all the operations is a linearization, and conversely. -/
theorem isLinearization_iff_partial (hops : ops.Nodup) :
    IsLinearization step init before ops w ↔
      ∃ s, Partial step init before ops w s ∧ ops ⊆ w := by
  constructor
  · rintro ⟨hperm, horder, hlegal⟩
    obtain ⟨s, hs⟩ := Option.isSome_iff_exists.mp hlegal
    refine ⟨s, ⟨hperm.nodup_iff.mpr hops, hperm.subset, horder, ?_, hs⟩, hperm.symm.subset⟩
    exact fun b hb hbw => absurd (hperm.mem_iff.mpr hb) hbw
  · rintro ⟨s, h, hall⟩
    refine ⟨?_, h.order, by rw [h.legal]; rfl⟩
    exact (List.perm_ext_iff_of_nodup h.nodup hops).mpr fun b =>
      ⟨fun hb => h.subset hb, fun hb => hall hb⟩

end Partial

/-! ## Many objects -/

section Locality

variable [DecidableEq κ]

/-- One object for each key: an operation acts on the object of its key and leaves the others. -/
def stepAt (step : σ → ι → Option σ) (key : ι → κ) (m : κ → σ) (a : ι) : Option (κ → σ) :=
  (step (m (key a)) a).map (Function.update m (key a))

/-- The operations on object `k`. -/
def ofKey (key : ι → κ) (k : κ) (w : List ι) : List ι := w.filter fun a => key a = k

variable {step : σ → ι → Option σ} {key : ι → κ}

/-- A sequence of operations is allowed exactly when each object allows its own. -/
theorem isSome_run_stepAt (m : κ → σ) (w : List ι) :
    (run (stepAt step key) m w).isSome ↔ ∀ k, (run step (m k) (ofKey key k w)).isSome := by
  induction w generalizing m with
  | nil => simp [ofKey]
  | cons a w ih =>
    rw [run_cons, stepAt]
    cases hstep : step (m (key a)) a with
    | none =>
      refine iff_of_false (by simp) fun h => ?_
      have hkey := h (key a)
      rw [ofKey, List.filter_cons_of_pos (by simp), run_cons, hstep] at hkey
      cases hkey
    | some t =>
      rw [Option.map_some, Option.bind_some, ih]
      refine forall_congr' fun k => ?_
      by_cases hk : key a = k
      · subst hk
        rw [Function.update_self, ofKey, ofKey, List.filter_cons_of_pos (by simp), run_cons, hstep,
          Option.bind_some]
      · rw [Function.update_of_ne (Ne.symm hk), ofKey, ofKey,
          List.filter_cons_of_neg (by simpa using hk)]

variable [LinearOrder T] {call ret : ι → T}

/-- Each operation of `w` with the latest time among `t` and the calls up to its own. -/
def stampFrom (call : ι → T) : T → List ι → List (T × ι)
  | _, [] => []
  | t, a :: w => (max t (call a), a) :: stampFrom call (max t (call a)) w

/-- Each operation of `w` with the latest call up to its own: its point in time. -/
def stamp (call : ι → T) : List ι → List (T × ι)
  | [] => []
  | a :: w => stampFrom call (call a) (a :: w)

theorem map_stampFrom (t : T) (w : List ι) : (stampFrom call t w).map Prod.snd = w := by
  induction w generalizing t with
  | nil => rfl
  | cons a w ih => rw [stampFrom, List.map_cons, ih]

theorem map_stamp (call : ι → T) (w : List ι) : (stamp call w).map Prod.snd = w := by
  cases w with
  | nil => rfl
  | cons a w => exact map_stampFrom (call a) (a :: w)

theorem le_of_mem_stampFrom {t : T} {w : List ι} {x : T × ι} (hx : x ∈ stampFrom call t w) :
    t ≤ x.1 ∧ call x.2 ≤ x.1 := by
  induction w generalizing t with
  | nil => cases hx
  | cons a w ih =>
    obtain rfl | hx := List.mem_cons.mp hx
    · exact ⟨le_max_left t (call a), le_max_right t (call a)⟩
    · obtain ⟨h₁, h₂⟩ := ih hx
      exact ⟨(le_max_left t (call a)).trans h₁, h₂⟩

theorem pairwise_stampFrom (t : T) (w : List ι) :
    (stampFrom call t w).Pairwise fun x y => x.1 ≤ y.1 := by
  induction w generalizing t with
  | nil => exact List.Pairwise.nil
  | cons a w ih => exact List.pairwise_cons.mpr ⟨fun x hx => (le_of_mem_stampFrom hx).1, ih _⟩

/-- In an order that keeps real time no point is later than the return. -/
theorem stampFrom_le_ret {t : T} {w : List ι} (ht : ∀ a ∈ w, t ≤ ret a)
    (hle : ∀ a ∈ w, call a ≤ ret a) (horder : w.Pairwise fun a b => ¬ ret b < call a)
    {x : T × ι} (hx : x ∈ stampFrom call t w) : x.1 ≤ ret x.2 := by
  induction w generalizing t with
  | nil => cases hx
  | cons a w ih =>
    obtain ⟨hlater, horder⟩ := List.pairwise_cons.mp horder
    obtain rfl | hx := List.mem_cons.mp hx
    · exact max_le (ht a List.mem_cons_self) (hle a List.mem_cons_self)
    · refine ih (fun b hb => ?_) (fun b hb => hle b (List.mem_cons_of_mem a hb)) horder hx
      exact max_le (ht b (List.mem_cons_of_mem a hb)) (not_lt.mp (hlater b hb))

/-- The points of an order that keeps real time: they do not decrease along it, and each lies
between the call and the return of its operation. -/
theorem stamp_points (call ret : ι → T) {w : List ι} (hle : ∀ a ∈ w, call a ≤ ret a)
    (horder : w.Pairwise fun a b => ¬ ret b < call a) :
    ((stamp call w).Pairwise fun x y => x.1 ≤ y.1) ∧
      ∀ x ∈ stamp call w, call x.2 ≤ x.1 ∧ x.1 ≤ ret x.2 := by
  cases w with
  | nil => exact ⟨List.Pairwise.nil, fun x hx => by cases hx⟩
  | cons a w =>
    refine ⟨pairwise_stampFrom _ _, fun x hx => ⟨(le_of_mem_stampFrom hx).2, ?_⟩⟩
    refine stampFrom_le_ret ?_ hle horder hx
    intro b hb
    obtain rfl | hb := List.mem_cons.mp hb
    · exact hle b List.mem_cons_self
    · exact not_lt.mp ((List.pairwise_cons.mp horder).1 b hb)

/-- Operations on the keys `keys`, in the order `lin k` for each of them, merged by their points. -/
def mergeByPoints (call : ι → T) (keys : List κ) (lin : κ → List ι) : List (T × ι) :=
  (keys.flatMap fun k => stamp call (lin k)).mergeSort fun x y => x.1 ≤ y.1

section Merge

variable {keys : List κ} {lin : κ → List ι}

omit [DecidableEq κ] in
theorem mergeByPoints_perm (call : ι → T) (keys : List κ) (lin : κ → List ι) :
    (mergeByPoints call keys lin).Perm (keys.flatMap fun k => stamp call (lin k)) :=
  List.mergeSort_perm _ _

omit [DecidableEq κ] in
theorem pairwise_mergeByPoints : (mergeByPoints call keys lin).Pairwise fun x y => x.1 ≤ y.1 := by
  have h := @List.pairwise_mergeSort _ (fun x y : T × ι => x.1 ≤ y.1)
    (fun a b c hab hbc => by simpa using le_trans (of_decide_eq_true hab) (of_decide_eq_true hbc))
    (fun a b => by simpa using le_total a.1 b.1) (keys.flatMap fun k => stamp call (lin k))
  exact h.imp fun h => of_decide_eq_true h

omit [DecidableEq κ] in
theorem exists_of_mem_mergeByPoints {x : T × ι} (hx : x ∈ mergeByPoints call keys lin) :
    ∃ k ∈ keys, x ∈ stamp call (lin k) ∧ x.2 ∈ lin k := by
  obtain ⟨k, hk, hx⟩ := List.mem_flatMap.mp ((mergeByPoints_perm call keys lin).mem_iff.mp hx)
  refine ⟨k, hk, hx, ?_⟩
  rw [← map_stamp call (lin k)]
  exact List.mem_map_of_mem hx

omit [LinearOrder T] in
/-- Before sorting, the operations of one key are its sequence. -/
theorem filter_flatMap_key (hkeys : keys.Nodup) {part : κ → List (T × ι)}
    (hkey : ∀ k, ∀ x ∈ part k, key x.2 = k) {k : κ} (hk : k ∈ keys) :
    (keys.flatMap part).filter (fun x => key x.2 = k) = part k := by
  have hself : (part k).filter (fun x => key x.2 = k) = part k :=
    List.filter_eq_self.mpr fun x hx => by simpa using hkey k x hx
  have hother : ∀ k' ≠ k, (part k').filter (fun x => key x.2 = k) = [] := by
    intro k' hne
    refine List.filter_eq_nil_iff.mpr fun x hx => ?_
    simpa [hkey k' x hx] using hne
  induction keys with
  | nil => cases hk
  | cons k' keys ih =>
    obtain ⟨hnot, hkeys⟩ := List.nodup_cons.mp hkeys
    rw [List.flatMap_cons, List.filter_append]
    by_cases hkk : k' = k
    · subst hkk
      have hrest : keys.flatMap (fun j => (part j).filter fun x => key x.2 = k') = [] :=
        List.flatMap_eq_nil_iff.mpr fun j hj => hother j fun heq => hnot (heq ▸ hj)
      rw [hself, List.filter_flatMap, hrest, List.append_nil]
    · rw [hother k' hkk, List.nil_append]
      exact ih hkeys ((List.mem_cons.mp hk).resolve_left (Ne.symm hkk))

/-- Sorting by points is stable, so the operations of each key stay in their order. -/
theorem ofKey_mergeByPoints (hkeys : keys.Nodup) (hkey : ∀ k, ∀ a ∈ lin k, key a = k)
    (hsorted : ∀ k, (stamp call (lin k)).Pairwise fun x y => x.1 ≤ y.1)
    (hnone : ∀ k, k ∉ keys → lin k = []) (k : κ) :
    ofKey key k ((mergeByPoints call keys lin).map Prod.snd) = lin k := by
  have hstamp : ∀ k, ∀ x ∈ stamp call (lin k), key x.2 = k := by
    intro k x hx
    refine hkey k x.2 ?_
    rw [← map_stamp call (lin k)]
    exact List.mem_map_of_mem hx
  rw [ofKey, List.filter_map]
  by_cases hk : k ∈ keys
  · have hflat := filter_flatMap_key hkeys hstamp hk
    have hsub : (stamp call (lin k)).Sublist (mergeByPoints call keys lin) := by
      refine List.sublist_mergeSort ?_ ?_ ?_ ?_
      · exact fun a b c hab hbc => by
          simpa using le_trans (of_decide_eq_true hab) (of_decide_eq_true hbc)
      · exact fun a b => by simpa using le_total a.1 b.1
      · exact (hsorted k).imp fun h => by simpa using h
      · exact hflat ▸ List.filter_sublist
    have hsub' := hsub.filter fun x => key x.2 = k
    rw [List.filter_eq_self.mpr fun x hx => by simpa using hstamp k x hx] at hsub'
    have hlen := (mergeByPoints_perm call keys lin).filter
      (fun x => key x.2 = k) |>.length_eq
    rw [hflat] at hlen
    exact (congrArg _ (hsub'.eq_of_length hlen.symm).symm).trans (map_stamp call (lin k))
  · rw [hnone k hk, List.map_eq_nil_iff, List.filter_eq_nil_iff]
    intro x hx
    obtain ⟨k', hk', -, hlin⟩ := exists_of_mem_mergeByPoints hx
    have hne : k' ≠ k := fun heq => hk (heq ▸ hk')
    simpa [hkey k' x.2 hlin] using hne

/-- The operations of all keys together are those of the history. -/
theorem flatMap_ofKey_perm (hkeys : keys.Nodup) (ops : List ι) :
    (keys.flatMap fun k => ofKey key k ops).Perm (ops.filter fun a => key a ∈ keys) := by
  induction keys with
  | nil => simp
  | cons k keys ih =>
    obtain ⟨hnot, hkeys⟩ := List.nodup_cons.mp hkeys
    have hsplit := List.filter_append_perm (fun a => key a = k)
      (ops.filter fun a => key a ∈ k :: keys)
    rw [List.filter_filter, List.filter_filter] at hsplit
    have hleft : ops.filter (fun a => decide (key a = k) && decide (key a ∈ k :: keys)) =
        ofKey key k ops :=
      List.filter_congr fun a _ => by by_cases h : key a = k <;> simp [h]
    have hright : ops.filter (fun a => (!decide (key a = k)) && decide (key a ∈ k :: keys)) =
        ops.filter fun a => key a ∈ keys :=
      List.filter_congr fun a _ => by
        by_cases h : key a = k
        · simp [h, hnot]
        · simp [h]
    rw [hleft, hright] at hsplit
    exact ((ih hkeys).append_left _).trans hsplit

end Merge

/-- **Locality.** Operations on a family of objects are linearizable exactly when the operations on
each object are: no order between operations on different objects has to be guessed. -/
theorem linearizable_iff_forall_key (step : σ → ι → Option σ) (key : ι → κ) (call ret : ι → T)
    (init : σ) {ops : List ι} (hle : ∀ a ∈ ops, call a ≤ ret a) :
    Linearizable (stepAt step key) (fun _ => init) (fun a b => ret a < call b) ops ↔
      ∀ k, Linearizable step init (fun a b => ret a < call b) (ofKey key k ops) := by
  constructor
  · rintro ⟨w, hperm, horder, hlegal⟩ k
    refine ⟨ofKey key k w, hperm.filter _, horder.filter _, ?_⟩
    exact (isSome_run_stepAt (fun _ => init) w).mp hlegal k
  · intro h
    choose lin hlin using h
    have hmem : ∀ k, ∀ a ∈ lin k, a ∈ ops ∧ key a = k := by
      intro k a ha
      have hof : a ∈ ofKey key k ops := (hlin k).perm.mem_iff.mp ha
      simpa [ofKey] using hof
    have hpoints := fun k =>
      stamp_points call ret (fun a ha => hle a (hmem k a ha).1) (hlin k).order
    have hnone : ∀ k, k ∉ (ops.map key).dedup → lin k = [] := by
      intro k hk
      refine List.eq_nil_iff_forall_not_mem.mpr fun a ha => hk ?_
      obtain ⟨hops, rfl⟩ := hmem k a ha
      exact List.mem_dedup.mpr (List.mem_map_of_mem hops)
    have hkeys : (ops.map key).dedup.Nodup := List.nodup_dedup _
    refine ⟨(mergeByPoints call (ops.map key).dedup lin).map Prod.snd, ?_, ?_, ?_⟩
    · -- the same operations: those of each key, put together
      have hlins : ((ops.map key).dedup.flatMap lin).Perm
          ((ops.map key).dedup.flatMap fun k => ofKey key k ops) :=
        List.Perm.flatMap_left _ fun k _ => (hlin k).perm
      have hall : ops.filter (fun a => key a ∈ (ops.map key).dedup) = ops :=
        List.filter_eq_self.mpr fun a ha => by simpa using ⟨a, ha, rfl⟩
      have hflat := (mergeByPoints_perm call (ops.map key).dedup lin).map
        Prod.snd
      rw [List.map_flatMap] at hflat
      simp only [map_stamp] at hflat
      have hperm := (hflat.trans hlins).trans (flatMap_ofKey_perm hkeys ops)
      rwa [hall] at hperm
    · -- real time: a point lies between call and return
      refine List.pairwise_map.mpr (pairwise_mergeByPoints.imp_of_mem fun {x y} hx hy hxy hlt => ?_)
      obtain ⟨k, -, hx, -⟩ := exists_of_mem_mergeByPoints hx
      obtain ⟨k', -, hy, -⟩ := exists_of_mem_mergeByPoints hy
      have hyret : y.1 ≤ ret y.2 := ((hpoints k').2 y hy).2
      have hxcall : call x.2 ≤ x.1 := ((hpoints k).2 x hx).1
      exact absurd (hxcall.trans (hxy.trans hyret)) (not_le.mpr hlt)
    · refine (isSome_run_stepAt (fun _ => init) _).mpr fun k => ?_
      rw [ofKey_mergeByPoints hkeys (fun k a ha => (hmem k a ha).2)
        (fun k => (hpoints k).1) hnone k]
      exact (hlin k).legal

end Locality

/-! ## Positions in a sequence of states -/

section Positions

variable {step : σ → ι → Option σ} {before : ι → ι → Prop} {ops : List ι} {state : ℕ → σ}
  {pos : ι → ℕ}

/-- The operations by their positions lead through the states. -/
theorem run_flatMap_ofKey {N : ℕ}
    (hlegal : ∀ k < N, run step (state k) (ofKey pos k ops) = some (state (k + 1))) :
    run step (state 0) ((List.range N).flatMap fun k => ofKey pos k ops) = some (state N) := by
  induction N with
  | zero => rfl
  | succ N ih =>
    rw [List.range_succ, List.flatMap_append, run_append, ih fun k hk => hlegal k (by omega),
      Option.bind_some, List.flatMap_singleton]
    exact hlegal N (Nat.lt_succ_self N)

variable (state pos) in
/-- **Positions.** Operations that take effect at positions of a sequence of states, those at
position `k` one after the other between the `k`-th state and the next, are linearizable if an
operation that returns before another is called has an earlier position. -/
theorem linearizable_of_positions {N : ℕ} (hlt : ∀ a ∈ ops, pos a < N)
    (horder : ∀ a ∈ ops, ∀ b ∈ ops, before a b → pos a < pos b)
    (hlegal : ∀ k < N, run step (state k) (ofKey pos k ops) = some (state (k + 1))) :
    Linearizable step (state 0) before ops := by
  have hmem : ∀ k, ∀ a ∈ ofKey pos k ops, a ∈ ops ∧ pos a = k := by
    intro k a ha
    simpa [ofKey] using ha
  refine ⟨(List.range N).flatMap fun k => ofKey pos k ops, ?_, ?_, ?_⟩
  · have hall : ops.filter (fun a => pos a ∈ List.range N) = ops :=
      List.filter_eq_self.mpr fun a ha => by simpa using hlt a ha
    have hperm : ((List.range N).flatMap fun k => ofKey pos k ops).Perm
        (ops.filter fun a => pos a ∈ List.range N) := flatMap_ofKey_perm List.nodup_range ops
    rwa [hall] at hperm
  · refine List.pairwise_flatMap.mpr ⟨fun k _ => ?_, ?_⟩
    · refine List.Pairwise.imp_of_mem ?_ (List.pairwise_of_forall fun _ _ => trivial)
      intro a b ha hb _ hba
      have := horder b (hmem k b hb).1 a (hmem k a ha).1 hba
      rw [(hmem k a ha).2, (hmem k b hb).2] at this
      exact Nat.lt_irrefl k this
    · refine List.pairwise_lt_range.imp fun {j k} hjk a ha b hb hba => ?_
      have := horder b (hmem k b hb).1 a (hmem j a ha).1 hba
      rw [(hmem j a ha).2, (hmem k b hb).2] at this
      omega
  · rw [run_flatMap_ofKey hlegal]
    rfl

end Positions

end LogicRaft.Linearizability
