import Mathlib.Data.Fintype.Card
import Mathlib.Data.Fintype.Basic
import Mathlib.Data.List.Sort
import Mathlib.Data.List.FinRange
import Mathlib.Data.List.GetD
import Mathlib.Order.Bounds.Basic

/-!
# Majorities

More than half of the members of a finite group. Two majorities share a member, and the lower
median of the members' values is a value that a majority has reached.
-/

namespace LogicRaft

variable {ι : Type*} [Fintype ι] {P Q : ι → Prop}

/-- More than half of all members satisfy `P`. -/
def Majority (P : ι → Prop) : Prop :=
  ∃ V : Finset ι, Fintype.card ι / 2 < V.card ∧ ∀ q ∈ V, P q

theorem Majority.mono (h : Majority P) (himp : ∀ q, P q → Q q) : Majority Q := by
  obtain ⟨V, hcard, hV⟩ := h
  exact ⟨V, hcard, fun q hq => himp q (hV q hq)⟩

/-- Two majorities share a member. -/
theorem Majority.exists_both (hP : Majority P) (hQ : Majority Q) : ∃ q, P q ∧ Q q := by
  classical
  obtain ⟨V, hV, hVP⟩ := hP
  obtain ⟨W, hW, hWQ⟩ := hQ
  have hunion : (V ∪ W).card ≤ Fintype.card ι := Finset.card_le_univ _
  have hsum := Finset.card_union_add_card_inter V W
  have hinter : 0 < (V ∩ W).card := by omega
  obtain ⟨q, hq⟩ := Finset.card_pos.mp hinter
  obtain ⟨hqV, hqW⟩ := Finset.mem_inter.mp hq
  exact ⟨q, hVP q hqV, hWQ q hqW⟩

/-! ## The median of the members' values -/

/-- Counting in the list of values is counting members. -/
theorem countP_ofFn {n : ℕ} {β : Type*} (f : Fin n → β) (p : β → Prop) [DecidablePred p] :
    (List.ofFn f).countP (fun x => decide (p x)) = (Finset.univ.filter fun q => p (f q)).card := by
  rw [List.ofFn_eq_map, List.countP_map, Finset.card_def, Finset.filter_val, Fin.univ_def,
    Multiset.filter_coe, Multiset.coe_card, List.countP_eq_length_filter]
  rfl

/-- In a sorted list, every entry from position `k` on is at least the entry at `k`. -/
theorem length_sub_le_countP {β : Type*} [LinearOrder β] {l : List β} (hl : l.Pairwise (· ≤ ·))
    {k : ℕ} (hk : k < l.length) : l.length - k ≤ l.countP (fun x => decide (l[k] ≤ x)) := by
  have hall : ∀ x ∈ l.drop k, decide (l[k] ≤ x) = true := by
    intro x hx
    obtain ⟨j, hj, rfl⟩ := List.getElem_of_mem hx
    rw [List.getElem_drop, decide_eq_true_eq]
    rw [List.length_drop] at hj
    rcases Nat.eq_zero_or_pos j with rfl | hpos
    · exact le_of_eq (by simp)
    · exact List.pairwise_iff_getElem.mp hl k (k + j) hk (by omega) (by omega)
  have hdrop : (l.drop k).countP (fun x => decide (l[k] ≤ x)) = l.length - k := by
    rw [List.countP_eq_length.mpr hall, List.length_drop]
  rw [← hdrop]
  exact (List.drop_sublist k l).countP_le

/-- A majority has reached the entry at `(n - 1) / 2` of the sorted values. -/
theorem majority_ge_median {n : ℕ} {β : Type*} [LinearOrder β] (f : Fin n → β) (d : β)
    (hn : 0 < n) :
    Majority fun q => ((List.ofFn f).insertionSort (· ≤ ·)).getD ((n - 1) / 2) d ≤ f q := by
  set l := (List.ofFn f).insertionSort (· ≤ ·)
  have hperm : l.Perm (List.ofFn f) := List.perm_insertionSort _ _
  have hlen : l.length = n := by rw [hperm.length_eq, List.length_ofFn]
  have hk : (n - 1) / 2 < l.length := by omega
  have hsorted : l.Pairwise (· ≤ ·) := List.pairwise_insertionSort _ _
  have hcount := length_sub_le_countP hsorted hk
  rw [hperm.countP_eq, countP_ofFn] at hcount
  refine ⟨Finset.univ.filter fun q => l[(n - 1) / 2] ≤ f q, ?_, fun q hq => ?_⟩
  · rw [Fintype.card_fin]
    omega
  · rw [List.getD_eq_getElem _ _ hk]
    exact (Finset.mem_filter.mp hq).2

/-- In a sorted list, what exceeds the entry at `k` stands after it. -/
theorem countP_le_length_sub {β : Type*} [LinearOrder β] {l : List β} (hl : l.Pairwise (· ≤ ·))
    {k : ℕ} (hk : k < l.length) {v : β} (hv : l[k] < v) :
    l.countP (fun x => decide (v ≤ x)) ≤ l.length - (k + 1) := by
  have hnone : (l.take (k + 1)).countP (fun x => decide (v ≤ x)) = 0 := by
    refine List.countP_eq_zero.mpr fun x hx => ?_
    obtain ⟨j, hj, rfl⟩ := List.getElem_of_mem hx
    rw [List.length_take] at hj
    rw [List.getElem_take, decide_eq_true_eq, not_le]
    rcases Nat.lt_or_eq_of_le (show j ≤ k by omega) with hlt | rfl
    · exact lt_of_le_of_lt (List.pairwise_iff_getElem.mp hl j k (by omega) hk hlt) hv
    · exact hv
  calc l.countP (fun x => decide (v ≤ x))
      = (l.drop (k + 1)).countP (fun x => decide (v ≤ x)) := by
        conv_lhs => rw [← List.take_append_drop (k + 1) l]
        rw [List.countP_append, hnone, Nat.zero_add]
    _ ≤ (l.drop (k + 1)).length := List.countP_le_length
    _ = l.length - (k + 1) := List.length_drop

/-- The entry at `(n - 1) / 2` of a sorted list is the largest value that more than half of the
entries have reached. -/
theorem isGreatest_median {β : Type*} [LinearOrder β] {l : List β} (hl : l.Pairwise (· ≤ ·))
    (hpos : 0 < l.length) :
    IsGreatest {v : β | l.length < 2 * l.countP fun x => decide (v ≤ x)}
      (l.get ⟨(l.length - 1) / 2, by omega⟩) := by
  have hk : (l.length - 1) / 2 < l.length := by omega
  constructor
  · have hcount := length_sub_le_countP hl hk
    simp only [Set.mem_ofPred_eq, List.get_eq_getElem]
    omega
  · intro v hv
    by_contra hlt
    have hfew := countP_le_length_sub hl hk (not_le.mp hlt)
    rw [Set.mem_ofPred_eq] at hv
    omega

/-- What a majority has reached, the entry at `(n - 1) / 2` of the sorted values has reached. -/
theorem le_median_of_majority {n : ℕ} {β : Type*} [LinearOrder β] {f : Fin n → β} {v : β} (d : β)
    (h : Majority fun q => v ≤ f q) :
    v ≤ ((List.ofFn f).insertionSort (· ≤ ·)).getD ((n - 1) / 2) d := by
  obtain ⟨V, hcard, hV⟩ := h
  set l := (List.ofFn f).insertionSort (· ≤ ·)
  have hperm : l.Perm (List.ofFn f) := List.perm_insertionSort _ _
  have hlen : l.length = n := by rw [hperm.length_eq, List.length_ofFn]
  have hle : V.card ≤ (Finset.univ.filter fun q => v ≤ f q).card := by
    refine Finset.card_le_card fun q hq => ?_
    rw [Finset.mem_filter]
    exact ⟨Finset.mem_univ q, hV q hq⟩
  have hcount := Finset.card_le_univ V
  rw [Fintype.card_fin] at hcard hcount
  have hk : (n - 1) / 2 < l.length := by omega
  rw [List.getD_eq_getElem _ _ hk]
  by_contra hlt
  have hsorted : l.Pairwise (· ≤ ·) := List.pairwise_insertionSort _ _
  have hfew := countP_le_length_sub hsorted hk (not_le.mp hlt)
  rw [hperm.countP_eq, countP_ofFn] at hfew
  omega

/-- Two groups of values that differ only up to `c` have the same median, or both medians are at
most `c`. -/
theorem median_eq_or_le {n : ℕ} {β : Type*} [LinearOrder β] {f g : Fin n → β} {c : β} (d : β)
    (hn : 0 < n) (h : ∀ q, f q = g q ∨ (f q ≤ c ∧ g q ≤ c)) :
    ((List.ofFn f).insertionSort (· ≤ ·)).getD ((n - 1) / 2) d =
        ((List.ofFn g).insertionSort (· ≤ ·)).getD ((n - 1) / 2) d ∨
      (((List.ofFn f).insertionSort (· ≤ ·)).getD ((n - 1) / 2) d ≤ c ∧
        ((List.ofFn g).insertionSort (· ≤ ·)).getD ((n - 1) / 2) d ≤ c) := by
  -- a median above `c` has been reached on the other side as well
  have hle : ∀ {f g : Fin n → β}, (∀ q, f q = g q ∨ (f q ≤ c ∧ g q ≤ c)) →
      c < ((List.ofFn f).insertionSort (· ≤ ·)).getD ((n - 1) / 2) d →
      ((List.ofFn f).insertionSort (· ≤ ·)).getD ((n - 1) / 2) d ≤
        ((List.ofFn g).insertionSort (· ≤ ·)).getD ((n - 1) / 2) d := by
    intro f g h hlt
    refine le_median_of_majority d ((majority_ge_median f d hn).mono fun q hq => ?_)
    rcases h q with heq | ⟨hf, -⟩
    · rwa [← heq]
    · exact absurd (hlt.trans_le hq) (not_lt.mpr hf)
  have hsymm : ∀ q, g q = f q ∨ (g q ≤ c ∧ f q ≤ c) := fun q => (h q).imp Eq.symm And.symm
  rcases le_or_gt (((List.ofFn f).insertionSort (· ≤ ·)).getD ((n - 1) / 2) d) c with hf | hf
  · rcases le_or_gt (((List.ofFn g).insertionSort (· ≤ ·)).getD ((n - 1) / 2) d) c with hg | hg
    · exact Or.inr ⟨hf, hg⟩
    · exact absurd ((hg.trans_le (hle hsymm hg)).trans_le hf) (lt_irrefl c)
  · exact Or.inl (le_antisymm (hle h hf) (hle hsymm (hf.trans_le (hle h hf))))

end LogicRaft
