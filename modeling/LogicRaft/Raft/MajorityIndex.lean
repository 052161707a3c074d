import Mathlib.Algebra.Order.Field.Rat
import Mathlib.Order.Bounds.Basic
import Mathlib.Tactic.Linarith
import LogicRaft.Common.Majority
import LogicRaft.Common.Slices
import LogicRaft.Raft.Replication

/-!
# The majority index (`getMajorityIndexLocked` of `raft_replication.go`)

`Raft.getMajorityIndexLocked` reads the match indices as values. The source works on slices: it
allocates `tmpIndexes`, copies `rf.matchIndex` into it, sorts it in place and reads the element at
`(len - 1) / 2`. `Heap.getMajorityIndexLocked` is that function, over arbitrary integers. Its result
is the largest value that more than half of the entries have reached, whether their number is odd or
even, and the sort does not reach the array of `rf.matchIndex`.
-/

namespace LogicRaft

/-- `getMajorityIndexLocked` on the slice `matchIndex`; `none` where it panics. -/
def Heap.getMajorityIndexLocked (h : Heap ℤ) (matchIndex : ℕ) : Option (Heap ℤ × ℤ) := do
  let len ← h.len matchIndex
  let (h, tmpIndexes) := h.make 0 len
  let h ← h.copy tmpIndexes matchIndex
  let h ← h.sort tmpIndexes
  let len ← h.len tmpIndexes
  let majorityIdx := (len - 1) / 2
  let majority ← h.read tmpIndexes majorityIdx
  return (h, majority)

namespace Heap

variable {h h' : Heap ℤ} {matchIndex : ℕ} {xs : List ℤ} {v : ℤ}

/-- The function sorts a copy and reads its lower median. -/
theorem getMajorityIndexLocked_eq (hxs : h[matchIndex]? = some xs) :
    ∃ h', h.Keeps h' ∧ h.getMajorityIndexLocked matchIndex =
      ((xs.insertionSort (· ≤ ·))[(xs.length - 1) / 2]?).map fun v => (h', v) := by
  have hlt : matchIndex < h.length := (List.getElem?_eq_some_iff.mp hxs).1
  set h₁ : Heap ℤ := (h.make 0 xs.length).1
  set tmp := (h.make 0 xs.length).2 with htmp
  have hle : h.length ≤ tmp := Nat.le_refl _
  have htmp₁ : h₁[tmp]? = some (List.replicate xs.length 0) := h.getElem?_make_self 0 xs.length
  have hcopy : h₁.copy tmp matchIndex = some (h₁.set tmp xs) := by
    refine copy_of_length_eq ?_ htmp₁ List.length_replicate
    rw [h.keeps_make 0 xs.length matchIndex hlt, hxs]
  set h₂ : Heap ℤ := h₁.set tmp xs
  have hsort : h₂.sort tmp = some (h₂.set tmp (xs.insertionSort (· ≤ ·))) :=
    sort_of_getElem? (getElem?_set_self_of htmp₁)
  set h₃ : Heap ℤ := h₂.set tmp (xs.insertionSort (· ≤ ·))
  have htmp₃ : h₃[tmp]? = some (xs.insertionSort (· ≤ ·)) :=
    getElem?_set_self_of (getElem?_set_self_of htmp₁)
  refine ⟨h₃, ((h.keeps_make 0 xs.length).set hle).set hle, ?_⟩
  have hlen : h.len matchIndex = some xs.length := by rw [len, hxs, Option.map_some]
  have hlen₃ : h₃.len tmp = some xs.length := by
    rw [len, htmp₃, Option.map_some, List.length_insertionSort]
  simp only [getMajorityIndexLocked, hlen, Option.bind_eq_bind, Option.bind_some]
  rw [← htmp, hcopy, Option.bind_some, hsort, Option.bind_some, hlen₃, Option.bind_some, read,
    htmp₃, Option.bind_some]
  exact (Option.map_eq_bind ..).symm

/-- The result is the largest value that more than half of the entries have reached, and the match
indices are as they were. -/
theorem getMajorityIndexLocked_isGreatest (hxs : h[matchIndex]? = some xs) (hne : xs ≠ []) :
    ∃ h' v, h.getMajorityIndexLocked matchIndex = some (h', v) ∧
      IsGreatest {w : ℤ | (xs.length : ℚ) / 2 < xs.countP fun x => decide (w ≤ x)} v ∧
      h'[matchIndex]? = some xs := by
  obtain ⟨h', hkeeps, heq⟩ := getMajorityIndexLocked_eq hxs
  have hperm : (xs.insertionSort (· ≤ ·)).Perm xs := List.perm_insertionSort _ _
  have hsorted : (xs.insertionSort (· ≤ ·)).Pairwise (· ≤ ·) := List.pairwise_insertionSort _ _
  have hpos : 0 < (xs.insertionSort (· ≤ ·)).length := by
    rw [hperm.length_eq]
    exact List.length_pos_iff.mpr hne
  have hgreatest := isGreatest_median hsorted hpos
  simp only [hperm.length_eq, hperm.countP_eq] at hgreatest
  have hhalf : ∀ w : ℤ, (xs.length : ℚ) / 2 < (xs.countP fun x => decide (w ≤ x)) ↔
      xs.length < 2 * xs.countP fun x => decide (w ≤ x) := by
    intro w
    rw [div_lt_iff₀ (by norm_num), mul_comm]
    exact_mod_cast Iff.rfl
  refine ⟨h', _, ?_, by simpa only [hhalf] using hgreatest, ?_⟩
  · rw [heq, List.getElem?_eq_getElem (by rw [hperm.length_eq] at hpos ⊢; omega), Option.map_some,
      List.get_eq_getElem]
  · rw [hkeeps matchIndex (List.getElem?_eq_some_iff.mp hxs).1, hxs]

/-- Four peers: two of them are not a majority, so the value that only half have reached is not
the result. -/
theorem getMajorityIndexLocked_isGreatest_four :
    ∃ h' v, getMajorityIndexLocked [[5, 2, 5, 3]] 0 = some (h', v) ∧
      IsGreatest {w : ℤ | (([5, 2, 5, 3] : List ℤ).length : ℚ) / 2 <
        ([5, 2, 5, 3] : List ℤ).countP fun x => decide (w ≤ x)} v ∧
      h'[0]? = some [5, 2, 5, 3] :=
  getMajorityIndexLocked_isGreatest rfl (by decide)

/-- On a peer's match indices, stored in a slice, the function computes
`Raft.getMajorityIndexLocked`. -/
theorem getMajorityIndexLocked_ofFn {n : ℕ} {α : Type} {rf : Raft n α} (hn : 0 < n)
    (hxs : h[matchIndex]? = some ((List.ofFn rf.matchIndex).map Nat.cast)) :
    ∃ h', h.getMajorityIndexLocked matchIndex = some (h', (rf.getMajorityIndexLocked : ℤ)) := by
  obtain ⟨h', -, heq⟩ := getMajorityIndexLocked_eq hxs
  refine ⟨h', ?_⟩
  have hsort : ((List.ofFn rf.matchIndex).map (Nat.cast : ℕ → ℤ)).insertionSort (· ≤ ·) =
      ((List.ofFn rf.matchIndex).insertionSort (· ≤ ·)).map Nat.cast :=
    (List.map_insertionSort _ _ _ _ fun a _ b _ => by simp).symm
  have hk : (n - 1) / 2 < ((List.ofFn rf.matchIndex).insertionSort (· ≤ ·)).length := by
    rw [List.length_insertionSort, List.length_ofFn]
    omega
  rw [heq, hsort, List.length_map, List.length_ofFn, List.getElem?_map,
    List.getElem?_eq_getElem hk, Raft.getMajorityIndexLocked, List.getD_eq_getElem _ _ hk]
  rfl

end Heap

end LogicRaft
