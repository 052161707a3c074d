import Mathlib.Data.Finmap
import Mathlib.Data.List.Sort
import LogicRaft.Common.Codec

/-!
# Codecs for strings and finite maps

A finite map has no order of its own, so it is written as the list of its entries in the order of
their keys. `Multiset.sort` would give that list too, but it is a merge sort and does not evaluate
in the kernel; insertion sort does.
-/

namespace LogicRaft

namespace Codec

/-- Characters as their code points. -/
def char : Codec Char :=
  nat.map Char.toNat (fun k => some (Char.ofNat k)) (by simp)

/-- Strings as lists of characters. -/
def string : Codec String :=
  char.list.map String.toList (fun cs => some (String.ofList cs)) (by simp)

section Finmap

variable {κ ν : Type*} [LinearOrder κ]

/-- The elements of a multiset in increasing order. -/
def increasing (s : Multiset κ) : List κ :=
  Quot.liftOn s (List.insertionSort (· ≤ ·)) fun l l' h => by
    have hperm : List.Perm (l.insertionSort (· ≤ ·)) (l'.insertionSort (· ≤ ·)) :=
      (List.perm_insertionSort _ l).trans (h.trans (List.perm_insertionSort _ l').symm)
    exact hperm.eq_of_pairwise' (List.pairwise_insertionSort _ l) (List.pairwise_insertionSort _ l')

theorem mem_increasing {s : Multiset κ} {k : κ} : k ∈ increasing s ↔ k ∈ s := by
  induction s using Quot.inductionOn with
  | h l => exact (List.perm_insertionSort _ l).mem_iff

/-- The entries of a map in the order of their keys. -/
def entries (m : Finmap fun _ : κ => ν) : List (κ × ν) :=
  (increasing m.keys.val).filterMap fun k => (m.lookup k).map (k, ·)

/-- The map with these entries; the first entry of a key counts. -/
def ofEntries (l : List (κ × ν)) : Finmap fun _ : κ => ν :=
  (l.map fun x => (⟨x.1, x.2⟩ : Σ _ : κ, ν)).toFinmap

theorem lookup_ofEntries_filterMap (m : Finmap fun _ : κ => ν) (k : κ) (ks : List κ) :
    (ofEntries (ks.filterMap fun k => (m.lookup k).map (k, ·))).lookup k =
      if k ∈ ks then m.lookup k else none := by
  rw [ofEntries, Finmap.dlookup_list_toFinmap]
  induction ks with
  | nil => rfl
  | cons a ks ih =>
    cases ha : m.lookup a with
    | none =>
      rw [List.filterMap_cons_none (by rw [ha]; rfl), ih]
      by_cases hk : k = a
      · subst hk
        simp [ha]
      · simp [hk]
    | some v =>
      rw [List.filterMap_cons_some (by rw [ha]; rfl), List.map_cons]
      by_cases hk : k = a
      · subst hk
        simp [ha]
      · rw [List.dlookup_cons_ne _ _ hk, ih]
        simp [hk]

theorem ofEntries_entries (m : Finmap fun _ : κ => ν) : ofEntries (entries m) = m := by
  apply Finmap.ext_lookup
  intro k
  rw [entries, lookup_ofEntries_filterMap]
  split
  case isTrue => rfl
  case isFalse hk =>
    rw [mem_increasing, Finset.mem_val, Finmap.mem_keys] at hk
    exact (Finmap.lookup_eq_none.mpr hk).symm

/-- Finite maps as their entries. -/
def finmap (c : Codec κ) (d : Codec ν) : Codec (Finmap fun _ : κ => ν) :=
  (c.prod d).list.map entries (fun l => some (ofEntries l)) fun m => by rw [ofEntries_entries]

end Finmap

end Codec

end LogicRaft
