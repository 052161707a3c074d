import LogicRaft.Common.GrowingLists
import Mathlib.Data.List.Induction
import Mathlib.Data.Nat.Find
import Mathlib.Order.Lattice

/-!
# Requests that come more than once

Clients number their requests, and a request may come again at any distance. `firstCopies` keeps the
first copy of every request. A server that remembers only the highest number of each client cannot
tell a repeated request from an overtaken one, but if the first copies of a client come in the order
of their numbers there are no overtaken ones: then a request is a repeated copy exactly if its
number is not above all earlier numbers of its client (`repeated_iff`).
-/

namespace LogicRaft

namespace FirstCopies

variable {ι κ σ : Type*} [DecidableEq κ] [LinearOrder σ] (who : ι → κ) (seq : ι → σ)

/-- Two copies of one request. -/
def Copies (a b : ι) : Prop := who a = who b ∧ seq a = seq b

instance (a b : ι) : Decidable (Copies who seq a b) := inferInstanceAs (Decidable (_ ∧ _))

/-- The first copy of every request, in the order in which they come. -/
def firstCopies (l : List ι) : List ι :=
  l.foldl (fun acc a => if ∃ b ∈ acc, Copies who seq a b then acc else acc ++ [a]) []

/-- The element at position `i` is `a`, and no copy of it comes before. -/
def IsFirst (l : List ι) (i : ℕ) (a : ι) : Prop :=
  l[i]? = some a ∧ ∀ j b, j < i → l[j]? = some b → ¬ Copies who seq a b

/-- The first copies of every client come in the order of their numbers. -/
def InOrder (l : List ι) : Prop :=
  ∀ i j a b, IsFirst who seq l i a → IsFirst who seq l j b → who a = who b → seq a < seq b → i < j

instance [DecidableEq ι] (l : List ι) (i : ℕ) (a : ι) : Decidable (IsFirst who seq l i a) :=
  decidable_of_iff (l[i]? = some a ∧ ∀ j : Fin l.length, j < i → ¬ Copies who seq a l[j]) <| by
    refine and_congr_right fun _ => ⟨fun h j b hj hb => ?_, fun h j hj => h j _ hj (by simp)⟩
    obtain ⟨hlt, rfl⟩ := List.getElem?_eq_some_iff.mp hb
    exact h ⟨j, hlt⟩ hj

instance [DecidableEq ι] (l : List ι) : Decidable (InOrder who seq l) :=
  decidable_of_iff (∀ i j : Fin l.length, IsFirst who seq l i l[i] → IsFirst who seq l j l[j] →
      who l[i] = who l[j] → seq l[i] < seq l[j] → i < j) <| by
    refine ⟨fun h i j a b ha hb => ?_, fun h i j ha hb => h i j _ _ ha hb⟩
    obtain ⟨hi, rfl⟩ := List.getElem?_eq_some_iff.mp ha.1
    obtain ⟨hj, rfl⟩ := List.getElem?_eq_some_iff.mp hb.1
    exact h ⟨i, hi⟩ ⟨j, hj⟩ ha hb

variable {who seq} {l : List ι} {a : ι}

omit [DecidableEq κ] [LinearOrder σ] in
theorem Copies.trans {a b c : ι} (h : Copies who seq a b) (h' : Copies who seq b c) :
    Copies who seq a c := ⟨h.1.trans h'.1, h.2.trans h'.2⟩

/-! ## First copies -/

variable (who seq) in
omit [DecidableEq κ] [LinearOrder σ] in
/-- Every request has a first copy. -/
theorem exists_isFirst (h : a ∈ l) : ∃ i b, IsFirst who seq l i b ∧ Copies who seq a b := by
  have hex : ∃ i : ℕ, ∃ b, l[i]? = some b ∧ Copies who seq a b := by
    obtain ⟨i, hi⟩ := List.mem_iff_getElem?.mp h
    exact ⟨i, a, hi, rfl, rfl⟩
  classical
  obtain ⟨b, hb, hcopies⟩ := Nat.find_spec hex
  refine ⟨Nat.find hex, b, ⟨hb, fun j c hj hc hbc => ?_⟩, hcopies⟩
  exact Nat.find_min hex hj ⟨c, hc, hcopies.trans hbc⟩

omit [DecidableEq κ] [LinearOrder σ] in
theorem IsFirst.append {i : ℕ} (h : IsFirst who seq l i a) (l' : List ι) :
    IsFirst who seq (l ++ l') i a := by
  have hlt : i < l.length := (List.getElem?_eq_some_iff.mp h.1).1
  refine ⟨by rw [List.getElem?_append_left hlt, h.1], fun j b hj hb => h.2 j b hj ?_⟩
  rwa [List.getElem?_append_left (Nat.lt_trans hj hlt)] at hb

omit [DecidableEq κ] in
theorem InOrder.of_append {l' : List ι} (h : InOrder who seq (l ++ l')) : InOrder who seq l :=
  fun i j a b ha hb => h i j a b (ha.append l') (hb.append l')

omit [DecidableEq κ] in
/-- Requests stay in order as long as one overtaken by a higher number is a repeated copy. -/
theorem InOrder.concat (h : InOrder who seq l)
    (hnew : ∀ b ∈ l, who b = who a → seq a < seq b → ∃ c ∈ l, Copies who seq a c) :
    InOrder who seq (l ++ [a]) := by
  -- a first copy in the longer list is one in `l`, or it is `a` itself
  have hcases : ∀ i b, IsFirst who seq (l ++ [a]) i b →
      IsFirst who seq l i b ∨ (i = l.length ∧ b = a ∧ ∀ c ∈ l, ¬ Copies who seq a c) := by
    intro i b hb
    have hpre := List.prefix_append l [a]
    rcases getElem?_concat_cases hb.1 with hold | ⟨rfl, rfl⟩
    · exact Or.inl ⟨hold, fun j c hj hc => hb.2 j c hj (getElem?_of_grown hpre hc)⟩
    · refine Or.inr ⟨rfl, rfl, fun c hc => ?_⟩
      obtain ⟨j, hj, rfl⟩ := List.mem_iff_getElem.mp hc
      exact hb.2 j _ hj (getElem?_of_grown hpre (List.getElem?_eq_getElem hj))
  intro i j b c hb hc hwho hseq
  rcases hcases i b hb with hb' | ⟨rfl, rfl, hfresh⟩ <;>
    rcases hcases j c hc with hc' | ⟨rfl, rfl, -⟩
  · exact h i j b c hb' hc' hwho hseq
  · exact (List.getElem?_eq_some_iff.mp hb'.1).1
  · obtain ⟨x, hx, hcopies⟩ := hnew c (List.mem_of_getElem? hc'.1) hwho.symm hseq
    exact absurd hcopies (hfresh x hx)
  · exact absurd hseq (lt_irrefl _)

omit [DecidableEq κ] in
/-- A request is a repeated copy exactly if its client has sent its number or a higher one. -/
theorem repeated_iff (h : InOrder who seq (l ++ [a])) :
    (∃ b ∈ l, Copies who seq a b) ↔ ∃ b ∈ l, who b = who a ∧ seq a ≤ seq b := by
  constructor
  · rintro ⟨b, hb, hcopies⟩
    exact ⟨b, hb, hcopies.1.symm, le_of_eq hcopies.2⟩
  · rintro ⟨b, hb, hwho, hseq⟩
    by_contra hnew
    -- then `a` is a first copy, and so is one with a higher number before it
    have hfirst : IsFirst who seq (l ++ [a]) l.length a := by
      refine ⟨by simp, fun j c hj hc hcopies => hnew ⟨c, ?_, hcopies⟩⟩
      rw [List.getElem?_append_left hj] at hc
      exact List.mem_of_getElem? hc
    obtain ⟨i, c, hc, hcopies⟩ := exists_isFirst who seq hb
    have hi : i < l.length := (List.getElem?_eq_some_iff.mp hc.1).1
    rcases hseq.lt_or_eq with hlt | heq
    · have hlate := h l.length i a c hfirst (hc.append [a]) (hwho.symm.trans hcopies.1)
        (hcopies.2 ▸ hlt)
      omega
    · exact hnew ⟨b, hb, hwho.symm, heq⟩

/-! ## The list of first copies -/

theorem firstCopies_concat (l : List ι) (a : ι) :
    firstCopies who seq (l ++ [a]) =
      if ∃ b ∈ firstCopies who seq l, Copies who seq a b then firstCopies who seq l
      else firstCopies who seq l ++ [a] := by
  rw [firstCopies, List.foldl_append, List.foldl_cons, List.foldl_nil, ← firstCopies]

/-- The first copies stand for all requests. -/
theorem exists_mem_firstCopies_iff (l : List ι) (a : ι) :
    (∃ b ∈ firstCopies who seq l, Copies who seq a b) ↔ ∃ b ∈ l, Copies who seq a b := by
  induction l using List.reverseRecOn generalizing a with
  | nil => rfl
  | append_singleton l c ih =>
    rw [firstCopies_concat]
    split
    case isTrue hc =>
      rw [ih]
      refine ⟨fun ⟨b, hb, hab⟩ => ⟨b, List.mem_append_left _ hb, hab⟩, fun ⟨b, hb, hab⟩ => ?_⟩
      rcases List.mem_append.mp hb with hb | hb
      · exact ⟨b, hb, hab⟩
      · rw [List.mem_singleton.mp hb] at hab
        obtain ⟨d, hd, hcd⟩ := (ih c).mp hc
        exact ⟨d, hd, hab.trans hcd⟩
    case isFalse =>
      simp only [List.mem_append, List.mem_singleton, or_and_right, exists_or, ih]

/-- A repeated request is dropped, a new one is added at the end. -/
theorem firstCopies_append (l : List ι) (a : ι) :
    firstCopies who seq (l ++ [a]) =
      if ∃ b ∈ l, Copies who seq a b then firstCopies who seq l
      else firstCopies who seq l ++ [a] := by
  rw [firstCopies_concat]
  simp only [exists_mem_firstCopies_iff]

theorem firstCopies_sublist (l : List ι) : (firstCopies who seq l).Sublist l := by
  induction l using List.reverseRecOn with
  | nil => exact List.Sublist.refl _
  | append_singleton l a ih =>
    rw [firstCopies_append]
    split
    · exact ih.trans (List.sublist_append_left _ _)
    · exact ih.append (List.Sublist.refl _)

/-- No request is kept twice. -/
theorem pairwise_firstCopies (l : List ι) :
    (firstCopies who seq l).Pairwise fun a b => ¬ Copies who seq b a := by
  induction l using List.reverseRecOn with
  | nil => exact List.Pairwise.nil
  | append_singleton l a ih =>
    rw [firstCopies_append]
    split
    · exact ih
    case isFalse hnew =>
      refine List.pairwise_append.mpr ⟨ih, List.pairwise_singleton _ _, fun b hb c hc hcopies => ?_⟩
      rw [List.mem_singleton.mp hc] at hcopies
      exact hnew ⟨b, (firstCopies_sublist l).subset hb, hcopies⟩

end FirstCopies

end LogicRaft
