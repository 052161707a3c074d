import Mathlib.Data.List.Basic

/-!
# Lists that only grow

A log that is only ever appended to is a prefix of all its later versions: what stands at a place
stays there. The lemmas say this for the ways in which the places of a list are looked at.
-/

namespace LogicRaft

variable {α β : Type*} {l l' : List α}

theorem getElem?_of_grown (hpre : l <+: l') {k : ℕ} {a : α} (h : l[k]? = some a) :
    l'[k]? = some a := by
  obtain ⟨hlt, rfl⟩ := List.getElem?_eq_some_iff.mp h
  exact List.prefix_iff_getElem?.mp hpre k hlt

theorem take_of_grown (hpre : l <+: l') {k : ℕ} (hk : k ≤ l.length) : l'.take k = l.take k := by
  obtain ⟨tail, rfl⟩ := hpre
  exact List.take_append_of_le_length hk

/-- Every place but the last of a list that has grown by one is an old one. -/
theorem getElem?_concat_cases {k : ℕ} {a b : α} (h : (l ++ [a])[k]? = some b) :
    l[k]? = some b ∨ (k = l.length ∧ b = a) := by
  rcases Nat.lt_trichotomy k l.length with hlt | rfl | hgt
  · rw [List.getElem?_append_left hlt] at h
    exact Or.inl h
  · rw [List.getElem?_concat_length] at h
    exact Or.inr ⟨rfl, (Option.some.inj h).symm⟩
  · have := (List.getElem?_eq_some_iff.mp h).1
    rw [List.length_append, List.length_singleton] at this
    omega

/-- If nothing is dropped, every place keeps its own. -/
theorem getElem?_filterMap_of_isSome {f : α → Option β} (h : ∀ a ∈ l, (f a).isSome = true) (k : ℕ) :
    (l.filterMap f)[k]? = l[k]?.bind f := by
  induction l generalizing k with
  | nil => rfl
  | cons a l ih =>
    obtain ⟨b, hb⟩ := Option.isSome_iff_exists.mp (h a (List.mem_cons_self ..))
    have hrest := ih fun c hc => h c (List.mem_cons_of_mem _ hc)
    rw [List.filterMap_cons_some hb]
    cases k with
    | zero => exact hb.symm
    | succ k => exact hrest k

end LogicRaft
