import Mathlib.Data.List.Sort

/-!
# Slices

Arrays are shared: two slices of one array see each other's writes. `Heap β` is the list of the
arrays allocated so far, each as long as its capacity, and a slice that begins with its array is the
position of that array. Reading or writing through a slice that names no array is impossible and
modelled by `none`.

`append` writes into the array of its slice as long as there is room, so it is seen through every
other slice of that array; only a larger array is a new one.
-/

namespace LogicRaft

/-- The arrays that have been allocated. -/
abbrev Heap (β : Type*) : Type _ := List (List β)

namespace Heap

variable {β : Type*} {h h' : Heap β} {s dst src : ℕ} {xs ys : List β}

/-- `make([]T, len)`: a new array of zero values. -/
def make (h : Heap β) (zero : β) (len : ℕ) : Heap β × ℕ :=
  (h ++ [List.replicate len zero], h.length)

/-- `len(s)` -/
def len (h : Heap β) (s : ℕ) : Option ℕ := h[s]?.map List.length

/-- `s[i]`, `none` where it panics. -/
def read (h : Heap β) (s i : ℕ) : Option β := h[s]?.bind fun xs => xs[i]?

/-- `copy(dst, src)`: as many elements as both have room for. -/
def copy (h : Heap β) (dst src : ℕ) : Option (Heap β) :=
  h[src]?.bind fun xs => h[dst]?.map fun ys => h.set dst (xs.take ys.length ++ ys.drop xs.length)

/-- A new array that begins with `xs`; the runtime chooses how long it is. -/
def alloc (h : Heap β) (zero : β) (xs : List β) (cap : ℕ) : Heap β × ℕ :=
  (h ++ [xs ++ List.replicate (cap - xs.length) zero], h.length)

/-- `append(s[:i], xs...)`, and the array that has the result. In place, what lies behind the new
elements stays. -/
def append (h : Heap β) (zero : β) (s i : ℕ) (xs : List β) (cap : ℕ) : Option (Heap β × ℕ) :=
  h[s]?.map fun ys =>
    if i + xs.length ≤ ys.length then (h.set s (ys.take i ++ xs ++ ys.drop (i + xs.length)), s)
    else h.alloc zero (ys.take i ++ xs) cap

/-- A sort in place. An ascending order of given elements is unique, so any sorting algorithm leaves
the same array. -/
def sort [LinearOrder β] (h : Heap β) (s : ℕ) : Option (Heap β) :=
  h[s]?.map fun xs => h.set s (xs.insertionSort (· ≤ ·))

/-- The arrays of `h` are as they were; there may be more. -/
def Keeps (h h' : Heap β) : Prop := ∀ s < h.length, h'[s]? = h[s]?

theorem getElem?_make_self (h : Heap β) (zero : β) (len : ℕ) :
    (h.make zero len).1[(h.make zero len).2]? = some (List.replicate len zero) := by
  simp [make]

theorem keeps_make (h : Heap β) (zero : β) (len : ℕ) : h.Keeps (h.make zero len).1 :=
  fun _ hs => List.getElem?_append_left hs

theorem keeps_alloc (h : Heap β) (zero : β) (xs : List β) (cap : ℕ) :
    h.Keeps (h.alloc zero xs cap).1 :=
  fun _ hs => List.getElem?_append_left hs

theorem getElem?_alloc_self (h : Heap β) (zero : β) (xs : List β) (cap : ℕ) :
    (h.alloc zero xs cap).1[(h.alloc zero xs cap).2]? =
      some (xs ++ List.replicate (cap - xs.length) zero) := by
  simp [alloc]

/-- The result lies at the start of the array of the slice or of a new one; other arrays are not
touched. -/
theorem append_spec {zero : β} {i cap s' : ℕ} (h₁ : h.append zero s i xs cap = some (h', s'))
    (hs : h[s]? = some ys) :
    (s' = s ∨ s' = h.length) ∧ (∀ r ≠ s, r < h.length → h'[r]? = h[r]?) ∧
      ∃ zs, h'[s']? = some (ys.take i ++ xs ++ zs) := by
  rw [append, hs, Option.map_some, Option.some.injEq] at h₁
  split at h₁
  · obtain ⟨rfl, rfl⟩ := Prod.mk.inj h₁
    refine ⟨Or.inl rfl, fun r hr _ => List.getElem?_set_ne (Ne.symm hr),
      ys.drop (i + xs.length), ?_⟩
    exact List.getElem?_set_self (List.getElem?_eq_some_iff.mp hs).1
  · obtain ⟨rfl, rfl⟩ := Prod.mk.inj h₁
    exact ⟨Or.inr rfl, fun r _ hr => h.keeps_alloc _ _ _ r hr, _, h.getElem?_alloc_self _ _ _⟩

/-- Copying onto an array of the same length. -/
theorem copy_of_length_eq (hsrc : h[src]? = some xs) (hdst : h[dst]? = some ys)
    (hlen : ys.length = xs.length) : h.copy dst src = some (h.set dst xs) := by
  simp only [copy, hsrc, hdst, Option.bind_some, Option.map_some]
  rw [hlen, List.take_length, ← hlen, List.drop_length, List.append_nil]

theorem sort_of_getElem? [LinearOrder β] (hs : h[s]? = some xs) :
    h.sort s = some (h.set s (xs.insertionSort (· ≤ ·))) := by
  rw [sort, hs, Option.map_some]

/-- Writing to an array allocated later keeps the earlier ones. -/
theorem Keeps.set (hk : h.Keeps h') (hs : h.length ≤ s) : h.Keeps (h'.set s xs) := by
  intro r hr
  rw [List.getElem?_set_ne (by omega)]
  exact hk r hr

theorem getElem?_set_self_of (hs : h[s]? = some xs) : (h.set s ys)[s]? = some ys :=
  List.getElem?_set_self (List.getElem?_eq_some_iff.mp hs).1

end Heap

end LogicRaft
