import Mathlib.Data.List.Nodup
import Mathlib.Logic.Function.Basic

/-!
# Taking cells out of a doubly linked list and putting them back

`Links` are the two pointers of each cell. `Seg L p l q` says that the cells `l` are linked in this
order, between `p` and `q`. `unlink` takes a cell out by changing its neighbours' pointers only; the
cell keeps its own, so `relink` finds the neighbours again and restores the links exactly
(`relink_unlink`), provided everything done in between has been undone.
-/

namespace LogicRaft

variable {α : Type*}

/-- The two pointers of each cell. -/
@[ext]
structure Links (α : Type*) where
  next : α → Option α
  prev : α → Option α

namespace Links

/-- The cells `l` are linked in this order, after `p` and before `q`. -/
def Seg (L : Links α) : Option α → List α → Option α → Prop
  | _, [], _ => True
  | p, a :: l, q => L.prev a = p ∧ L.next a = l.head?.or q ∧ Seg L (some a) l q

section Seg

variable {L L' : Links α} {p q : Option α} {A C : List α} {a b : α}

@[simp] theorem seg_nil : L.Seg p [] q := trivial

@[simp] theorem seg_cons :
    L.Seg p (a :: C) q ↔ L.prev a = p ∧ L.next a = C.head?.or q ∧ L.Seg (some a) C q := Iff.rfl

theorem seg_append :
    L.Seg p (A ++ C) q ↔ L.Seg p A (C.head?.or q) ∧ L.Seg (A.getLast?.or p) C q := by
  induction A generalizing p with
  | nil => simp
  | cons b A ih =>
    have hhead : (A ++ C).head?.or q = A.head?.or (C.head?.or q) := by
      rw [List.head?_append, Option.or_assoc]
    have hlast : (b :: A).getLast?.or p = A.getLast?.or (some b) := by
      cases A with
      | nil => rfl
      | cons c A => simp [List.getLast?_cons]
    rw [List.cons_append, seg_cons, seg_cons, ih, hhead, hlast]
    tauto

/-- A segment depends on the pointers of its own cells only. -/
theorem Seg.congr (hnext : ∀ x ∈ A, L'.next x = L.next x) (hprev : ∀ x ∈ A, L'.prev x = L.prev x)
    (h : L.Seg p A q) : L'.Seg p A q := by
  induction A generalizing p with
  | nil => trivial
  | cons b A ih =>
    obtain ⟨hb, hb', hrest⟩ := h
    refine ⟨(hprev b List.mem_cons_self).trans hb, (hnext b List.mem_cons_self).trans hb', ?_⟩
    exact ih (fun x hx => hnext x (List.mem_cons_of_mem b hx))
      (fun x hx => hprev x (List.mem_cons_of_mem b hx)) hrest

/-- Neighbours of a cell in the middle of a list. -/
theorem seg_middle : L.Seg p (A ++ a :: C) q ↔
    L.Seg p A (some a) ∧ L.prev a = A.getLast?.or p ∧ L.next a = C.head?.or q ∧
    L.Seg (some a) C q := by
  rw [seg_append, seg_cons]
  rfl

end Seg

variable [DecidableEq α]

def setNext (L : Links α) (a : α) (v : Option α) : Links α :=
  { L with next := Function.update L.next a v }

def setPrev (L : Links α) (a : α) (v : Option α) : Links α :=
  { L with prev := Function.update L.prev a v }

/-- Take `a` out: its neighbours point to each other. -/
def unlink (L : Links α) (a : α) : Links α :=
  let L₁ := (L.prev a).elim L fun p => L.setNext p (L.next a)
  (L.next a).elim L₁ fun b => L₁.setPrev b (L.prev a)

/-- Put `a` back between the cells its own pointers name. -/
def relink (L : Links α) (a : α) : Links α :=
  let L₁ := (L.prev a).elim L fun p => L.setNext p (some a)
  (L.next a).elim L₁ fun b => L₁.setPrev b (some a)

section Pointers

variable (L : Links α) (a b : α) (v : Option α)

@[simp] theorem setNext_next_self : (L.setNext a v).next a = v := Function.update_self ..

@[simp] theorem setPrev_prev_self : (L.setPrev a v).prev a = v := Function.update_self ..

@[simp] theorem setNext_prev : (L.setNext a v).prev = L.prev := rfl

@[simp] theorem setPrev_next : (L.setPrev a v).next = L.next := rfl

variable {a b}

theorem setNext_next_of_ne (h : b ≠ a) : (L.setNext a v).next b = L.next b :=
  Function.update_of_ne h ..

theorem setPrev_prev_of_ne (h : b ≠ a) : (L.setPrev a v).prev b = L.prev b :=
  Function.update_of_ne h ..

@[simp] theorem setNext_self : L.setNext a (L.next a) = L := by simp [setNext]

@[simp] theorem setPrev_self : L.setPrev a (L.prev a) = L := by simp [setPrev]

@[simp] theorem setNext_setNext (u : Option α) : (L.setNext a u).setNext a v = L.setNext a v := by
  simp [setNext]

@[simp] theorem setPrev_setPrev (u : Option α) : (L.setPrev a u).setPrev a v = L.setPrev a v := by
  simp [setPrev]

theorem setPrev_setNext_comm (u : Option α) :
    (L.setPrev a u).setNext b v = (L.setNext b v).setPrev a u := rfl

end Pointers

section Unlink

variable {L : Links α} {p : α} {A C : List α} {a : α}

/-- What `unlink` does to a cell `a` that follows `p`, when no cell follows `a`. -/
theorem unlink_last (hprev : L.prev a = some p) (hnext : L.next a = none) :
    L.unlink a = L.setNext p none := by
  simp [unlink, hprev, hnext]

/-- What `unlink` does to a cell `a` between `p` and `b`. -/
theorem unlink_between {b : α} (hprev : L.prev a = some p) (hnext : L.next a = some b) :
    L.unlink a = (L.setNext p (some b)).setPrev b (some p) := by
  simp [unlink, hprev, hnext]

theorem relink_last (hprev : L.prev a = some p) (hnext : L.next a = none) :
    L.relink a = L.setNext p (some a) := by
  simp [relink, hprev, hnext]

theorem relink_between {b : α} (hprev : L.prev a = some p) (hnext : L.next a = some b) :
    L.relink a = (L.setNext p (some a)).setPrev b (some a) := by
  simp [relink, hprev, hnext]

/-- The rest of the list without `a` is linked. -/
theorem Seg.unlink (h : L.Seg none (A ++ p :: a :: C) none) (hnodup : (A ++ p :: a :: C).Nodup) :
    (L.unlink a).Seg none (A ++ p :: C) none := by
  obtain ⟨hA, hpp, hpn, hap, han, hC⟩ := seg_middle.mp h
  have hdisj := List.nodup_append.mp hnodup
  have hpA : p ∉ A := fun hx => hdisj.2.2 p hx p List.mem_cons_self rfl
  have hpC : p ∉ C := fun hx => (List.nodup_cons.mp hdisj.2.1).1 (List.mem_cons_of_mem a hx)
  have hne : ∀ x ∈ A, x ≠ p := fun x hx heq => hpA (heq ▸ hx)
  cases C with
  | nil =>
    rw [unlink_last hap han]
    refine seg_middle.mpr ⟨?_, hpp, setNext_next_self .., trivial⟩
    exact hA.congr (fun x hx => setNext_next_of_ne _ _ (hne x hx)) fun _ _ => rfl
  | cons b C =>
    have hbA : ∀ x ∈ A, x ≠ b := by
      intro x hx heq
      exact hdisj.2.2 x hx b (by simp) heq
    have hbp : b ≠ p := fun heq => hpC (heq ▸ List.mem_cons_self)
    have hCb : ∀ x ∈ C, x ≠ b := by
      intro x hx heq
      have hnd := (List.nodup_cons.mp (List.nodup_cons.mp hdisj.2.1).2).2
      exact (List.nodup_cons.mp hnd).1 (heq ▸ hx)
    have hCp : ∀ x ∈ C, x ≠ p := fun x hx heq => hpC (heq ▸ List.mem_cons_of_mem b hx)
    obtain ⟨-, hbn, hC⟩ := hC
    rw [unlink_between hap (by simpa using han)]
    refine seg_middle.mpr ⟨hA.congr (fun x hx => ?_) (fun x hx => ?_), ?_, ?_, ?_, ?_, hC.congr
      (fun x hx => ?_) (fun x hx => ?_)⟩
    · exact setNext_next_of_ne _ _ (hne x hx)
    · exact setPrev_prev_of_ne _ _ (hbA x hx)
    · exact (setPrev_prev_of_ne _ _ (Ne.symm hbp)).trans hpp
    · exact setNext_next_self ..
    · exact setPrev_prev_self ..
    · exact (setNext_next_of_ne _ _ hbp).trans hbn
    · exact setNext_next_of_ne _ _ (hCp x hx)
    · exact setPrev_prev_of_ne _ _ (hCb x hx)

/-- Taking a cell out does not change the cell's own pointers. -/
theorem unlink_own (h : L.Seg none (A ++ p :: a :: C) none) (hnodup : (A ++ p :: a :: C).Nodup) :
    (L.unlink a).prev a = L.prev a ∧ (L.unlink a).next a = L.next a := by
  obtain ⟨-, -, -, hap, han, -⟩ := seg_middle.mp h
  have htail := List.nodup_cons.mp (List.nodup_append.mp hnodup).2.1
  have hpa : a ≠ p := fun heq => htail.1 (heq ▸ List.mem_cons_self)
  cases C with
  | nil =>
    rw [unlink_last hap han]
    exact ⟨rfl, setNext_next_of_ne _ _ hpa⟩
  | cons b C =>
    have hab : a ≠ b := fun heq => (List.nodup_cons.mp htail.2).1 (heq ▸ List.mem_cons_self)
    rw [unlink_between hap (by simpa using han)]
    exact ⟨setPrev_prev_of_ne _ _ hab, setNext_next_of_ne _ _ hpa⟩

/-- Putting the cell back restores the links exactly. -/
theorem relink_unlink (h : L.Seg none (A ++ p :: a :: C) none) (hnodup : (A ++ p :: a :: C).Nodup) :
    (L.unlink a).relink a = L := by
  obtain ⟨hprev, hnext⟩ := unlink_own h hnodup
  obtain ⟨-, -, hpn, hap, han, hC⟩ := seg_middle.mp h
  cases C with
  | nil =>
    rw [relink_last (hprev.trans hap) (hnext.trans han), unlink_last hap han, setNext_setNext]
    exact (congrArg (L.setNext p) hpn).symm.trans (L.setNext_self)
  | cons b C =>
    have han : L.next a = some b := han
    have hbp : L.prev b = some a := hC.1
    have hpn : L.next p = some a := hpn
    rw [relink_between (hprev.trans hap) (hnext.trans han), unlink_between hap han,
      setPrev_setNext_comm, setNext_setNext, setPrev_setPrev]
    calc (L.setNext p (some a)).setPrev b (some a)
      _ = L.setPrev b (some a) := by rw [← hpn, setNext_self]
      _ = L := by rw [← hbp, setPrev_self]

end Unlink

end Links

end LogicRaft
