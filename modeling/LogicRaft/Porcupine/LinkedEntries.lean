import LogicRaft.Common.DancingLinks
import LogicRaft.Porcupine.Model

/-!
# The linked list of entries

`checker.go` searches a doubly linked list of nodes from which it lifts the call and the return of
an operation, to put them back when it backtracks. The nodes live in a heap `Nodes`, an address is
an index into it, and reading or writing through a nil pointer is `none`.

`Cells` are the entries of a history with their addresses. `Rep` says that a heap holds the list of
some of them after the head node: the fields the search never changes are those `makeLinkedEntries`
gave them, and the pointers link them in order (`Links.Seg`). The three results are that
`makeLinkedEntries` and the insertion of the head node represent the whole history (`rep_initial`),
that `lift` takes out exactly the two cells of an operation, and that `unlift` then restores the
heap (`Rep.lift`).
-/

namespace LogicRaft.Porcupine

variable {ι ο σ : Type}

structure Node (ι ο : Type) where
  value : Value ι ο
  /-- `match`, the node of the return of a call. -/
  matching : Option ℕ
  id : ℤ
  next : Option ℕ := none
  prev : Option ℕ := none
deriving DecidableEq

/-- The nodes allocated so far; an address is an index. -/
abbrev Nodes (ι ο : Type) := List (Node ι ο)

/-! ## The functions of the source -/

namespace Nodes

/-- `n.next`. -/
def next (h : Nodes ι ο) (n : ℕ) : Option (Option ℕ) := h[n]?.map Node.next

/-- `n.prev`. -/
def prev (h : Nodes ι ο) (n : ℕ) : Option (Option ℕ) := h[n]?.map Node.prev

/-- `n.match`, which is not nil. -/
def matching (h : Nodes ι ο) (n : ℕ) : Option ℕ := h[n]?.bind Node.matching

/-- `n.next = v`. -/
def setNext (h : Nodes ι ο) (n : ℕ) (v : Option ℕ) : Option (Nodes ι ο) :=
  h[n]?.map fun node => h.set n { node with next := v }

/-- `n.prev = v`. -/
def setPrev (h : Nodes ι ο) (n : ℕ) (v : Option ℕ) : Option (Nodes ι ο) :=
  h[n]?.map fun node => h.set n { node with prev := v }

/-- `n.prev.next = v`. -/
def setPrevNext (h : Nodes ι ο) (n : ℕ) (v : Option ℕ) : Option (Nodes ι ο) := do
  let p ← h.prev n
  h.setNext (← p) v

/-- `n.next.prev = v`. -/
def setNextPrev (h : Nodes ι ο) (n : ℕ) (v : Option ℕ) : Option (Nodes ι ο) := do
  let b ← h.next n
  h.setPrev (← b) v

/-- `if n.next != nil { n.next.prev = v }`. -/
def setNextPrevIfAny (h : Nodes ι ο) (n : ℕ) (v : Option ℕ) : Option (Nodes ι ο) := do
  if (← h.next n) ≠ none then h.setNextPrev n v else some h

/-- `insertBefore(n, mark)`; the node it returns is `n`. -/
def insertBefore (h : Nodes ι ο) (n : ℕ) (mark : Option ℕ) : Option (Nodes ι ο) :=
  match mark with
  | none => some h
  | some m => do
    let beforeMark ← h.prev m
    let h ← h.setPrev m (some n)
    let h ← h.setNext n (some m)
    match beforeMark with
    | none => some h
    | some b => do
      let h ← h.setPrev n (some b)
      h.setNext b (some n)

/-- `length(n)`; the loop has as many turns as there are nodes, and a longer list is cyclic. -/
def lengthFrom (h : Nodes ι ο) : ℕ → Option ℕ → Option ℕ
  | _, none => some 0
  | 0, some _ => none
  | fuel + 1, some n => do
    let l ← lengthFrom h fuel (← h.next n)
    some (l + 1)

def lift (h : Nodes ι ο) (entry : ℕ) : Option (Nodes ι ο) := do
  let h ← h.setPrevNext entry (← h.next entry)
  let h ← h.setNextPrev entry (← h.prev entry)
  let m ← h.matching entry
  let h ← h.setPrevNext m (← h.next m)
  h.setNextPrevIfAny m (← h.prev m)

def unlift (h : Nodes ι ο) (entry : ℕ) : Option (Nodes ι ο) := do
  let m ← h.matching entry
  let h ← h.setPrevNext m (some m)
  let h ← h.setNextPrevIfAny m (some m)
  let h ← h.setPrevNext entry (some entry)
  h.setNextPrev entry (some entry)

end Nodes

/-- Variables of the loop of `makeLinkedEntries`. -/
structure Linking (ι ο : Type) where
  nodes : Nodes ι ο
  root : Option ℕ
  /-- `match`, the node of the return of each operation seen so far. -/
  matchOf : Finmap fun _ : ℤ => ℕ

/-- One turn of the loop. -/
def linkEntry (st : Linking ι ο) (elem : Entry ι ο) : Option (Linking ι ο) :=
  let entry := st.nodes.length
  match elem.kind with
  | .returnEntry => do
    let nodes := st.nodes ++ [{ value := elem.value, matching := none, id := elem.id }]
    let nodes ← nodes.insertBefore entry st.root
    some { nodes := nodes, root := some entry, matchOf := st.matchOf.insert elem.id entry }
  | .callEntry => do
    let nodes := st.nodes ++
      [{ value := elem.value, matching := st.matchOf.lookup elem.id, id := elem.id }]
    let nodes ← nodes.insertBefore entry st.root
    some { nodes := nodes, root := some entry, matchOf := st.matchOf }

/-- The loop from the last entry to the first. -/
def linkEntries : List (Entry ι ο) → Option (Linking ι ο)
  | [] => some { nodes := [], root := none, matchOf := ∅ }
  | elem :: entries => (linkEntries entries).bind fun st => linkEntry st elem

/-- `makeLinkedEntries`: the nodes and the first of them. -/
def makeLinkedEntries (entries : List (Entry ι ο)) : Option (Nodes ι ο × Option ℕ) :=
  (linkEntries entries).map fun st => (st.nodes, st.root)

/-! ## Pointers of a heap -/

namespace Nodes

def links (h : Nodes ι ο) : Links ℕ where
  next a := h[a]?.bind Node.next
  prev a := h[a]?.bind Node.prev

/-- A node without its pointers to the neighbours. -/
def strip (node : Node ι ο) : Node ι ο := { node with next := none, prev := none }

/-- The part of the heap that lifting does not change. -/
def fixed (h : Nodes ι ο) : Nodes ι ο := h.map strip

variable {h h' : Nodes ι ο} {a : ℕ}

theorem length_fixed (h : Nodes ι ο) : h.fixed.length = h.length := List.length_map _

theorem length_eq_of_fixed (hf : h'.fixed = h.fixed) : h'.length = h.length := by
  rw [← length_fixed h', hf, length_fixed]

/-- A heap is determined by its fixed part and its pointers. -/
theorem ext_links (hfixed : h.fixed = h'.fixed) (hlinks : h.links = h'.links) : h = h' := by
  refine List.ext_getElem (length_eq_of_fixed hfixed) fun a ha ha' => ?_
  have hnext : h[a].next = h'[a].next := by
    simpa [links, ha, ha'] using congrFun (congrArg Links.next hlinks) a
  have hprev : h[a].prev = h'[a].prev := by
    simpa [links, ha, ha'] using congrFun (congrArg Links.prev hlinks) a
  have hstrip : strip h[a] = strip h'[a] := by
    have := congrArg (fun l : Nodes ι ο => l[a]?) hfixed
    simpa [fixed, ha, ha'] using this
  generalize h[a] = n at *
  generalize h'[a] = n' at *
  cases n
  cases n'
  simp only [strip, Node.mk.injEq] at hstrip hnext hprev ⊢
  exact ⟨hstrip.1, hstrip.2.1, hstrip.2.2.1, hnext, hprev⟩

theorem next_spec (ha : a < h.length) : h.next a = some (h.links.next a) := by
  simp [next, links, ha]

theorem prev_spec (ha : a < h.length) : h.prev a = some (h.links.prev a) := by
  simp [prev, links, ha]

theorem matching_fixed (h : Nodes ι ο) (a : ℕ) : h.fixed.matching a = h.matching a := by
  unfold matching fixed
  rw [List.getElem?_map]
  cases h[a]? <;> rfl

/-- Writing pointers into the node at `a`. -/
theorem set_spec (ha : a < h.length) (node : Node ι ο) (hstrip : strip node = strip h[a]) :
    links (h.set a node) = (h.links.setNext a node.next).setPrev a node.prev ∧
      fixed (h.set a node) = h.fixed := by
  constructor
  · ext1
    · funext b
      by_cases hb : b = a
      · subst hb
        simp [links, Links.setNext, Links.setPrev, ha]
      · simp [links, Links.setNext, Links.setPrev, hb, List.getElem?_set_ne (Ne.symm hb)]
    · funext b
      by_cases hb : b = a
      · subst hb
        simp [links, Links.setPrev, ha]
      · simp [links, Links.setNext, Links.setPrev, hb, List.getElem?_set_ne (Ne.symm hb)]
  · refine List.ext_getElem? fun b => ?_
    by_cases hb : b = a
    · subst hb
      simp [fixed, ha, hstrip]
    · simp [fixed, List.getElem?_set_ne (Ne.symm hb)]

theorem setNext_spec (ha : a < h.length) (v : Option ℕ) :
    ∃ h', h.setNext a v = some h' ∧ h'.links = h.links.setNext a v ∧ h'.fixed = h.fixed := by
  obtain ⟨hlinks, hfixed⟩ := set_spec ha { h[a] with next := v } rfl
  refine ⟨_, by simp [setNext, ha], ?_, hfixed⟩
  have hprev : h[a].prev = (h.links.setNext a v).prev a := by simp [links, ha]
  exact hlinks.trans (by rw [hprev, Links.setPrev_self])

theorem setPrev_spec (ha : a < h.length) (v : Option ℕ) :
    ∃ h', h.setPrev a v = some h' ∧ h'.links = h.links.setPrev a v ∧ h'.fixed = h.fixed := by
  obtain ⟨hlinks, hfixed⟩ := set_spec ha { h[a] with prev := v } rfl
  refine ⟨_, by simp [setPrev, ha], ?_, hfixed⟩
  have hnext : h[a].next = h.links.next a := by simp [links, ha]
  exact hlinks.trans (by rw [hnext, Links.setNext_self])

theorem setPrevNext_spec {p : ℕ} (ha : a < h.length) (hp : p < h.length)
    (hprev : h.links.prev a = some p) (v : Option ℕ) :
    ∃ h', h.setPrevNext a v = some h' ∧ h'.links = h.links.setNext p v ∧ h'.fixed = h.fixed := by
  obtain ⟨h', hh', hspec⟩ := setNext_spec hp v
  exact ⟨h', by simp [setPrevNext, prev_spec ha, hprev, hh'], hspec⟩

theorem setNextPrev_spec {b : ℕ} (ha : a < h.length) (hb : b < h.length)
    (hnext : h.links.next a = some b) (v : Option ℕ) :
    ∃ h', h.setNextPrev a v = some h' ∧ h'.links = h.links.setPrev b v ∧ h'.fixed = h.fixed := by
  obtain ⟨h', hh', hspec⟩ := setPrev_spec hb v
  exact ⟨h', by simp [setNextPrev, next_spec ha, hnext, hh'], hspec⟩

theorem setNextPrevIfAny_nil (hnext : h.next a = some none) (v : Option ℕ) :
    h.setNextPrevIfAny a v = some h := by
  simp [setNextPrevIfAny, hnext]

theorem setNextPrevIfAny_some {b : ℕ} (hnext : h.next a = some (some b)) (v : Option ℕ) :
    h.setNextPrevIfAny a v = h.setNextPrev a v := by
  simp [setNextPrevIfAny, hnext]

/-! ## Lifting -/

/-- The statements of `lift` about one node: it leaves the list. -/
theorem unlink_spec {p : ℕ} {A C : List ℕ} (hseg : h.links.Seg none (A ++ p :: a :: C) none)
    (hnodup : (A ++ p :: a :: C).Nodup) (hlt : ∀ x ∈ A ++ p :: a :: C, x < h.length) :
    ∃ h₁, h.setPrevNext a (h.links.next a) = some h₁ ∧ h₁.next a = some C.head? ∧
      h₁.prev a = some (some p) ∧
      ∃ h₂, h₁.setNextPrevIfAny a (some p) = some h₂ ∧ h₂.links = h.links.unlink a ∧
        h₂.fixed = h.fixed := by
  obtain ⟨-, -, hpn, hap, han, -⟩ := Links.seg_middle.mp hseg
  have hpa : a ≠ p := by
    have htail := List.nodup_cons.mp (List.nodup_append.mp hnodup).2.1
    exact fun heq => htail.1 (heq ▸ List.mem_cons_self)
  have ha : a < h.length := hlt a (by simp)
  have hp : p < h.length := hlt p (by simp)
  obtain ⟨h₁, hh₁, hlinks₁, hfixed₁⟩ := setPrevNext_spec ha hp hap (h.links.next a)
  have ha₁ : a < h₁.length := by rwa [length_eq_of_fixed hfixed₁]
  have hnext₁ : h₁.links.next a = h.links.next a := by
    rw [hlinks₁]
    exact Links.setNext_next_of_ne _ _ hpa
  have hhead : h₁.next a = some C.head? := by rw [next_spec ha₁, hnext₁, han, Option.or_none]
  refine ⟨h₁, hh₁, hhead, ?_, ?_⟩
  · rw [prev_spec ha₁, hlinks₁]
    exact congrArg some hap
  · cases C with
    | nil =>
      refine ⟨h₁, setNextPrevIfAny_nil hhead _, ?_, hfixed₁⟩
      rw [hlinks₁, Links.unlink_last hap han, han]
      rfl
    | cons b C =>
      have hb : b < h₁.length := by
        rw [length_eq_of_fixed hfixed₁]
        exact hlt b (by simp)
      have han : h.links.next a = some b := han
      obtain ⟨h₂, hh₂, hlinks₂, hfixed₂⟩ := setNextPrev_spec ha₁ hb (hnext₁.trans han) (some p)
      refine ⟨h₂, (setNextPrevIfAny_some hhead _).trans hh₂, ?_, hfixed₂.trans hfixed₁⟩
      rw [hlinks₂, hlinks₁, Links.unlink_between hap han, han]

/-- The statements of `unlift` about one node: it takes its place again. -/
theorem relink_spec {L : Links ℕ} {p : ℕ} {A C : List ℕ} (hseg : L.Seg none (A ++ p :: a :: C) none)
    (hnodup : (A ++ p :: a :: C).Nodup) (hlt : ∀ x ∈ A ++ p :: a :: C, x < h.length)
    (hlinks : h.links = L.unlink a) :
    ∃ h₁, h.setPrevNext a (some a) = some h₁ ∧ h₁.next a = some C.head? ∧
      ∃ h₂, h₁.setNextPrevIfAny a (some a) = some h₂ ∧ h₂.links = L ∧ h₂.fixed = h.fixed := by
  obtain ⟨hprev, hnext⟩ := Links.unlink_own hseg hnodup
  obtain ⟨-, -, -, hap, han, -⟩ := Links.seg_middle.mp hseg
  rw [← hlinks] at hprev hnext
  have hpa : a ≠ p := by
    have htail := List.nodup_cons.mp (List.nodup_append.mp hnodup).2.1
    exact fun heq => htail.1 (heq ▸ List.mem_cons_self)
  have ha : a < h.length := hlt a (by simp)
  obtain ⟨h₁, hh₁, hlinks₁, hfixed₁⟩ :=
    setPrevNext_spec ha (hlt p (by simp)) (hprev.trans hap) (some a)
  have ha₁ : a < h₁.length := by rwa [length_eq_of_fixed hfixed₁]
  have hnext₁ : h₁.links.next a = L.next a := by
    rw [hlinks₁, Links.setNext_next_of_ne _ _ hpa, hnext]
  have hrelink := Links.relink_unlink hseg hnodup
  rw [← hlinks] at hrelink
  have hhead : h₁.next a = some C.head? := by rw [next_spec ha₁, hnext₁, han, Option.or_none]
  refine ⟨h₁, hh₁, hhead, ?_⟩
  cases C with
  | nil =>
    refine ⟨h₁, setNextPrevIfAny_nil hhead _, ?_, hfixed₁⟩
    rw [hlinks₁, ← Links.relink_last (hprev.trans hap) (hnext.trans han), hrelink]
  | cons b C =>
    have hb : b < h₁.length := by
      rw [length_eq_of_fixed hfixed₁]
      exact hlt b (by simp)
    obtain ⟨h₂, hh₂, hlinks₂, hfixed₂⟩ := setNextPrev_spec ha₁ hb (hnext₁.trans han) (some a)
    refine ⟨h₂, (setNextPrevIfAny_some hhead _).trans hh₂, ?_, hfixed₂.trans hfixed₁⟩
    rw [hlinks₂, hlinks₁, ← Links.relink_between (hprev.trans hap) (hnext.trans han), hrelink]

/-- Lifting an entry takes it and its match out of the list; unlifting it restores the heap. -/
theorem lift_spec {e m p : ℕ} {A B C : List ℕ}
    (hseg : h.links.Seg none (A ++ p :: e :: (B ++ m :: C)) none)
    (hnodup : (A ++ p :: e :: (B ++ m :: C)).Nodup)
    (hlt : ∀ x ∈ A ++ p :: e :: (B ++ m :: C), x < h.length) (hmatch : h.matching e = some m) :
    ∃ h', h.lift e = some h' ∧ h'.fixed = h.fixed ∧
      h'.links.Seg none (A ++ p :: (B ++ C)) none ∧ h'.unlift e = some h := by
  obtain ⟨b, hb⟩ : ∃ b, (B ++ m :: C).head? = some b := by cases B <;> simp
  have he : e < h.length := hlt e (by simp)
  -- first the entry leaves
  obtain ⟨h₁, hh₁, hnext₁, hprev₁, h₂, hh₂, hlinks₂, hfixed₂⟩ := unlink_spec hseg hnodup hlt
  rw [setNextPrevIfAny_some (hb ▸ hnext₁)] at hh₂
  have hseg₂ := Links.Seg.unlink hseg hnodup
  rw [← hlinks₂] at hseg₂
  -- then its match, which follows some node `q`
  obtain ⟨A₂, q, hq⟩ : ∃ A₂ q, A ++ p :: B = A₂ ++ [q] := by
    obtain hnil | ⟨A₂, q, hq⟩ := List.eq_nil_or_concat (A ++ p :: B)
    · simp at hnil
    · exact ⟨A₂, q, by simpa using hq⟩
  have hlist : A ++ p :: (B ++ m :: C) = A₂ ++ q :: m :: C := by
    rw [← List.cons_append, ← List.append_assoc, hq, List.append_assoc, List.singleton_append]
  have hlist' : A ++ p :: (B ++ C) = A₂ ++ q :: C := by
    rw [← List.cons_append, ← List.append_assoc, hq, List.append_assoc, List.singleton_append]
  have hsub : (A₂ ++ q :: m :: C).Sublist (A ++ p :: e :: (B ++ m :: C)) := by
    rw [← hlist]
    exact ((List.sublist_cons_self e _).cons_cons p).append_left A
  have hnodup₂ := hnodup.sublist hsub
  have hlt₂ : ∀ x ∈ A₂ ++ q :: m :: C, x < h₂.length := fun x hx => by
    rw [length_eq_of_fixed hfixed₂]
    exact hlt x (hsub.subset hx)
  have hm₂ : m < h₂.length := hlt₂ m (by simp)
  rw [hlist] at hseg₂
  obtain ⟨h₃, hh₃, -, hprev₃, h₄, hh₄, hlinks₄, hfixed₄⟩ := unlink_spec hseg₂ hnodup₂ hlt₂
  have hmatch₂ : h₂.matching e = some m := by
    rw [← matching_fixed, hfixed₂, matching_fixed, hmatch]
  have hfixed : h₄.fixed = h.fixed := hfixed₄.trans hfixed₂
  refine ⟨h₄, ?_, hfixed, ?_, ?_⟩
  · simp only [lift, Option.bind_eq_bind, next_spec he, Option.bind_some, hh₁, hprev₁, hh₂, hmatch₂,
      next_spec hm₂, hh₃, hprev₃, hh₄]
  · rw [hlist', hlinks₄]
    exact Links.Seg.unlink hseg₂ hnodup₂
  · have hlt₄ : ∀ x ∈ A₂ ++ q :: m :: C, x < h₄.length := fun x hx => by
      rw [length_eq_of_fixed hfixed₄]
      exact hlt₂ x hx
    obtain ⟨h₅, hh₅, -, h₆, hh₆, hlinks₆, hfixed₆⟩ := relink_spec hseg₂ hnodup₂ hlt₄ hlinks₄
    have hlt₆ : ∀ x ∈ A ++ p :: e :: (B ++ m :: C), x < h₆.length := fun x hx => by
      rw [length_eq_of_fixed (hfixed₆.trans hfixed)]
      exact hlt x hx
    obtain ⟨h₇, hh₇, hnext₇, h₈, hh₈, hlinks₈, hfixed₈⟩ :=
      relink_spec hseg hnodup hlt₆ (hlinks₆.trans hlinks₂)
    rw [setNextPrevIfAny_some (hb ▸ hnext₇)] at hh₈
    have hmatch₄ : h₄.matching e = some m := by
      rw [← matching_fixed, hfixed, matching_fixed, hmatch]
    have hback : h₈ = h := ext_links (hfixed₈.trans (hfixed₆.trans hfixed)) hlinks₈
    simp only [unlift, Option.bind_eq_bind, hmatch₄, Option.bind_some, hh₅, hh₆, hh₇, hh₈, hback]

/-! ## Building the list -/

/-- A node whose pointers are nil goes before the first node of a list. -/
theorem insertBefore_spec {n : ℕ} {l : List ℕ} (hseg : h.links.Seg none l none)
    (hlt : ∀ x ∈ l, x < h.length) (hl : l.Nodup) (hn : n < h.length) (hfresh : n ∉ l)
    (hnext : h.links.next n = none) (hprev : h.links.prev n = none) :
    ∃ h', h.insertBefore n l.head? = some h' ∧ h'.links.Seg none (n :: l) none ∧
      h'.fixed = h.fixed := by
  cases l with
  | nil => exact ⟨h, rfl, ⟨hprev, hnext, trivial⟩, rfl⟩
  | cons m l =>
    obtain ⟨hmp, hmn, hrest⟩ := hseg
    obtain ⟨hml, -⟩ := List.nodup_cons.mp hl
    have hnm : n ≠ m := fun heq => hfresh (heq ▸ List.mem_cons_self)
    have hm : m < h.length := hlt m List.mem_cons_self
    obtain ⟨h₁, hh₁, hlinks₁, hfixed₁⟩ := setPrev_spec hm (some n)
    obtain ⟨h₂, hh₂, hlinks₂, hfixed₂⟩ := setNext_spec (h := h₁) (a := n)
      (by rwa [length_eq_of_fixed hfixed₁]) (some m)
    refine ⟨h₂, ?_, ?_, hfixed₂.trans hfixed₁⟩
    · simp [insertBefore, prev_spec hm, hmp, hh₁, hh₂]
    · rw [hlinks₂, hlinks₁]
      refine ⟨?_, Links.setNext_next_self .., ?_, ?_, ?_⟩
      · exact (Links.setPrev_prev_of_ne _ _ hnm).trans hprev
      · exact Links.setPrev_prev_self ..
      · exact (Links.setNext_next_of_ne _ _ (Ne.symm hnm)).trans hmn
      · refine hrest.congr (fun x hx => ?_) fun x hx => ?_
        · exact Links.setNext_next_of_ne _ _ fun heq => hfresh (heq ▸ List.mem_cons_of_mem m hx)
        · exact Links.setPrev_prev_of_ne _ _ fun heq => hml (heq ▸ hx)

/-- A new node leaves the pointers of the others. -/
theorem links_append_of_lt (node : Node ι ο) (ha : a < h.length) :
    (links (h ++ [node])).next a = h.links.next a ∧
    (links (h ++ [node])).prev a = h.links.prev a := by
  simp [links, List.getElem?_append_left ha]

theorem seg_append_node {l : List ℕ} (hseg : h.links.Seg none l none) (hlt : ∀ x ∈ l, x < h.length)
    (node : Node ι ο) : (links (h ++ [node])).Seg none l none :=
  hseg.congr (fun x hx => (links_append_of_lt node (hlt x hx)).1) fun x hx =>
    (links_append_of_lt node (hlt x hx)).2

/-- A new node, put before the first node of a list. -/
theorem insertBefore_new {l : List ℕ} (hseg : h.links.Seg none l none) (hlt : ∀ x ∈ l, x < h.length)
    (hl : l.Nodup) (node : Node ι ο) (hnext : node.next = none) (hprev : node.prev = none) :
    ∃ h', insertBefore (h ++ [node]) h.length l.head? = some h' ∧
      h'.links.Seg none (h.length :: l) none ∧ h'.fixed = h.fixed ++ [strip node] := by
  obtain ⟨h', hh', hseg', hfixed⟩ :=
    insertBefore_spec (h := h ++ [node]) (n := h.length) (seg_append_node hseg hlt node)
      (fun x hx => by simpa using Nat.lt_succ_of_lt (hlt x hx)) hl (by simp)
      (fun hmem => Nat.lt_irrefl _ (hlt _ hmem)) (by simp [links, hnext]) (by simp [links, hprev])
  exact ⟨h', hh', hseg', hfixed.trans (by simp [fixed])⟩

/-- The addresses met from a node on, following `next`. -/
def follow (h : Nodes ι ο) : ℕ → Option ℕ → Option (List ℕ)
  | _, none => some []
  | 0, some _ => none
  | fuel + 1, some n => do
    let l ← follow h fuel (← h.next n)
    some (n :: l)

theorem follow_spec {p : Option ℕ} {l : List ℕ} (hseg : h.links.Seg p l none)
    (hlt : ∀ x ∈ l, x < h.length) {fuel : ℕ} (hfuel : l.length ≤ fuel) :
    h.follow fuel l.head? = some l := by
  induction l generalizing p fuel with
  | nil => cases fuel <;> rfl
  | cons a l ih =>
    obtain ⟨-, hnext, hrest⟩ := hseg
    cases fuel with
    | zero => simp at hfuel
    | succ fuel =>
      have hl := ih hrest (fun x hx => hlt x (List.mem_cons_of_mem a hx))
        (Nat.le_of_succ_le_succ hfuel)
      simp [follow, next_spec (hlt a List.mem_cons_self), hnext, hl]

theorem lengthFrom_eq (h : Nodes ι ο) (fuel : ℕ) (n : Option ℕ) :
    h.lengthFrom fuel n = (h.follow fuel n).map List.length := by
  induction fuel generalizing n with
  | zero => cases n <;> rfl
  | succ fuel ih =>
    cases n with
    | none => rfl
    | some n =>
      cases hnext : h.next n with
      | none => simp [lengthFrom, follow, hnext]
      | some next => cases hl : h.follow fuel next <;> simp [lengthFrom, follow, hnext, ih, hl]

/-- `length` counts the nodes of a list. -/
theorem lengthFrom_spec {p : Option ℕ} {l : List ℕ} (hseg : h.links.Seg p l none)
    (hlt : ∀ x ∈ l, x < h.length) {fuel : ℕ} (hfuel : l.length ≤ fuel) :
    h.lengthFrom fuel l.head? = some l.length := by
  rw [lengthFrom_eq, follow_spec hseg hlt hfuel, Option.map_some]

end Nodes

/-! ## Entries with their addresses -/

abbrev Cell (ι ο : Type) := ℕ × Entry ι ο

/-- The entries with the addresses of their nodes: the last entry is allocated first. -/
def cellsOf : List (Entry ι ο) → List (Cell ι ο)
  | [] => []
  | e :: es => (es.length, e) :: cellsOf es

section Cells

variable {entries es : List (Entry ι ο)} {h : Nodes ι ο}

theorem map_snd_cellsOf (es : List (Entry ι ο)) : (cellsOf es).map Prod.snd = es := by
  induction es with
  | nil => rfl
  | cons e es ih => rw [cellsOf, List.map_cons, ih]

theorem length_cellsOf (es : List (Entry ι ο)) : (cellsOf es).length = es.length := by
  rw [← List.length_map (f := Prod.snd), map_snd_cellsOf]

theorem lt_of_mem_cellsOf {x : Cell ι ο} (hx : x ∈ cellsOf es) : x.1 < es.length := by
  induction es with
  | nil => cases hx
  | cons e es ih =>
    obtain rfl | hx := List.mem_cons.mp hx
    · exact Nat.lt_succ_self _
    · exact Nat.lt_succ_of_lt (ih hx)

theorem nodup_cellsOf (es : List (Entry ι ο)) : ((cellsOf es).map Prod.fst).Nodup := by
  induction es with
  | nil => exact List.nodup_nil
  | cons e es ih =>
    refine List.nodup_cons.mpr ⟨fun hmem => ?_, ih⟩
    obtain ⟨x, hx, hlen⟩ := List.mem_map.mp hmem
    exact Nat.lt_irrefl _ (hlen ▸ lt_of_mem_cellsOf hx)

/-- Each call has a return further on. -/
def Matched : List (Entry ι ο) → Prop
  | [] => True
  | e :: es => (e.IsCall → ∃ r ∈ es, r.IsReturn ∧ r.id = e.id) ∧ Matched es

/-- The heap holds the cells: value and id of each, and for a call the node of its return. -/
def HoldsCells (h : Nodes ι ο) (cells : List (Cell ι ο)) : Prop :=
  ∀ x ∈ cells, ∃ node, h.fixed[x.1]? = some node ∧ node.value = x.2.value ∧ node.id = x.2.id ∧
    (x.2.IsReturn → node.matching = none) ∧
    (x.2.IsCall → ∃ y ∈ cells, y.2.IsReturn ∧ y.2.id = x.2.id ∧ node.matching = some y.1)

/-- The first return of operation `i`. -/
def firstReturn (cells : List (Cell ι ο)) (i : ℤ) : Option ℕ :=
  (cells.find? fun x => x.2.IsReturn ∧ x.2.id = i).map Prod.fst

/-- What the loop of `makeLinkedEntries` has built of the entries `es`. -/
structure LinkingOk (es : List (Entry ι ο)) (st : Linking ι ο) : Prop where
  length : st.nodes.length = es.length
  root : st.root = ((cellsOf es).map Prod.fst).head?
  seg : st.nodes.links.Seg none ((cellsOf es).map Prod.fst) none
  cells : HoldsCells st.nodes (cellsOf es)
  matchOf : ∀ i, st.matchOf.lookup i = firstReturn (cellsOf es) i

/-- More cells and a longer heap keep the cells held so far. -/
theorem HoldsCells.cons {h' : Nodes ι ο} {cells : List (Cell ι ο)} {x : Cell ι ο} {node : Node ι ο}
    (hcells : HoldsCells h cells) (hfixed : h'.fixed = h.fixed ++ [Nodes.strip node])
    (hx : x.1 = h.length) (hvalue : node.value = x.2.value) (hid : node.id = x.2.id)
    (hret : x.2.IsReturn → node.matching = none)
    (hcall : x.2.IsCall → ∃ y ∈ cells, y.2.IsReturn ∧ y.2.id = x.2.id ∧ node.matching = some y.1) :
    HoldsCells h' (x :: cells) := by
  intro y hy
  obtain rfl | hy := List.mem_cons.mp hy
  · refine ⟨Nodes.strip node, ?_, hvalue, hid, hret, fun hc => ?_⟩
    · rw [hfixed, hx, ← Nodes.length_fixed, List.getElem?_concat_length]
    · obtain ⟨z, hz, hz'⟩ := hcall hc
      exact ⟨z, List.mem_cons_of_mem _ hz, hz'⟩
  · obtain ⟨node', hnode', hvalue', hid', hret', hcall'⟩ := hcells y hy
    have hlt : y.1 < h.fixed.length := (List.getElem?_eq_some_iff.mp hnode').1
    refine ⟨node', ?_, hvalue', hid', hret', fun hc => ?_⟩
    · rw [hfixed, List.getElem?_append_left hlt, hnode']
    · obtain ⟨z, hz, hz'⟩ := hcall' hc
      exact ⟨z, List.mem_cons_of_mem _ hz, hz'⟩

/-- One turn of the loop. -/
theorem LinkingOk.linkEntry {st : Linking ι ο} {e : Entry ι ο} (hst : LinkingOk es st)
    (hmatched : e.IsCall → ∃ r ∈ es, r.IsReturn ∧ r.id = e.id) :
    ∃ st', linkEntry st e = some st' ∧ LinkingOk (e :: es) st' := by
  have hlt : ∀ a ∈ (cellsOf es).map Prod.fst, a < st.nodes.length := by
    intro a ha
    obtain ⟨x, hx, rfl⟩ := List.mem_map.mp ha
    rw [hst.length]
    exact lt_of_mem_cellsOf hx
  cases hkind : e.kind with
  | returnEntry =>
    have hret : e.IsReturn := hkind
    obtain ⟨h', hh', hseg, hfixed⟩ := Nodes.insertBefore_new hst.seg hlt (nodup_cellsOf es)
      { value := e.value, matching := none, id := e.id } rfl rfl
    rw [← hst.root] at hh'
    refine ⟨_, by simp [Porcupine.linkEntry, hkind, hh']; rfl, ?_, ?_, ?_, ?_, ?_⟩
    · have := congrArg List.length hfixed
      simpa [Nodes.length_fixed, hst.length] using this
    · simp [cellsOf, hst.length]
    · simpa [cellsOf, hst.length] using hseg
    · exact hst.cells.cons hfixed hst.length.symm rfl rfl (fun _ => rfl)
        fun hc => absurd hret (Entry.not_isReturn.mpr hc)
    · intro i
      by_cases hi : e.id = i
      · simp [cellsOf, firstReturn, hret, hi, hst.length]
      · simp [cellsOf, firstReturn, hi, Finmap.lookup_insert_of_ne _ (Ne.symm hi), hst.matchOf]
  | callEntry =>
    have hcall : e.IsCall := hkind
    obtain ⟨h', hh', hseg, hfixed⟩ := Nodes.insertBefore_new hst.seg hlt (nodup_cellsOf es)
      { value := e.value, matching := st.matchOf.lookup e.id, id := e.id } rfl rfl
    rw [← hst.root] at hh'
    refine ⟨_, by simp [Porcupine.linkEntry, hkind, hh']; rfl, ?_, ?_, ?_, ?_, ?_⟩
    · have := congrArg List.length hfixed
      simpa [Nodes.length_fixed, hst.length] using this
    · simp [cellsOf, hst.length]
    · simpa [cellsOf, hst.length] using hseg
    · refine hst.cells.cons hfixed hst.length.symm rfl rfl
        (fun hr => absurd hcall (Entry.not_isCall.mpr hr)) fun _ => ?_
      obtain ⟨r, hr, hret, hid⟩ := hmatched hcall
      rw [← map_snd_cellsOf es] at hr
      obtain ⟨x, hx, rfl⟩ := List.mem_map.mp hr
      obtain ⟨y, hy⟩ := Option.isSome_iff_exists.mp
        (List.find?_isSome (p := fun x : Cell ι ο => decide (x.2.IsReturn ∧ x.2.id = e.id)) |>.mpr
          ⟨x, hx, by simp [hret, hid]⟩)
      have hy' := List.find?_some hy
      simp only [decide_eq_true_eq] at hy'
      refine ⟨y, List.mem_of_find?_eq_some hy, hy'.1, hy'.2, ?_⟩
      rw [hst.matchOf, firstReturn, hy]
      rfl
    · intro i
      simp [cellsOf, firstReturn, Entry.not_isReturn.mpr hcall, hst.matchOf]

theorem linkEntries_spec (hmatched : Matched es) :
    ∃ st, linkEntries es = some st ∧ LinkingOk es st := by
  induction es with
  | nil =>
    refine ⟨_, rfl, rfl, rfl, trivial, fun x hx => ?_, fun i => ?_⟩
    · cases hx
    · simp [firstReturn, cellsOf]
  | cons e es ih =>
    obtain ⟨st, hst, hok⟩ := ih hmatched.2
    obtain ⟨st', hst', hok'⟩ := hok.linkEntry hmatched.1
    exact ⟨st', by rw [linkEntries, hst, Option.bind_some, hst'], hok'⟩

/-! ## A heap that represents some of the entries -/

/-- The heap holds the entries, and those of `live` are linked in order after the head node, whose
address is the number of entries. -/
structure Rep (entries : List (Entry ι ο)) (h : Nodes ι ο) (live : List (Cell ι ο)) : Prop where
  cells : HoldsCells h (cellsOf entries)
  sublist : live.Sublist (cellsOf entries)
  length : h.length = entries.length + 1
  seg : h.links.Seg none (entries.length :: live.map Prod.fst) none

/-- The cells of the operations other than `w`. -/
def live (entries : List (Entry ι ο)) (w : List ℤ) : List (Cell ι ο) :=
  (cellsOf entries).filter fun x => x.2.id ∉ w

theorem live_nil : live entries [] = cellsOf entries := by simp [live]

theorem mem_live {w : List ℤ} {x : Cell ι ο} :
    x ∈ live entries w ↔ x ∈ cellsOf entries ∧ x.2.id ∉ w := by
  simp [live]

theorem live_sublist (w : List ℤ) : (live entries w).Sublist (cellsOf entries) :=
  List.filter_sublist

theorem exists_cell {e : Entry ι ο} (he : e ∈ entries) : ∃ x ∈ cellsOf entries, x.2 = e := by
  rw [← map_snd_cellsOf entries] at he
  exact List.mem_map.mp he

theorem mem_of_mem_cellsOf {x : Cell ι ο} (hx : x ∈ cellsOf entries) : x.2 ∈ entries := by
  have := List.mem_map_of_mem (f := Prod.snd) hx
  rwa [map_snd_cellsOf] at this

/-- The order of cells is the order of entries. -/
theorem pair_sublist_entries {x y : Cell ι ο} (h : [x, y].Sublist (cellsOf entries)) :
    [x.2, y.2].Sublist entries := by
  have := h.map Prod.snd
  rwa [map_snd_cellsOf] at this

theorem pair_sublist_cells {e e' : Entry ι ο} (h : [e, e'].Sublist entries) :
    ∃ x y : Cell ι ο, x.2 = e ∧ y.2 = e' ∧ [x, y].Sublist (cellsOf entries) := by
  rw [← map_snd_cellsOf entries] at h
  exact exists_pair_of_sublist_map h

theorem nodup_live (w : List ℤ) : (live entries w).Nodup :=
  (nodup_cellsOf entries).of_map.sublist (live_sublist w)

section WellFormed

variable (hwf : WellFormed entries)

include hwf

theorem WellFormed.distinct_cells :
    (cellsOf entries).Pairwise fun x y => x.2.kind = y.2.kind → x.2.id ≠ y.2.id := by
  have := hwf.distinct
  rw [← map_snd_cellsOf entries] at this
  exact List.pairwise_map.mp this

theorem WellFormed.cell_eq {x y : Cell ι ο} (hx : x ∈ cellsOf entries) (hy : y ∈ cellsOf entries)
    (hkind : x.2.kind = y.2.kind) (hid : x.2.id = y.2.id) : x = y := by
  by_contra hne
  have hsymm : Std.Symm fun x y : Cell ι ο => x.2.kind = y.2.kind → x.2.id ≠ y.2.id :=
    ⟨fun u v h hk => Ne.symm (h hk.symm)⟩
  exact hwf.distinct_cells.forall hx hy hne hkind hid

theorem WellFormed.matched : Matched entries := by
  suffices h : ∀ pre post, entries = pre ++ post → Matched post from h [] entries rfl
  intro pre post
  induction post generalizing pre with
  | nil => exact fun _ => trivial
  | cons e es ih =>
    intro heq
    refine ⟨fun hcall => ?_, ih (pre ++ [e]) (by simp [heq])⟩
    obtain ⟨r, hret, hid, hsub⟩ := hwf.answered e (by simp [heq]) hcall
    have hnodup := hwf.nodup
    rw [heq] at hsub hnodup
    have hepre : e ∉ pre :=
      fun he => (List.nodup_append.mp hnodup).2.2 e he e List.mem_cons_self rfl
    exact ⟨r, mem_of_pair_sublist hepre hsub, hret, hid⟩

/-- The return of a call that is in the list stands after it, and without the two the list is that
of the remaining operations. -/
theorem WellFormed.live_split {w : List ℤ} {A T : List (Cell ι ο)} {x : Cell ι ο}
    (hcall : x.2.IsCall) (hlive : live entries w = A ++ x :: T) :
    ∃ B y C, T = B ++ y :: C ∧ y.2.IsReturn ∧ y.2.id = x.2.id ∧
      live entries (w ++ [x.2.id]) = A ++ (B ++ C) := by
  obtain ⟨hx, hxw⟩ := mem_live.mp (by rw [hlive]; simp : x ∈ live entries w)
  obtain ⟨r, hret, hid, hsub⟩ := hwf.answered x.2 (mem_of_mem_cellsOf hx) hcall
  obtain ⟨y, hy, rfl⟩ := exists_cell (hsub.subset (by simp) : r ∈ entries)
  have hyT : y ∈ T := by
    have hmem : y ∈ A ++ x :: T := by
      rw [← hlive]
      exact mem_live.mpr ⟨hy, hid ▸ hxw⟩
    obtain hA | hT := List.mem_append.mp hmem
    · -- a return before its call
      obtain ⟨A₁, A₂, rfl⟩ := List.append_of_mem hA
      have hyx : [y, x].Sublist (live entries w) := by
        rw [hlive, List.append_assoc, List.cons_append]
        exact ((List.singleton_sublist.mpr (by simp)).cons_cons y).trans
          (List.sublist_append_right _ _)
      exact absurd (pair_sublist_entries (hyx.trans (live_sublist w)))
        (not_pair_sublist_swap hwf.nodup hsub)
    · obtain rfl | hT := List.mem_cons.mp hT
      · exact absurd hcall (Entry.not_isCall.mpr hret)
      · exact hT
  obtain ⟨B, C, rfl⟩ := List.append_of_mem hyT
  refine ⟨B, y, C, rfl, hret, hid, ?_⟩
  have hfilter : live entries (w ++ [x.2.id]) = (live entries w).filter fun z =>
      z.2.id ≠ x.2.id := by
    rw [live, live, List.filter_filter]
    refine List.filter_congr fun z _ => ?_
    rw [← Bool.decide_and, decide_eq_decide, List.mem_append, List.mem_singleton, not_or]
    exact and_comm
  have hdistinct := hwf.distinct_cells.sublist (live_sublist w)
  rw [hlive] at hdistinct
  obtain ⟨-, hxT, hAxT⟩ := List.pairwise_append.mp hdistinct
  obtain ⟨hxBC, hBC⟩ := List.pairwise_cons.mp hxT
  obtain ⟨-, hyC, hByC⟩ := List.pairwise_append.mp hBC
  obtain ⟨hyC, -⟩ := List.pairwise_cons.mp hyC
  -- a cell of either kind differs in id from `x` or from `y`
  have hkeep : ∀ z : Cell ι ο, (z.2.kind = x.2.kind → z.2.id ≠ x.2.id) →
      (z.2.kind = y.2.kind → z.2.id ≠ y.2.id) → z.2.id ≠ x.2.id := by
    intro z hzx hzy
    by_cases hz : z.2.IsCall
    · exact hzx (hz.trans hcall.symm)
    · rw [← hid]
      exact hzy ((Entry.not_isCall.mp hz).trans hret.symm)
  have hA : A.filter (fun z => z.2.id ≠ x.2.id) = A := List.filter_eq_self.mpr fun z hz => by
    simpa using hkeep z (hAxT z hz x (by simp)) (hAxT z hz y (by simp))
  have hB : B.filter (fun z => z.2.id ≠ x.2.id) = B := List.filter_eq_self.mpr fun z hz => by
    simpa using hkeep z (fun hk => Ne.symm (hxBC z (by simp [hz]) hk.symm)) (hByC z hz y (by simp))
  have hC : C.filter (fun z => z.2.id ≠ x.2.id) = C := List.filter_eq_self.mpr fun z hz => by
    simpa using hkeep z (fun hk => Ne.symm (hxBC z (by simp [hz]) hk.symm))
      fun hk => Ne.symm (hyC z hz hk.symm)
  rw [hfilter, hlive, List.filter_append, List.filter_cons_of_neg (by simp), List.filter_append,
    List.filter_cons_of_neg (by simp [hid]), hA, hB, hC]

end WellFormed

namespace Rep

variable {w : List ℤ} {live' A T : List (Cell ι ο)} {x : Cell ι ο}

theorem lt_length (hrep : Rep entries h live') (hx : x ∈ live') : x.1 < h.length := by
  rw [hrep.length]
  exact Nat.lt_succ_of_lt (lt_of_mem_cellsOf (hrep.sublist.subset hx))

/-- The nodes of the list are allocated. -/
theorem addr_lt (hrep : Rep entries h live') :
    ∀ a ∈ entries.length :: live'.map Prod.fst, a < h.length := by
  intro a ha
  obtain rfl | ha := List.mem_cons.mp ha
  · rw [hrep.length]
    exact Nat.lt_succ_self _
  · obtain ⟨z, hz, rfl⟩ := List.mem_map.mp ha
    exact hrep.lt_length hz

theorem nodup (hrep : Rep entries h live') : (entries.length :: live'.map Prod.fst).Nodup := by
  refine List.nodup_cons.mpr ⟨fun hmem => ?_, (nodup_cellsOf entries).sublist (hrep.sublist.map _)⟩
  obtain ⟨y, hy, hlen⟩ := List.mem_map.mp hmem
  exact Nat.lt_irrefl _ (hlen ▸ lt_of_mem_cellsOf (hrep.sublist.subset hy))

/-- The head node points to the first entry. -/
theorem next_head (hrep : Rep entries h live') :
    h.next entries.length = some (live'.map Prod.fst).head? := by
  have hlt : entries.length < h.length := by rw [hrep.length]; exact Nat.lt_succ_self _
  rw [Nodes.next_spec hlt, hrep.seg.2.1, Option.or_none]

/-- The node of an entry points to the next one. -/
theorem next_cell (hrep : Rep entries h (A ++ x :: T)) :
    h.next x.1 = some (T.map Prod.fst).head? := by
  have hseg := hrep.seg.2.2
  rw [List.map_append, List.map_cons, Links.seg_middle] at hseg
  rw [Nodes.next_spec (hrep.lt_length (x := x) (by simp)), hseg.2.2.1, Option.or_none]

/-- What the node of an entry holds. -/
theorem node (hrep : Rep entries h live') (hx : x ∈ cellsOf entries) :
    ∃ node, h[x.1]? = some node ∧ node.value = x.2.value ∧ node.id = x.2.id ∧
      (x.2.IsReturn → node.matching = none) ∧
      (x.2.IsCall → ∃ y ∈ cellsOf entries, y.2.IsReturn ∧ y.2.id = x.2.id ∧
        node.matching = some y.1) := by
  obtain ⟨node, hnode, hvalue, hid, hret, hcall⟩ := hrep.cells x hx
  rw [Nodes.fixed, List.getElem?_map] at hnode
  obtain ⟨node', hnode', rfl⟩ := Option.map_eq_some_iff.mp hnode
  exact ⟨node', hnode', hvalue, hid, hret, hcall⟩

/-- **Lifting a call** takes its operation out of the list, and unlifting it restores the heap. -/
theorem lift (hwf : WellFormed entries) (hrep : Rep entries h (live entries w))
    (hlive : live entries w = A ++ x :: T) (hcall : x.2.IsCall) :
    ∃ h', h.lift x.1 = some h' ∧ Rep entries h' (live entries (w ++ [x.2.id])) ∧
      h'.unlift x.1 = some h := by
  obtain ⟨B, y, C, rfl, hret, hid, hlive'⟩ := hwf.live_split hcall hlive
  have hx : x ∈ cellsOf entries := hrep.sublist.subset (by rw [hlive]; simp)
  have hy : y ∈ cellsOf entries := hrep.sublist.subset (by rw [hlive]; simp)
  have hmatch : h.matching x.1 = some y.1 := by
    obtain ⟨node, hnode, -, -, -, hmatching⟩ := hrep.node hx
    obtain ⟨z, hz, hzret, hzid, hzm⟩ := hmatching hcall
    obtain rfl : z = y := hwf.cell_eq hz hy (hzret.trans hret.symm) (hzid.trans hid.symm)
    rw [Nodes.matching, hnode, Option.bind_some, hzm]
  -- the node before the call is the head or the node of an entry
  obtain ⟨A', p, hA'⟩ : ∃ A' p, entries.length :: A.map Prod.fst = A' ++ [p] := by
    obtain hnil | ⟨A', p, hp⟩ := List.eq_nil_or_concat (entries.length :: A.map Prod.fst)
    · cases hnil
    · exact ⟨A', p, by simpa using hp⟩
  have hlist : entries.length :: (live entries w).map Prod.fst =
      A' ++ p :: x.1 :: (B.map Prod.fst ++ y.1 :: C.map Prod.fst) := by
    rw [hlive, List.map_append, ← List.cons_append, hA']
    simp
  have hlist' : entries.length :: (live entries (w ++ [x.2.id])).map Prod.fst =
      A' ++ p :: (B.map Prod.fst ++ C.map Prod.fst) := by
    rw [hlive', List.map_append, ← List.cons_append, hA']
    simp
  have hseg := hrep.seg
  have hnodup := hrep.nodup
  have hlt := hrep.addr_lt
  rw [hlist] at hseg hnodup hlt
  obtain ⟨h', hh', hfixed, hseg', hback⟩ := Nodes.lift_spec hseg hnodup hlt hmatch
  refine ⟨h', hh', ⟨?_, live_sublist _, ?_, hlist' ▸ hseg'⟩, hback⟩
  · intro z hz
    rw [hfixed]
    exact hrep.cells z hz
  · rw [Nodes.length_eq_of_fixed hfixed, hrep.length]

/-- Lifting calls one after the other takes out their operations, and unlifting them, last first,
restores the heap. -/
theorem lifts (hwf : WellFormed entries) {calls : List (Cell ι ο)}
    (hrep : Rep entries h (live entries w)) (hcalls : ∀ x ∈ calls, x ∈ live entries w ∧ x.2.IsCall)
    (hnodup : (calls.map fun x => x.2.id).Nodup) :
    ∃ h', (calls.map Prod.fst).foldlM Nodes.lift h = some h' ∧
      Rep entries h' (live entries (w ++ calls.map fun x => x.2.id)) ∧
      (calls.map Prod.fst).reverse.foldlM Nodes.unlift h' = some h := by
  induction calls generalizing h w with
  | nil => exact ⟨h, rfl, by simpa using hrep, rfl⟩
  | cons x calls ih =>
    obtain ⟨hx, hcall⟩ := hcalls x List.mem_cons_self
    obtain ⟨A, T, hAT⟩ := List.append_of_mem hx
    obtain ⟨h₁, hlift, hrep₁, hback⟩ := hrep.lift hwf hAT hcall
    obtain ⟨hfresh, hnodup⟩ := List.nodup_cons.mp hnodup
    have hcalls₁ : ∀ y ∈ calls, y ∈ live entries (w ++ [x.2.id]) ∧ y.2.IsCall := by
      intro y hy
      obtain ⟨hlive, hycall⟩ := hcalls y (List.mem_cons_of_mem x hy)
      obtain ⟨hcell, hw⟩ := mem_live.mp hlive
      have hne : y.2.id ≠ x.2.id := fun heq => hfresh (List.mem_map.mpr ⟨y, hy, heq⟩)
      exact ⟨mem_live.mpr ⟨hcell, by simp [hw, hne]⟩, hycall⟩
    obtain ⟨h', hlifts, hrep', hbacks⟩ := ih hrep₁ hcalls₁ hnodup
    refine ⟨h', ?_, ?_, ?_⟩
    · rw [List.map_cons, List.foldlM_cons, hlift]
      exact hlifts
    · rwa [List.append_assoc, List.singleton_append] at hrep'
    · rw [List.map_cons, List.reverse_cons, List.foldlM_append, hbacks]
      simpa using hback

end Rep

/-- `makeLinkedEntries` and the head node: the list of all entries, whose length `length` counts. -/
theorem rep_initial (hwf : WellFormed entries) :
    ∃ h₀ root h, makeLinkedEntries entries = some (h₀, root) ∧ h₀.length = entries.length ∧
      root = ((cellsOf entries).map Prod.fst).head? ∧
      h₀.lengthFrom h₀.length root = some entries.length ∧
      Nodes.insertBefore (h₀ ++ [{ value := .nil, matching := none, id := -1 }]) h₀.length root =
        some h ∧
      Rep entries h (live entries []) := by
  obtain ⟨st, hst, hok⟩ := linkEntries_spec hwf.matched
  have hlt : ∀ a ∈ (cellsOf entries).map Prod.fst, a < st.nodes.length := by
    intro a ha
    obtain ⟨x, hx, rfl⟩ := List.mem_map.mp ha
    rw [hok.length]
    exact lt_of_mem_cellsOf hx
  have hlength : ((cellsOf entries).map Prod.fst).length = entries.length := by
    rw [List.length_map, length_cellsOf]
  obtain ⟨h, hh, hseg, hfixed⟩ := Nodes.insertBefore_new hok.seg hlt (nodup_cellsOf entries)
    { value := .nil, matching := none, id := -1 } rfl rfl
  refine ⟨st.nodes, st.root, h, by simp [makeLinkedEntries, hst], hok.length, hok.root, ?_, ?_, ?_⟩
  · rw [hok.root, Nodes.lengthFrom_spec hok.seg hlt (by rw [hlength, hok.length]), hlength]
  · rw [hok.root, hh]
  · rw [live_nil]
    refine ⟨fun x hx => ?_, List.Sublist.refl _, ?_, hok.length ▸ hseg⟩
    · obtain ⟨node, hnode, hrest⟩ := hok.cells x hx
      have hlt' : x.1 < st.nodes.fixed.length := (List.getElem?_eq_some_iff.mp hnode).1
      exact ⟨node, by rw [hfixed, List.getElem?_append_left hlt', hnode], hrest⟩
    · have := congrArg List.length hfixed
      simpa [Nodes.length_fixed, hok.length] using this

/-- Any calls of a history may be lifted one after the other: the list from the head node on is then
that of the entries of the other operations, and unlifting the calls, last first, restores every
pointer. -/
theorem unlift_lift_calls (hwf : WellFormed entries) (calls : List (Cell ι ο))
    (hcalls : ∀ x ∈ calls, x ∈ cellsOf entries ∧ x.2.IsCall)
    (hnodup : (calls.map fun x => x.2.id).Nodup) :
    ∃ h₀ root h h', makeLinkedEntries entries = some (h₀, root) ∧
      Nodes.insertBefore (h₀ ++ [{ value := .nil, matching := none, id := -1 }]) h₀.length root =
        some h ∧
      (calls.map Prod.fst).foldlM Nodes.lift h = some h' ∧
      h'.follow (entries.length + 1) (some h₀.length) =
        some (h₀.length :: (live entries (calls.map fun x => x.2.id)).map Prod.fst) ∧
      (calls.map Prod.fst).reverse.foldlM Nodes.unlift h' = some h := by
  obtain ⟨h₀, root, h, hmake, hlen, -, -, hinsert, hrep⟩ := rep_initial hwf
  obtain ⟨h', hlifts, hrep', hback⟩ :=
    hrep.lifts hwf (fun x hx => by rw [live_nil]; exact hcalls x hx) hnodup
  refine ⟨h₀, root, h, h', hmake, hinsert, hlifts, ?_, hback⟩
  rw [List.nil_append] at hrep'
  rw [hlen]
  refine Nodes.follow_spec hrep'.seg hrep'.addr_lt ?_
  rw [List.length_cons, List.length_map]
  exact Nat.succ_le_succ ((live_sublist _).length_le.trans_eq (length_cellsOf entries))

/-- Two operations that overlap. -/
def twoOperations : List (Entry ℕ ℕ) :=
  [⟨.callEntry, .input 5, 0, 0, 0⟩, ⟨.callEntry, .input 6, 1, 1, 1⟩,
   ⟨.returnEntry, .output 7, 0, 2, 0⟩, ⟨.returnEntry, .output 8, 1, 3, 1⟩]

theorem wellFormed_twoOperations : WellFormed twoOperations where
  distinct := by decide
  answered := by
    intro c hc hcall
    simp only [twoOperations, List.mem_cons, List.not_mem_nil, or_false] at hc
    obtain rfl | rfl | rfl | rfl := hc
    · exact ⟨⟨.returnEntry, .output 7, 0, 2, 0⟩, rfl, rfl, by decide⟩
    · exact ⟨⟨.returnEntry, .output 8, 1, 3, 1⟩, rfl, rfl, by decide⟩
    · cases hcall
    · cases hcall
  asked := by decide
  inputs := by simp [twoOperations, Entry.IsCall]
  outputs := by simp [twoOperations, Entry.IsReturn]
  range := by
    intro i
    have hids : callIds twoOperations = [0, 1] := by decide
    rw [hids, List.mem_cons, List.mem_singleton, List.length_cons, List.length_singleton]
    omega

theorem unlift_lift_twoOperations :
    ∃ h₀ root h h', makeLinkedEntries twoOperations = some (h₀, root) ∧
      Nodes.insertBefore (h₀ ++ [{ value := .nil, matching := none, id := -1 }]) h₀.length root =
        some h ∧
      [2, 3].foldlM Nodes.lift h = some h' ∧ h'.follow 5 (some h₀.length) = some [h₀.length] ∧
      [3, 2].foldlM Nodes.unlift h' = some h :=
  unlift_lift_calls wellFormed_twoOperations
    [(2, ⟨.callEntry, .input 6, 1, 1, 1⟩), (3, ⟨.callEntry, .input 5, 0, 0, 0⟩)]
    (by decide) (by decide)

end Cells

end LogicRaft.Porcupine
