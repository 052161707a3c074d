import LogicRaft.Common.MemoSearch
import LogicRaft.Porcupine.Bitset
import LogicRaft.Porcupine.LinkedEntries
import Mathlib.Data.List.TakeWhile

/-!
# The search for a linearization

`checkSingle` of `porcupine/checker.go`. One turn of its loop is `turn`: with an entry that has a
match, a call, it tries to linearize the operation next; with a return, the operation that returned
should have been linearized before, and it takes back the last choice. `Progress` is what a turn
ends in. A panic (a nil pointer, an index out of range, a failed type assertion) is `none`. The flag
`kill` is read once a turn, so a run is given the values it reads.

`problem` states the search over lists of entries instead of linked nodes, as an instance of
`MemoSearch.Problem`: a configuration is the sequence of operations linearized so far and the state
they lead to, its choices are the calls before the first return of the remaining entries, and the
cache compares sets of operations. `reaches_iff` says that its configurations are the beginnings of
linearizations.
-/

namespace LogicRaft.Porcupine

variable {ι ο σ : Type}

structure CacheEntry (σ : Type) where
  linearized : Bitset
  state : σ
deriving DecidableEq

/-- `map[uint64][]cacheEntry`, by the hash of the bitset. -/
abbrev Cache (σ : Type) := Finmap fun _ : BitVec 64 => List (CacheEntry σ)

/-- `cache[hash]`, empty where there is none. -/
def Cache.bucket (cache : Cache σ) (hash : BitVec 64) : List (CacheEntry σ) :=
  (cache.lookup hash).getD []

def cacheContains (model : Model ι ο σ) (cache : Cache σ) (entry : CacheEntry σ) : Bool :=
  (cache.bucket entry.linearized.hash).any fun elem =>
    entry.linearized.equals elem.linearized && model.equal entry.state elem.state

structure CallsEntry (σ : Type) where
  entry : ℕ
  state : σ
deriving DecidableEq

/-- For each operation the longest beginning of a linearization found that has it. -/
abbrev Longest := List (Option (List ℤ))

/-- Variables of the loop of `checkSingle`. -/
structure Search (ι ο σ : Type) where
  nodes : Nodes ι ο
  entry : Option ℕ
  state : σ
  linearized : Bitset
  cache : Cache σ
  calls : List (CallsEntry σ)
  longest : Longest

/-- What a turn of the loop ends in. -/
inductive Progress (ι ο σ : Type)
  | running (s : Search ι ο σ)
  | returned (ok : Bool) (longest : Longest)

/-- `model.Step` on the values of a call and its return. -/
def Model.stepValue (model : Model ι ο σ) (state : σ) : Value ι ο → Value ι ο → Option (Bool × σ)
  | .input i, .output o => some (model.step state i o)
  | _, _ => none

/-- The ids of the operations linearized, in order. -/
def Search.seq (s : Search ι ο σ) : Option (List ℤ) :=
  s.calls.mapM fun v => s.nodes[v.entry]?.map Node.id

/-- `seq` is noted for operation `id` unless a sequence as long stands there. -/
def recordOne (seq : List ℤ) (longest : Longest) (id : ℤ) : Option Longest := do
  let i ← id.toNat?
  match ← longest[i]? with
  | none => some (longest.set i (some seq))
  | some l => if seq.length > l.length then some (longest.set i (some seq)) else some longest

/-- Lines 219 to 234, for each of the calls. -/
def recordLongest (seq : List ℤ) (longest : Longest) : Option Longest :=
  seq.foldlM (recordOne seq) longest

/-- Lines 195 to 213, at a call: linearize its operation next unless the model refuses it or the
configuration has been entered before. -/
def Search.tryCall (model : Model ι ο σ) (head : ℕ) (s : Search ι ο σ) (entry matching : ℕ) :
    Option (Search ι ο σ) := do
  let node ← s.nodes[entry]?
  let matchNode ← s.nodes[matching]?
  let (ok, newState) ← model.stepValue s.state node.value matchNode.value
  if ok then
    let newLinearized ← s.linearized.set (← node.id.toNat?)
    let newCacheEntry : CacheEntry σ := ⟨newLinearized, newState⟩
    if !cacheContains model s.cache newCacheEntry then
      let hash := newLinearized.hash
      let nodes ← s.nodes.lift entry
      some { nodes := nodes, entry := ← nodes.next head, state := newState,
             linearized := ← s.linearized.set (← node.id.toNat?),
             cache := s.cache.insert hash (s.cache.bucket hash ++ [newCacheEntry]),
             calls := s.calls ++ [⟨entry, s.state⟩], longest := s.longest }
    else some { s with entry := node.next }
  else some { s with entry := node.next }

/-- Lines 218 to 241, at a return with an operation linearized: take the last one back. -/
def Search.backtrack (computePartial : Bool) (s : Search ι ο σ) (callsTop : CallsEntry σ) :
    Option (Search ι ο σ) := do
  let longest ← if computePartial then recordLongest (← s.seq) s.longest else some s.longest
  let node ← s.nodes[callsTop.entry]?
  let linearized ← s.linearized.clear (← node.id.toNat?)
  let nodes ← s.nodes.unlift callsTop.entry
  some { nodes := nodes, entry := ← nodes.next callsTop.entry, state := callsTop.state,
         linearized := linearized, cache := s.cache, calls := s.calls.dropLast, longest := longest }

/-- One turn of the loop `for headEntry.next != nil`, with what follows the loop when it ends. -/
def Search.turn (model : Model ι ο σ) (computePartial : Bool) (head : ℕ) (kill : Bool)
    (s : Search ι ο σ) : Option (Progress ι ο σ) := do
  if (← s.nodes.next head) = none then
    let seq ← s.seq
    some (.returned true (List.replicate s.longest.length (some seq)))
  else if kill then some (.returned false s.longest)
  else
    let entry ← s.entry
    match (← s.nodes[entry]?).matching with
    | some matching => (s.tryCall model head entry matching).map .running
    | none =>
      match s.calls.getLast? with
      | none => some (.returned false s.longest)
      | some callsTop => (s.backtrack computePartial callsTop).map .running

/-- `checkSingle` up to its loop: the address of `headEntry` and the variables. -/
def startSearch (model : Model ι ο σ) (history : List (Entry ι ο)) : Option (ℕ × Search ι ο σ) := do
  let (nodes, entry) ← makeLinkedEntries history
  let n := (← nodes.lengthFrom nodes.length entry) / 2
  let headEntry := nodes.length
  let nodes ← Nodes.insertBefore
    (nodes ++ [{ value := .nil, matching := none, id := -1 }]) headEntry entry
  some (headEntry,
    { nodes := nodes, entry := entry, state := model.init, linearized := Bitset.newBitset n,
      cache := ∅, calls := [], longest := List.replicate n none })

/-- The loop, for at most `fuel` turns; turn `k` reads `kill k`. -/
def checkLoop (model : Model ι ο σ) (computePartial : Bool) (head : ℕ) :
    ℕ → (ℕ → Bool) → Search ι ο σ → Option (Bool × Longest)
  | 0, _, _ => none
  | fuel + 1, kill, s => do
    match ← s.turn model computePartial head (kill 0) with
    | .running s => checkLoop model computePartial head fuel (fun k => kill (k + 1)) s
    | .returned ok longest => some (ok, longest)

def checkSingle (model : Model ι ο σ) (history : List (Entry ι ο)) (computePartial : Bool)
    (kill : ℕ → Bool) (fuel : ℕ) : Option (Bool × Longest) := do
  let (head, s) ← startSearch model history
  checkLoop model computePartial head fuel kill s

/-! ## The search over lists -/

/-- The operations linearized so far, and the state they lead to. -/
structure Config (σ : Type) where
  ids : List ℤ
  state : σ

/-- Calls that stand before every return of `cells`. -/
def openCalls (cells : List (Cell ι ο)) : List (Cell ι ο) := cells.takeWhile fun x => x.2.IsCall

def problem (model : Model ι ο σ) (entries : List (Entry ι ο)) :
    MemoSearch.Problem (Config σ) (Cell ι ο) where
  start := ⟨[], model.init⟩
  choices c := openCalls (live entries c.ids)
  next c x := (stepOf model entries c.state x.2.id).map fun t => ⟨c.ids ++ [x.2.id], t⟩
  accept c := (live entries c.ids).isEmpty
  same c d := decide (c.ids.toFinset = d.ids.toFinset) && model.equal c.state d.state

section Problem

variable {model : Model ι ο σ} {entries : List (Entry ι ο)} {w : List ℤ} {x : Cell ι ο}

theorem isCall_of_mem_openCalls {cells : List (Cell ι ο)} (hx : x ∈ openCalls cells) :
    x ∈ cells ∧ x.2.IsCall :=
  ⟨(List.takeWhile_sublist _).subset hx, by simpa using List.mem_takeWhile_imp hx⟩

theorem openCalls_cons_call {cells : List (Cell ι ο)} (hx : x.2.IsCall) :
    openCalls (x :: cells) = x :: openCalls cells := by simp [openCalls, hx]

theorem openCalls_cons_return {cells : List (Cell ι ο)} (hx : x.2.IsReturn) :
    openCalls (x :: cells) = [] := by simp [openCalls, Entry.not_isCall.mpr hx]

/-- A cell stands before every return or has one before it. -/
theorem mem_openCalls_or {cells : List (Cell ι ο)} (hx : x ∈ cells) (hcall : x.2.IsCall) :
    x ∈ openCalls cells ∨ ∃ y, y.2.IsReturn ∧ [y, x].Sublist cells := by
  induction cells with
  | nil => cases hx
  | cons z cells ih =>
    by_cases hz : z.2.IsCall
    · rw [openCalls_cons_call hz]
      obtain rfl | hx := List.mem_cons.mp hx
      · exact .inl List.mem_cons_self
      · obtain h | ⟨y, hy, hsub⟩ := ih hx
        · exact .inl (List.mem_cons_of_mem z h)
        · exact .inr ⟨y, hy, hsub.cons z⟩
    · obtain rfl | hx := List.mem_cons.mp hx
      · exact absurd hcall hz
      · exact .inr ⟨z, Entry.not_isCall.mp hz, (List.singleton_sublist.mpr hx).cons_cons z⟩

/-- A cell before every return has no return before it. -/
theorem not_pair_of_mem_openCalls {cells : List (Cell ι ο)} (hcells : cells.Nodup)
    (hx : x ∈ openCalls cells) {y : Cell ι ο} (hy : y.2.IsReturn) : ¬ [y, x].Sublist cells := by
  obtain ⟨A, B, hAB⟩ := List.append_of_mem hx
  have hsplit : cells = A ++ x :: (B ++ cells.dropWhile fun x => x.2.IsCall) := by
    rw [← List.cons_append, ← List.append_assoc, ← hAB, openCalls, List.takeWhile_append_dropWhile]
  intro hsub
  have hdisj := List.nodup_append.mp (hsplit ▸ hcells)
  have hyA : y ∉ A := by
    intro hmem
    have hmem' : y ∈ openCalls cells := by rw [hAB]; exact List.mem_append_left _ hmem
    exact Entry.not_isReturn.mpr (isCall_of_mem_openCalls hmem').2 hy
  have hyx : y ≠ x := by
    rintro rfl
    exact Entry.not_isReturn.mpr (isCall_of_mem_openCalls hx).2 hy
  -- so `y` comes after `x`, and both orders hold
  have hymem : y ∈ A ++ x :: (B ++ cells.dropWhile fun x => x.2.IsCall) :=
    hsplit ▸ hsub.subset List.mem_cons_self
  have hyafter := ((List.mem_append.mp hymem).resolve_left hyA |> List.mem_cons.mp).resolve_left hyx
  have hxy : [x, y].Sublist cells := by
    rw [hsplit]
    exact ((List.singleton_sublist.mpr hyafter).cons_cons x).trans (List.sublist_append_right _ _)
  exact not_pair_sublist_swap hcells hxy hsub

variable (hwf : WellFormed entries)

include hwf

/-- The open calls of the remaining entries are the operations that may stand next. -/
theorem WellFormed.next_iff (i : ℤ) :
    Linearizability.Next (Before entries) (callIds entries) w i ↔
      ∃ x ∈ openCalls (live entries w), x.2.id = i := by
  constructor
  · rintro ⟨hmem, hfresh, hmin⟩
    obtain ⟨c, hc, hcall, rfl⟩ := mem_callIds.mp hmem
    obtain ⟨x, hx, rfl⟩ := exists_cell hc
    have hlive : x ∈ live entries w := mem_live.mpr ⟨hx, hfresh⟩
    obtain h | ⟨y, hret, hsub⟩ := mem_openCalls_or hlive hcall
    · exact ⟨x, h, rfl⟩
    · -- a remaining operation that returned before the call, the call's own return excluded
      exfalso
      obtain ⟨hy, hyw⟩ := mem_live.mp (hsub.subset List.mem_cons_self)
      have hsub' := pair_sublist_entries (hsub.trans (live_sublist w))
      refine hmin y.2.id (hwf.asked y.2 (mem_of_mem_cellsOf hy) hret) hyw (fun heq => ?_)
        ⟨y.2, x.2, hret, hcall, rfl, rfl, hsub'⟩
      obtain ⟨r, hr, hid, hsub''⟩ := hwf.answered x.2 hc hcall
      obtain rfl : r = y.2 := hwf.eq_of_mem (hsub''.subset (by simp)) (mem_of_mem_cellsOf hy)
        (hr.trans hret.symm) (hid.trans heq.symm)
      exact not_pair_sublist_swap hwf.nodup hsub'' hsub'
  · rintro ⟨x, hx, rfl⟩
    obtain ⟨hlive, hcall⟩ := isCall_of_mem_openCalls hx
    obtain ⟨hcell, hxw⟩ := mem_live.mp hlive
    have hmem := mem_of_mem_cellsOf hcell
    refine ⟨mem_callIds.mpr ⟨x.2, hmem, hcall, rfl⟩, hxw, ?_⟩
    rintro j - hjw - ⟨r, c, hret, hc, rfl, hid, hsub⟩
    obtain rfl : c = x.2 := hwf.eq_of_mem (hsub.subset (by simp)) hmem (hc.trans hcall.symm) hid
    obtain ⟨y, x', rfl, hx', hcells⟩ := pair_sublist_cells hsub
    obtain rfl : x' = x := hwf.cell_eq (hcells.subset (by simp)) hcell (by rw [hx']) (by rw [hx'])
    refine not_pair_of_mem_openCalls (nodup_live w) hx hret ?_
    have hfilter := hcells.filter fun z => z.2.id ∉ w
    rwa [List.filter_cons_of_pos (by simpa using hjw), List.filter_cons_of_pos (by simpa using hxw),
      List.filter_nil] at hfilter

/-- The configurations the search can reach are the beginnings of linearizations. -/
theorem WellFormed.reaches_iff (s : σ) :
    (problem model entries).Reaches ⟨w, s⟩ ↔
      Linearizability.Partial (stepOf model entries) model.init (Before entries)
        (callIds entries) w s := by
  constructor
  · intro h
    suffices hall : ∀ d, (problem model entries).Reaches d →
        Linearizability.Partial (stepOf model entries) model.init (Before entries) (callIds entries)
          d.ids d.state from hall _ h
    intro d hd
    induction hd with
    | refl => exact Linearizability.partial_nil
    | tail _ hedge ih =>
      obtain ⟨x, hx, hnext⟩ := hedge
      obtain ⟨t, hstep, rfl⟩ := Option.map_eq_some_iff.mp hnext
      exact Linearizability.partial_concat.mpr ⟨_, ih, (hwf.next_iff _).mpr ⟨x, hx, rfl⟩, hstep⟩
  · intro h
    induction w using List.reverseRecOn generalizing s with
    | nil =>
      obtain rfl : model.init = s := Option.some.inj h.legal
      exact Relation.ReflTransGen.refl
    | append_singleton w i ih =>
      obtain ⟨t, ht, hnext, hstep⟩ := Linearizability.partial_concat.mp h
      obtain ⟨x, hx, rfl⟩ := (hwf.next_iff i).mp hnext
      exact Relation.ReflTransGen.tail (ih t ht) ⟨x, hx, by simp [problem, hstep]⟩

/-- A configuration is accepted exactly when it has all operations. -/
theorem WellFormed.accept_iff (c : Config σ) :
    (problem model entries).accept c = true ↔ callIds entries ⊆ c.ids := by
  simp only [problem, List.isEmpty_iff]
  constructor
  · intro hnil i hi
    by_contra hiw
    obtain ⟨e, he, -, rfl⟩ := mem_callIds.mp hi
    obtain ⟨x, hx, rfl⟩ := exists_cell he
    exact List.not_mem_nil (hnil ▸ mem_live.mpr ⟨hx, hiw⟩)
  · intro hall
    refine List.eq_nil_iff_forall_not_mem.mpr fun x hx => ?_
    obtain ⟨hcell, hxw⟩ := mem_live.mp hx
    refine hxw (hall ?_)
    by_cases hcall : x.2.IsCall
    · exact mem_callIds.mpr ⟨x.2, mem_of_mem_cellsOf hcell, hcall, rfl⟩
    · exact hwf.asked x.2 (mem_of_mem_cellsOf hcell) (Entry.not_isCall.mp hcall)

end Problem

end LogicRaft.Porcupine
