import LogicRaft.Porcupine.Checker

/-!
# The loop of `checkSingle` follows the search over lists

`Sim` relates the variables of the loop to a state of the search `problem`: the heap represents the
entries of the operations not linearized, `entry` points to the first entry not yet passed, the
bitset and the cache hold the operations of the path and of the configurations entered, and the
stack of calls has the choices of the levels. `Levels` also records that unlifting the call of a
level restores the heap of the level below it, which is how the loop gets back there.

Turn and step agree (`Sim.turn`): the loop goes on exactly when the search does, to related states,
and it returns `true` exactly in an accepted configuration.
-/

namespace LogicRaft.Porcupine

variable {ι ο σ : Type}

/-! ## Sets of operations -/

/-- The positions of the operations `ids` in a bitset. -/
def idSet (ids : List ℤ) : Finset ℕ := (ids.map Int.toNat).toFinset

/-- The ids of a history with `n` operations. -/
def InRange (n : ℕ) (ids : List ℤ) : Prop := ∀ i ∈ ids, 0 ≤ i ∧ i < n

section Ids

variable {n : ℕ} {ids ids' : List ℤ} {i : ℤ}

theorem idSet_concat (ids : List ℤ) (i : ℤ) : idSet (ids ++ [i]) = insert i.toNat (idSet ids) := by
  ext k
  simp [idSet]

theorem InRange.concat (h : InRange n ids) (h0 : 0 ≤ i) (hn : i < n) : InRange n (ids ++ [i]) := by
  intro j hj
  obtain hj | hj := List.mem_append.mp hj
  · exact h j hj
  · obtain rfl := List.mem_singleton.mp hj
    exact ⟨h0, hn⟩

theorem InRange.of_append (h : InRange n (ids ++ ids')) : InRange n ids := fun i hi =>
  h i (List.mem_append_left _ hi)

theorem InRange.mem_idSet (h : InRange n ids) (h0 : 0 ≤ i) : i.toNat ∈ idSet ids ↔ i ∈ ids := by
  simp only [idSet, List.mem_toFinset, List.mem_map]
  constructor
  · rintro ⟨j, hj, heq⟩
    obtain rfl : j = i := by have := (h j hj).1; omega
    exact hj
  · exact fun hi => ⟨i, hi, rfl⟩

/-- Positions determine the set of ids. -/
theorem InRange.idSet_eq_iff (h : InRange n ids) (h' : InRange n ids') :
    idSet ids = idSet ids' ↔ ids.toFinset = ids'.toFinset := by
  constructor
  · intro heq
    ext i
    simp only [List.mem_toFinset]
    by_cases h0 : 0 ≤ i
    · rw [← h.mem_idSet h0, ← h'.mem_idSet h0, heq]
    · exact iff_of_false (fun hi => h0 (h i hi).1) fun hi => h0 (h' i hi).1
  · intro heq
    have hmem : ∀ i, i ∈ ids ↔ i ∈ ids' := fun i => by
      rw [← List.mem_toFinset, heq, List.mem_toFinset]
    ext k
    simp only [idSet, List.mem_toFinset, List.mem_map, hmem]

end Ids

/-! ## The cache -/

/-- A cache entry stands for a configuration. -/
structure EntryRep (n : ℕ) (e : CacheEntry σ) (c : Config σ) : Prop where
  linearized : Bitset.Holds n e.linearized (idSet c.ids)
  range : InRange n c.ids
  state : e.state = c.state

/-- The buckets of the cache are the configurations entered, in order, divided by their hashes. -/
def CacheRep (n : ℕ) (cache : Cache σ) (configs : List (Config σ)) : Prop :=
  ∃ all : List (CacheEntry σ), List.Forall₂ (EntryRep n) all configs ∧
    ∀ hash, cache.bucket hash = all.filter fun e => e.linearized.hash = hash

section Cache

variable {model : Model ι ο σ} {entries : List (Entry ι ο)} {n : ℕ} {cache : Cache σ}
  {configs : List (Config σ)} {e : CacheEntry σ} {c : Config σ}

theorem cacheRep_empty : CacheRep n (∅ : Cache σ) [] := ⟨[], .nil, fun _ => rfl⟩

/-- Comparing bitsets is comparing sets of operations. -/
theorem EntryRep.equals_iff {e' : CacheEntry σ} {c' : Config σ} (he : EntryRep n e c)
    (he' : EntryRep n e' c') :
    e.linearized.equals e'.linearized = true ↔ c.ids.toFinset = c'.ids.toFinset := by
  rw [Bitset.equals_iff, he.linearized.eq_iff he'.linearized, he.range.idSet_eq_iff he'.range]

/-- Looking into the bucket of the hash finds what looking through everything would find. -/
theorem CacheRep.contains (model : Model ι ο σ) (entries : List (Entry ι ο))
    (hcache : CacheRep n cache configs) (he : EntryRep n e c) :
    cacheContains model cache e = configs.any ((problem model entries).same c) := by
  obtain ⟨all, hall, hbucket⟩ := hcache
  have hany : cacheContains model cache e = all.any fun elem =>
      e.linearized.equals elem.linearized && model.equal e.state elem.state := by
    rw [cacheContains, hbucket, List.any_filter]
    refine congrArg (all.any ·) (funext fun elem => ?_)
    by_cases heq : e.linearized.equals elem.linearized = true
    · simp [(Bitset.equals_iff _ _).mp heq]
    · simp [heq]
  rw [hany]
  clear hbucket hany
  induction hall with
  | nil => rfl
  | cons he' _ ih =>
    rw [List.any_cons, List.any_cons, ih]
    congr 1
    simp only [problem, he.state, he'.state]
    congr 1
    rw [Bool.eq_iff_iff, decide_eq_true_eq, he.equals_iff he']

theorem CacheRep.insert {b : Bitset} {new : σ} (hcache : CacheRep n cache configs)
    (he : EntryRep n ⟨b, new⟩ c) :
    CacheRep n (Finmap.insert b.hash (cache.bucket b.hash ++ [⟨b, new⟩]) cache)
      (configs ++ [c]) := by
  obtain ⟨all, hall, hbucket⟩ := hcache
  refine ⟨all ++ [⟨b, new⟩], List.rel_append hall (.cons he .nil), fun hash => ?_⟩
  rw [List.filter_append, Cache.bucket]
  by_cases hh : b.hash = hash
  · subst hh
    rw [Finmap.lookup_insert, Option.getD_some, hbucket]
    simp
  · rw [Finmap.lookup_insert_of_ne _ (Ne.symm hh), List.filter_cons_of_neg (by simpa using hh)]
    simpa [Cache.bucket] using hbucket hash

end Cache

/-! ## The longest sequences -/

/-- `l'` comes from `l` by noting `seq` for some of its operations, never over a longer one. -/
structure Notes (seq : List ℤ) (l l' : Longest) : Prop where
  length : l'.length = l.length
  change : ∀ k : ℕ, l'[k]? = l[k]? ∨ l'[k]? = some (some seq) ∧ (k : ℤ) ∈ seq
  grows : ∀ (k : ℕ) q, l[k]? = some (some q) → ∃ q', l'[k]? = some (some q') ∧ q.length ≤ q'.length

section Longest

variable {seq : List ℤ} {l l' l'' : Longest}

theorem Notes.refl (seq : List ℤ) (l : Longest) : Notes seq l l :=
  ⟨rfl, fun _ => .inl rfl, fun _ q hq => ⟨q, hq, le_rfl⟩⟩

theorem Notes.trans (h : Notes seq l l') (h' : Notes seq l' l'') : Notes seq l l'' where
  length := h'.length.trans h.length
  change := fun k => by
    obtain heq | hnew := h'.change k
    · rw [heq]
      exact h.change k
    · exact .inr hnew
  grows := fun k q hq => by
    obtain ⟨q', hq', hle⟩ := h.grows k q hq
    obtain ⟨q'', hq'', hle'⟩ := h'.grows k q' hq'
    exact ⟨q'', hq'', hle.trans hle'⟩

/-- Noting `seq` at `k`, where it is longer than what stands there. -/
theorem Notes.set {k : ℕ} (hk : k < l.length) (hmem : (k : ℤ) ∈ seq)
    (hlonger : ∀ q, l[k]? = some (some q) → q.length ≤ seq.length) :
    Notes seq l (l.set k (some seq)) where
  length := List.length_set
  change := fun j => by
    by_cases hj : k = j
    · subst hj
      exact .inr ⟨by simp [hk], hmem⟩
    · exact .inl (List.getElem?_set_ne hj)
  grows := fun j q hq => by
    by_cases hj : k = j
    · subst hj
      exact ⟨seq, by simp [hk], hlonger q hq⟩
    · exact ⟨q, by rw [List.getElem?_set_ne hj, hq], le_rfl⟩

theorem recordOne_spec {i : ℤ} (hmem : i ∈ seq) (h0 : 0 ≤ i) (hi : i < l.length) :
    ∃ l', recordOne seq l i = some l' ∧ Notes seq l l' ∧
      ∃ q, l'[i.toNat]? = some (some q) ∧ seq.length ≤ q.length := by
  obtain ⟨k, rfl⟩ := Int.eq_ofNat_of_zero_le h0
  have hk : k < l.length := by omega
  have hnat : Int.toNat? (k : ℤ) = some k := rfl
  simp only [recordOne, hnat, Option.bind_eq_bind, Option.bind_some, Int.toNat_natCast,
    List.getElem?_eq_getElem hk]
  cases hold : l[k] with
  | none =>
    refine ⟨_, rfl, Notes.set hk hmem fun q hq => ?_, seq, by simp [hk], le_rfl⟩
    simp [List.getElem?_eq_getElem hk, hold] at hq
  | some q =>
    by_cases hlt : seq.length > q.length
    · refine ⟨_, if_pos hlt, Notes.set hk hmem fun q' hq' => ?_, seq, by simp [hk], le_rfl⟩
      obtain rfl : q = q' := by simpa [List.getElem?_eq_getElem hk, hold] using hq'
      exact hlt.le
    · exact ⟨l, if_neg hlt, Notes.refl seq l, q, by rw [List.getElem?_eq_getElem hk, hold],
        not_lt.mp hlt⟩

theorem foldlM_recordOne_spec {ids : List ℤ} (hsub : ids ⊆ seq)
    (hrange : ∀ i ∈ ids, 0 ≤ i ∧ i < l.length) :
    ∃ l', ids.foldlM (recordOne seq) l = some l' ∧ Notes seq l l' ∧
      ∀ i ∈ ids, ∃ q, l'[i.toNat]? = some (some q) ∧ seq.length ≤ q.length := by
  induction ids generalizing l with
  | nil => exact ⟨l, rfl, Notes.refl seq l, fun i hi => absurd hi List.not_mem_nil⟩
  | cons i ids ih =>
    obtain ⟨h0, hi⟩ := hrange i List.mem_cons_self
    obtain ⟨l₁, hl₁, hnotes₁, q, hq, hle⟩ := recordOne_spec (hsub List.mem_cons_self) h0 hi
    obtain ⟨l₂, hl₂, hnotes₂, hids⟩ := ih (l := l₁) (fun j hj => hsub (List.mem_cons_of_mem i hj))
      (fun j hj => by rw [hnotes₁.length]; exact hrange j (List.mem_cons_of_mem i hj))
    refine ⟨l₂, by rw [List.foldlM_cons, hl₁]; exact hl₂, hnotes₁.trans hnotes₂, fun j hj => ?_⟩
    obtain rfl | hj := List.mem_cons.mp hj
    · obtain ⟨q', hq', hle'⟩ := hnotes₂.grows _ q hq
      exact ⟨q', hq', hle.trans hle'⟩
    · exact hids j hj

/-- `seq` is noted for each of its operations, unless a sequence as long stands there. -/
theorem recordLongest_spec (hrange : InRange l.length seq) :
    ∃ l', recordLongest seq l = some l' ∧ Notes seq l l' ∧
      ∀ i ∈ seq, ∃ q, l'[i.toNat]? = some (some q) ∧ seq.length ≤ q.length :=
  foldlM_recordOne_spec (List.Subset.refl seq) hrange

end Longest

/-! ## Levels -/

/-- The stack of calls, top first, and the levels of the search below the operations `ids`: at each
level a call was lifted, all entries before it being calls, and unlifting it gives back a heap that
represents the entries of that level. -/
inductive Levels (entries : List (Entry ι ο)) :
    Nodes ι ο → List ℤ → List (CallsEntry σ) → List (Config σ × List (Cell ι ο)) → Prop
  | bottom {h : Nodes ι ο} : Levels entries h [] [] []
  | level {h h' : Nodes ι ο} {c : Config σ} {x : Cell ι ο} {A T : List (Cell ι ο)}
      {calls : List (CallsEntry σ)} {stack : List (Config σ × List (Cell ι ο))}
      (hlive : live entries c.ids = A ++ x :: T) (hA : ∀ y ∈ A, y.2.IsCall) (hcall : x.2.IsCall)
      (hback : h.unlift x.1 = some h') (hrep : Rep entries h' (live entries c.ids))
      (hbelow : Levels entries h' c.ids calls stack) :
      Levels entries h (c.ids ++ [x.2.id]) (⟨x.1, c.state⟩ :: calls) ((c, openCalls T) :: stack)

/-- What has been noted as longest: beginnings of linearizations, and for each configuration given
up sequences as long as its own. -/
structure LongestOk (model : Model ι ο σ) (entries : List (Entry ι ο)) (computePartial : Bool)
    (longest : Longest) (finished : List (Config σ)) : Prop where
  length : longest.length = (callIds entries).length
  sound : ∀ (k : ℕ) q, longest[k]? = some (some q) →
    (k : ℤ) ∈ q ∧ ∃ s, (problem model entries).Reaches ⟨q, s⟩
  complete : computePartial = true → ∀ c ∈ finished, ∀ i ∈ c.ids, ∃ q,
    longest[i.toNat]? = some (some q) ∧ c.ids.length ≤ q.length

/-- The variables of the loop stand for a state of the search over lists. -/
structure Sim (model : Model ι ο σ) (entries : List (Entry ι ο)) (computePartial : Bool)
    (s : Search ι ο σ) (t : MemoSearch.State (Config σ) (Cell ι ο)) : Prop where
  rep : Rep entries s.nodes (live entries t.top.ids)
  entry : ∃ A T, live entries t.top.ids = A ++ T ∧ (∀ y ∈ A, y.2.IsCall) ∧
    s.entry = (T.map Prod.fst).head? ∧ t.todo = openCalls T
  state : s.state = t.top.state
  linearized : Bitset.Holds (callIds entries).length s.linearized (idSet t.top.ids)
  range : InRange (callIds entries).length t.top.ids
  cache : CacheRep (callIds entries).length s.cache t.cache
  levels : Levels entries s.nodes t.top.ids s.calls.reverse t.stack
  longest : LongestOk model entries computePartial s.longest t.finished

section Levels

variable {model : Model ι ο σ} {entries : List (Entry ι ο)} {computePartial : Bool}
  {s : Search ι ο σ} {t : MemoSearch.State (Config σ) (Cell ι ο)} {h : Nodes ι ο}

/-- The calls on the stack are the operations linearized. -/
theorem Levels.ids {h' : Nodes ι ο} {ids : List ℤ} {calls : List (CallsEntry σ)}
    {stack : List (Config σ × List (Cell ι ο))} {cells : List (Cell ι ο)}
    (hlevels : Levels entries h ids calls stack) (hrep : Rep entries h' cells) :
    calls.reverse.mapM (fun v => h'[v.entry]?.map Node.id) = some ids := by
  induction hlevels with
  | bottom => rfl
  | @level _ _ c x A T calls stack hlive hA hcall hback _ hbelow ih =>
    have hx : x ∈ cellsOf entries := (live_sublist c.ids).subset (by rw [hlive]; simp)
    obtain ⟨node, hnode, -, hid, -⟩ := hrep.node hx
    rw [List.reverse_cons, List.mapM_append, ih]
    simp [hnode, hid]

theorem Sim.seq (hsim : Sim model entries computePartial s t) : s.seq = some t.top.ids := by
  have h := hsim.levels.ids hsim.rep
  rwa [List.reverse_reverse] at h

/-- While operations remain, the loop stands at an entry of one of them. -/
theorem Sim.entry_cons (hwf : WellFormed entries) (hsim : Sim model entries computePartial s t)
    (hacc : (problem model entries).accept t.top = false) :
    ∃ A x T, live entries t.top.ids = A ++ x :: T ∧ (∀ y ∈ A, y.2.IsCall) ∧ s.entry = some x.1 ∧
      t.todo = openCalls (x :: T) := by
  obtain ⟨A, T, hlive, hA, hentry, htodo⟩ := hsim.entry
  cases T with
  | cons x T => exact ⟨A, x, T, hlive, hA, hentry, htodo⟩
  | nil =>
    -- a list of calls alone would lack the return of its first
    exfalso
    rw [List.append_nil] at hlive
    cases A with
    | nil => simp [problem, hlive] at hacc
    | cons x A =>
      obtain ⟨B, y, C, rfl, hret, -⟩ := hwf.live_split (A := []) (hA x List.mem_cons_self) hlive
      exact Entry.not_isReturn.mpr (hA y (by simp)) hret

/-- The end of the loop. -/
theorem Sim.turn_accept (hsim : Sim model entries computePartial s t)
    (hacc : (problem model entries).accept t.top = true) :
    s.turn model computePartial entries.length false =
      some (.returned true (List.replicate (callIds entries).length (some t.top.ids))) := by
  have hnil : live entries t.top.ids = [] := by simpa [problem] using hacc
  simp [Search.turn, hsim.rep.next_head, hnil, hsim.seq, hsim.longest.length]

/-- A turn while operations remain, at the entry `x`. -/
theorem Sim.turn_eq (hsim : Sim model entries computePartial s t) {A T : List (Cell ι ο)}
    {x : Cell ι ο}
    (hlive : live entries t.top.ids = A ++ x :: T) (hentry : s.entry = some x.1) {node : Node ι ο}
    (hnode : s.nodes[x.1]? = some node) :
    s.turn model computePartial entries.length false =
      match node.matching with
      | some matching => (s.tryCall model entries.length x.1 matching).map .running
      | none =>
        match s.calls.getLast? with
        | none => some (.returned false s.longest)
        | some callsTop => (s.backtrack computePartial callsTop).map .running := by
  have hhead : ((live entries t.top.ids).map Prod.fst).head? ≠ none := by rw [hlive]; simp
  simp only [Search.turn, hsim.rep.next_head, Option.bind_eq_bind, Option.bind_some,
    if_neg hhead, hentry, hnode]
  rfl

/-! ## At a call -/

/-- The model's step on the values of a call and its return. -/
theorem WellFormed.stepValue (model : Model ι ο σ) (hwf : WellFormed entries) {x y : Cell ι ο}
    (hx : x ∈ cellsOf entries)
    (hcall : x.2.IsCall) (hy : y ∈ cellsOf entries) (hret : y.2.IsReturn) (hid : y.2.id = x.2.id)
    (st : σ) :
    ∃ ok new, model.stepValue st x.2.value y.2.value = some (ok, new) ∧
      stepOf model entries st x.2.id = if ok then some new else none := by
  have hx' := mem_of_mem_cellsOf hx
  have hy' := mem_of_mem_cellsOf hy
  obtain ⟨i, hi⟩ := hwf.inputs x.2 hx' hcall
  obtain ⟨o, ho⟩ := hwf.outputs y.2 hy' hret
  have hout : outputOf entries x.2.id = some o := hid ▸ hwf.outputOf_eq hy' hret ho
  refine ⟨(model.step st i o).1, (model.step st i o).2, by rw [hi, ho]; rfl, ?_⟩
  simp only [stepOf, hwf.inputOf_eq hx' hcall hi, hout, Option.bind_eq_bind, Option.bind_some,
    Model.apply]

/-- Passing over a call. -/
theorem Sim.pass (hsim : Sim model entries computePartial s t) {A T : List (Cell ι ο)}
    {x : Cell ι ο}
    (hlive : live entries t.top.ids = A ++ x :: T) (hA : ∀ y ∈ A, y.2.IsCall) (hcall : x.2.IsCall) :
    Sim model entries computePartial { s with entry := (T.map Prod.fst).head? }
      { t with todo := openCalls T } := by
  refine { hsim with entry := ⟨A ++ [x], T, by simp [hlive], fun y hy => ?_, rfl, rfl⟩ }
  obtain hy | hy := List.mem_append.mp hy
  · exact hA y hy
  · obtain rfl := List.mem_singleton.mp hy
    exact hcall

/-- The configuration that a call leads to, as the loop computes it. -/
theorem Sim.entryRep (hwf : WellFormed entries) (hsim : Sim model entries computePartial s t)
    {x : Cell ι ο} (hx : x ∈ live entries t.top.ids) (hcall : x.2.IsCall) (new : σ) :
    ∃ k b, Int.toNat? x.2.id = some k ∧ s.linearized.set k = some b ∧
      EntryRep (callIds entries).length ⟨b, new⟩ ⟨t.top.ids ++ [x.2.id], new⟩ := by
  obtain ⟨hcell, -⟩ := mem_live.mp hx
  obtain ⟨h0, hn⟩ := (hwf.range x.2.id).mp
    (mem_callIds.mpr ⟨x.2, mem_of_mem_cellsOf hcell, hcall, rfl⟩)
  obtain ⟨k, hk⟩ := Int.eq_ofNat_of_zero_le h0
  obtain ⟨b, hb, hholds⟩ := hsim.linearized.apply (.set k) (by simp only [Bitset.Edit.pos]; omega)
  refine ⟨k, b, by rw [hk]; rfl, hb, ?_, hsim.range.concat h0 hn, rfl⟩
  rw [idSet_concat, hk]
  exact hholds

/-- Linearizing the operation of a call next. -/
theorem Sim.enter (hwf : WellFormed entries) (hsim : Sim model entries computePartial s t)
    {A T : List (Cell ι ο)} {x : Cell ι ο} (hlive : live entries t.top.ids = A ++ x :: T)
    (hA : ∀ y ∈ A, y.2.IsCall) (hcall : x.2.IsCall) {b : Bitset} {new : σ}
    (hrep : EntryRep (callIds entries).length ⟨b, new⟩ ⟨t.top.ids ++ [x.2.id], new⟩) :
    ∃ h' next, s.nodes.lift x.1 = some h' ∧ h'.next entries.length = some next ∧
      Sim model entries computePartial
        { nodes := h', entry := next, state := new, linearized := b,
          cache := s.cache.insert b.hash (s.cache.bucket b.hash ++ [⟨b, new⟩]),
          calls := s.calls ++ [⟨x.1, s.state⟩], longest := s.longest }
        { top := ⟨t.top.ids ++ [x.2.id], new⟩,
          todo := (problem model entries).choices ⟨t.top.ids ++ [x.2.id], new⟩,
          stack := (t.top, openCalls T) :: t.stack,
          cache := t.cache ++ [⟨t.top.ids ++ [x.2.id], new⟩], finished := t.finished } := by
  obtain ⟨h', hlift, hrep', hback⟩ := hsim.rep.lift hwf hlive hcall
  refine ⟨h', _, hlift, hrep'.next_head, ?_⟩
  refine
    { rep := hrep', entry := ⟨[], live entries (t.top.ids ++ [x.2.id]), rfl,
        fun y hy => absurd hy List.not_mem_nil, rfl, rfl⟩, state := rfl,
      linearized := hrep.linearized, range := hrep.range, cache := hsim.cache.insert hrep,
      levels := ?_, longest := hsim.longest }
  rw [List.reverse_append, List.reverse_singleton, List.singleton_append, hsim.state]
  exact .level hlive hA hcall hback hsim.rep hsim.levels

/-- A turn at a call does what the search does with its first choice. -/
theorem Sim.turn_call (hwf : WellFormed entries) (hsim : Sim model entries computePartial s t)
    {A T : List (Cell ι ο)} {x : Cell ι ο} (hlive : live entries t.top.ids = A ++ x :: T)
    (hA : ∀ y ∈ A, y.2.IsCall) (hentry : s.entry = some x.1) (htodo : t.todo = openCalls (x :: T))
    (hcall : x.2.IsCall) (hacc : (problem model entries).accept t.top = false) :
    ∃ s' t', s.turn model computePartial entries.length false = some (.running s') ∧
      (problem model entries).step t = some t' ∧ Sim model entries computePartial s' t' := by
  have hx : x ∈ live entries t.top.ids := by rw [hlive]; simp
  obtain ⟨hcell, -⟩ := mem_live.mp hx
  obtain ⟨node, hnode, hvalue, hid, -, hmatch⟩ := hsim.rep.node hcell
  obtain ⟨y, hy, hret, hyid, hmatching⟩ := hmatch hcall
  obtain ⟨ynode, hynode, hyvalue, -⟩ := hsim.rep.node hy
  obtain ⟨ok, new, hstep, hstepOf⟩ := hwf.stepValue model hcell hcall hy hret hyid s.state
  have hnext : node.next = (T.map Prod.fst).head? := by
    have h := (hlive ▸ hsim.rep : Rep entries s.nodes (A ++ x :: T)).next_cell
    simpa [Nodes.next, hnode] using h
  rw [openCalls_cons_call hcall] at htodo
  rw [hsim.turn_eq hlive hentry hnode, hmatching]
  rw [hsim.state] at hstep hstepOf
  have hpass := hsim.pass hlive hA hcall
  cases ok with
  | false =>
    -- the model refuses the operation
    refine ⟨{ s with entry := (T.map Prod.fst).head? }, { t with todo := openCalls T }, ?_,
      ?_, hpass⟩
    · simp [Search.tryCall, hnode, hynode, hvalue, hyvalue, hsim.state, hstep, hnext]
    · have hnone : (problem model entries).next t.top x = none := by simp [problem, hstepOf]
      simp [MemoSearch.Problem.step, hacc, htodo, hnone]
  | true =>
    have hsome : (problem model entries).next t.top x = some ⟨t.top.ids ++ [x.2.id], new⟩ := by
      simp [problem, hstepOf]
    obtain ⟨k, b, hk, hset, hrep⟩ := hsim.entryRep hwf hx hcall new
    have hcontains := hsim.cache.contains model entries hrep
    cases hhit : t.cache.any ((problem model entries).same ⟨t.top.ids ++ [x.2.id], new⟩) with
    | true =>
      refine ⟨{ s with entry := (T.map Prod.fst).head? }, { t with todo := openCalls T }, ?_,
        ?_, hpass⟩
      · rw [hhit] at hcontains
        simp [Search.tryCall, hnode, hynode, hvalue, hyvalue, hsim.state, hstep, hnext, hid,
          hk, hset, hcontains]
      · simp only [MemoSearch.Problem.step, hacc, htodo, hsome, hhit, Bool.false_eq_true, if_false,
          if_true]
    | false =>
      obtain ⟨h', next, hlift, hhead, hsim'⟩ := hsim.enter hwf hlive hA hcall hrep
      refine ⟨_, _, ?_, ?_, hsim'⟩
      · rw [hhit] at hcontains
        simp [Search.tryCall, hnode, hynode, hvalue, hyvalue, hsim.state, hstep, hid, hk, hset,
          hcontains, hlift, hhead]
      · simp only [MemoSearch.Problem.step, hacc, htodo, hsome, hhit, Bool.false_eq_true, if_false]

/-! ## At a return -/

/-- Giving up the current configuration notes its operations, if partial linearizations are asked
for. -/
theorem LongestOk.giveUp {longest : Longest} {finished : List (Config σ)} {c : Config σ}
    (hlong : LongestOk model entries computePartial longest finished)
    (hrange : InRange (callIds entries).length c.ids) (hreach : (problem model entries).Reaches c) :
    ∃ longest', (if computePartial then recordLongest c.ids longest else some longest) =
      some longest' ∧ LongestOk model entries computePartial longest' (c :: finished) := by
  cases computePartial with
  | false =>
    exact ⟨longest, rfl, hlong.length, hlong.sound, fun h => by cases h⟩
  | true =>
    rw [← hlong.length] at hrange
    obtain ⟨longest', hrecord, hnotes, hnoted⟩ := recordLongest_spec hrange
    refine ⟨longest', hrecord, hnotes.length.trans hlong.length, fun k q hq => ?_,
      fun _ d hd i hi => ?_⟩
    · obtain hold | ⟨hnew, hmem⟩ := hnotes.change k
      · exact hlong.sound k q (hold ▸ hq)
      · obtain rfl : c.ids = q := by simpa using hnew.symm.trans hq
        exact ⟨hmem, c.state, hreach⟩
    · obtain rfl | hd := List.mem_cons.mp hd
      · exact hnoted i hi
      · obtain ⟨q, hq, hle⟩ := hlong.complete rfl d hd i hi
        obtain ⟨q', hq', hle'⟩ := hnotes.grows _ q hq
        exact ⟨q', hq', hle.trans hle'⟩

/-- Taking back the operation `i` from the bitset. -/
theorem Sim.clear (hsim : Sim model entries computePartial s t) {ids : List ℤ} {i : ℤ}
    (htop : t.top.ids = ids ++ [i]) (hfresh : i ∉ ids) :
    ∃ k b, Int.toNat? i = some k ∧ s.linearized.clear k = some b ∧
      Bitset.Holds (callIds entries).length b (idSet ids) ∧
      InRange (callIds entries).length ids := by
  have hrange := hsim.range
  have hholds := hsim.linearized
  rw [htop] at hrange hholds
  obtain ⟨h0, hn⟩ := hrange i (by simp)
  obtain ⟨k, rfl⟩ := Int.eq_ofNat_of_zero_le h0
  obtain ⟨b, hb, hb'⟩ := hholds.apply (.clear k) (by simp only [Bitset.Edit.pos]; omega)
  refine ⟨k, b, rfl, hb, ?_, hrange.of_append⟩
  have hnotin : k ∉ idSet ids := fun hk =>
    hfresh ((hrange.of_append.mem_idSet (i := (k : ℤ)) h0).mp (by simpa using hk))
  rw [idSet_concat] at hb'
  simpa [Bitset.Edit.applySet, Finset.erase_insert hnotin] using hb'

/-- A turn at a return does what the search does without choices. -/
theorem Sim.turn_return (hinv : MemoSearch.Inv (problem model entries) t)
    (hsim : Sim model entries computePartial s t) {A T : List (Cell ι ο)} {x : Cell ι ο}
    (hlive : live entries t.top.ids = A ++ x :: T) (hentry : s.entry = some x.1)
    (htodo : t.todo = openCalls (x :: T)) (hret : x.2.IsReturn)
    (hacc : (problem model entries).accept t.top = false) :
    (∃ s' t', s.turn model computePartial entries.length false = some (.running s') ∧
      (problem model entries).step t = some t' ∧ Sim model entries computePartial s' t') ∨
    s.turn model computePartial entries.length false = some (.returned false s.longest) ∧
      (problem model entries).step t = none := by
  have hx : x ∈ live entries t.top.ids := by rw [hlive]; simp
  obtain ⟨node, hnode, -, -, hmatching, -⟩ := hsim.rep.node (mem_live.mp hx).1
  rw [openCalls_cons_return hret] at htodo
  rw [hsim.turn_eq hlive hentry hnode, hmatching hret]
  have hlevels := hsim.levels
  generalize hids : t.top.ids = ids at hlevels
  generalize hcalls : s.calls.reverse = calls at hlevels
  generalize hstack : t.stack = stack at hlevels
  cases hlevels with
  | bottom =>
    right
    obtain hnil := List.reverse_eq_nil_iff.mp hcalls
    refine ⟨by simp [hnil], ?_⟩
    simp [MemoSearch.Problem.step, hacc, htodo, hstack]
  | @level _ h' c z A' T' calls stack hlive' hA' hcall hback hrep hbelow =>
    left
    have hcalls' : s.calls = calls.reverse ++ [⟨z.1, c.state⟩] := by
      rw [← List.reverse_reverse s.calls, hcalls, List.reverse_cons]
    have hz : z ∈ live entries c.ids := by rw [hlive']; simp
    obtain ⟨hzcell, hzfresh⟩ := mem_live.mp hz
    obtain ⟨znode, hznode, -, hzid, -⟩ := hsim.rep.node hzcell
    obtain ⟨k, b, hk, hclear, hholds, hrange⟩ := hsim.clear hids hzfresh
    obtain ⟨longest', hrecord, hlong⟩ := hsim.longest.giveUp hsim.range hinv.stack.reaches
    have hnext := (hlive' ▸ hrep : Rep entries h' (A' ++ z :: T')).next_cell
    refine ⟨{ nodes := h', entry := (T'.map Prod.fst).head?, state := c.state, linearized := b,
              cache := s.cache, calls := calls.reverse, longest := longest' },
      { t with top := c, todo := openCalls T', stack := stack, finished := t.top :: t.finished },
        ?_, ?_, ?_⟩
    · have hlast : s.calls.getLast? = some ⟨z.1, c.state⟩ := by simp [hcalls']
      simp only [hlast]
      cases computePartial with
      | false =>
        obtain rfl : s.longest = longest' := Option.some.inj hrecord
        simp [Search.backtrack, hznode, hzid, hk, hclear, hback, hnext, hcalls']
      | true =>
        rw [if_pos rfl] at hrecord
        simp [Search.backtrack, hsim.seq, hrecord, hznode, hzid, hk, hclear, hback, hnext, hcalls']
    · simp [MemoSearch.Problem.step, hacc, htodo, hstack]
    · refine
        { rep := hrep, entry := ⟨A' ++ [z], T', by simp [hlive'], fun y hy => ?_, rfl, rfl⟩,
          state := rfl, linearized := hholds, range := hrange, cache := hsim.cache, levels := ?_,
          longest := hlong }
      · obtain hy | hy := List.mem_append.mp hy
        · exact hA' y hy
        · obtain rfl := List.mem_singleton.mp hy
          exact hcall
      · rw [List.reverse_reverse]
        exact hbelow

/-- **Turn and step agree.** -/
theorem Sim.turn (hwf : WellFormed entries) (hinv : MemoSearch.Inv (problem model entries) t)
    (hsim : Sim model entries computePartial s t) :
    (∃ s' t', s.turn model computePartial entries.length false = some (.running s') ∧
      (problem model entries).step t = some t' ∧ Sim model entries computePartial s' t') ∨
    (problem model entries).step t = none ∧
      s.turn model computePartial entries.length false =
        some (.returned ((problem model entries).accept t.top)
          (if (problem model entries).accept t.top then
            List.replicate (callIds entries).length (some t.top.ids) else s.longest)) := by
  cases hacc : (problem model entries).accept t.top with
  | true => exact .inr ⟨by simp [MemoSearch.Problem.step, hacc], hsim.turn_accept hacc⟩
  | false =>
    obtain ⟨A, x, T, hlive, hA, hentry, htodo⟩ := hsim.entry_cons hwf hacc
    by_cases hcall : x.2.IsCall
    · exact .inl (hsim.turn_call hwf hlive hA hentry htodo hcall hacc)
    · obtain h | ⟨hturn, hstep⟩ :=
        hsim.turn_return hinv hlive hentry htodo (Entry.not_isCall.mp hcall) hacc
      · exact .inl h
      · exact .inr ⟨hstep, hturn⟩

/-- The search starts in related states. -/
theorem sim_start (model : Model ι ο σ) (computePartial : Bool) (hwf : WellFormed entries) :
    ∃ s, startSearch model entries = some (entries.length, s) ∧
      Sim model entries computePartial s (problem model entries).initial := by
  obtain ⟨h₀, root, h, hmake, hlen, hroot, hlength, hinsert, hrep⟩ := rep_initial hwf
  have hn : entries.length / 2 = (callIds entries).length := by
    rw [hwf.length_eq]
    omega
  refine ⟨{ nodes := h, entry := root, state := model.init,
            linearized := Bitset.newBitset (callIds entries).length, cache := ∅, calls := [],
            longest := List.replicate (callIds entries).length none }, ?_, ?_⟩
  · rw [hlen] at hlength hinsert
    simp only [startSearch, hmake, Option.bind_eq_bind, Option.bind_some, hlen, hlength,
      hinsert, hn]
  · refine
      { rep := hrep, entry := ⟨[], cellsOf entries, live_nil,
        fun y hy => absurd hy List.not_mem_nil, hroot,
          congrArg openCalls live_nil⟩,
        state := rfl, linearized := Bitset.Holds.newBitset _,
        range := fun i hi => absurd hi List.not_mem_nil,
        cache := cacheRep_empty, levels := .bottom,
        longest := ⟨List.length_replicate, fun k q hq => ?_, ?_⟩ }
    · simp [List.getElem?_replicate] at hq
    · exact fun _ c hc => absurd hc List.not_mem_nil

end Levels

end LogicRaft.Porcupine
