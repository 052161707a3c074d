import LogicRaft.Porcupine.Decides
import Mathlib.Data.List.ReduceOption

/-!
# Checking the parts of a history in parallel

`checkParallel` of `porcupine/checker.go` starts a goroutine for each part of the history, which
runs `checkSingle` on it, notes what it found in `longest` and sends its verdict to the channel
`results`. The function itself collects the verdicts in a `select` loop, which a timeout may end,
and a flag tells the goroutines to give up. `Checking` is the state of all of them together, a
`Turn` is a step of one of them, and a run is any sequence of turns: all interleavings are covered.

`WorkerAt` says what is known of one goroutine wherever it stands: `Sound` results in any case,
`Exact` ones unless it was told to give up, and how many turns it has left.
-/

namespace LogicRaft.Porcupine

open Linearizability (Partial IsLinearization)

variable {ι ο σ : Type}

inductive CheckResult
  | unknown
  | ok
  | illegal
deriving DecidableEq

structure LinearizationInfo (ι ο : Type) where
  history : List (List (Entry ι ο)) := []
  partialLinearizations : List (List (List ℤ)) := []

/-- Where a goroutine stands. -/
inductive Worker (ι ο σ : Type)
  | spawned
  /-- In the loop of `checkSingle`. -/
  | searching (head : ℕ) (s : Search ι ο σ)
  /-- `checkSingle` has returned. -/
  | checked (ok : Bool) (l : Longest)
  /-- `longest[i]` is written. -/
  | stored (ok : Bool)
  | sent (ok : Bool)
  | panicked

/-- Where `checkParallel` itself stands: in the `select` loop, waiting for the goroutines to finish,
or returned. -/
inductive Phase
  | selecting
  | draining
  | returned
deriving DecidableEq

/-- The variables of `checkParallel` and its goroutines. -/
structure Checking (ι ο σ : Type) where
  workers : List (Worker ι ο σ)
  longest : List Longest
  results : List Bool := []
  kill : Bool := false
  ok : Bool := true
  timedOut : Bool := false
  count : ℕ := 0
  phase : Phase := .selecting

inductive Turn
  | goroutine (i : ℕ)
  | receive
  | timeout
deriving DecidableEq

namespace Checking

def setWorker (c : Checking ι ο σ) (i : ℕ) (w : Worker ι ο σ) : Checking ι ο σ :=
  { c with workers := c.workers.set i w }

variable (model : Model ι ο σ) (history : List (List (Entry ι ο))) (computeInfo : Bool)
  (timeout : ℤ)

def start : Checking ι ο σ where
  workers := history.map fun _ => .spawned
  longest := history.map fun _ => []

/-- A step of goroutine `i`. The channel has room for one verdict of each. -/
def work (c : Checking ι ο σ) (i : ℕ) : Option (Checking ι ο σ) := do
  let subhistory ← history[i]?
  match ← c.workers[i]? with
  | .spawned =>
    match startSearch model subhistory with
    | some (head, s) => some (c.setWorker i (.searching head s))
    | none => some (c.setWorker i .panicked)
  | .searching head s =>
    match s.turn model computeInfo head c.kill with
    | some (.running s) => some (c.setWorker i (.searching head s))
    | some (.returned ok l) => some (c.setWorker i (.checked ok l))
    | none => some (c.setWorker i .panicked)
  | .checked ok l => some { c.setWorker i (.stored ok) with longest := c.longest.set i l }
  | .stored ok =>
    if c.results.length < history.length then
      some { c.setWorker i (.sent ok) with results := c.results ++ [ok] }
    else none
  | .sent _ => none
  | .panicked => none

/-- Behind the loop: with `computeInfo` the verdicts still missing are waited for. -/
def leave (c : Checking ι ο σ) : Checking ι ο σ :=
  { c with phase := if computeInfo && c.count < history.length then .draining else .returned }

/-- `checkParallel` receives a verdict, in the `select` loop or behind it. -/
def receive (c : Checking ι ο σ) : Option (Checking ι ο σ) :=
  match c.phase, c.results with
  | .selecting, result :: results =>
    let c := { c with results := results, count := c.count + 1, ok := c.ok && result }
    if !c.ok && !computeInfo then some (leave history computeInfo { c with kill := true })
    else if c.count ≥ history.length then some (leave history computeInfo c)
    else some c
  | .draining, _ :: results =>
    some (leave history computeInfo { c with results := results, count := c.count + 1 })
  | _, _ => none

/-- The case `<-timeoutChan`; without a timeout the channel is `nil`. -/
def expire (c : Checking ι ο σ) : Option (Checking ι ο σ) :=
  if c.phase = .selecting ∧ 0 < timeout then
    some (leave history computeInfo { c with timedOut := true, kill := true })
  else none

def step (c : Checking ι ο σ) : Turn → Option (Checking ι ο σ)
  | .goroutine i => c.work model history computeInfo i
  | .receive => c.receive history computeInfo
  | .timeout => c.expire history computeInfo timeout

variable {model history computeInfo timeout}

/-- What `checkParallel` has returned. -/
def result (c : Checking ι ο σ) : Option CheckResult :=
  if c.phase = .returned then
    some (if !c.ok then .illegal else if c.timedOut then .unknown else .ok)
  else none

/-- The second value returned. The set of sequences is a map in the source, so their order is left
open there. -/
def info (history : List (List (Entry ι ο))) (computeInfo : Bool) (c : Checking ι ο σ) :
    LinearizationInfo ι ο :=
  if computeInfo then
    { history := history, partialLinearizations := c.longest.map fun l => l.reduceOption.dedup }
  else {}

end Checking

/-! ## What a goroutine finds -/

section Report

variable {model : Model ι ο σ} {computeInfo : Bool} {entries : List (Entry ι ο)}

/-- True of every result of `checkSingle`, also of one told to give up. -/
structure Sound (model : Model ι ο σ) (entries : List (Entry ι ο)) (ok : Bool) (l : Longest) :
    Prop where
  length : l.length = (callIds entries).length
  beginnings : ∀ (k : ℕ) q, l[k]? = some (some q) → (k : ℤ) ∈ q ∧
    ∃ s, Partial (stepOf model entries) model.init (Before entries) (callIds entries) q s
  linearizable : ok = true → LinearizableEntries model entries

/-- True of the result of a search that was left to finish. -/
structure Exact (model : Model ι ο σ) (computeInfo : Bool) (entries : List (Entry ι ο)) (ok : Bool)
    (l : Longest) : Prop where
  linearizable : ok = true ↔ LinearizableEntries model entries
  complete : ok = true → ∃ w,
    IsLinearization (stepOf model entries) model.init (Before entries) (callIds entries) w ∧
      l = List.replicate (callIds entries).length (some w)
  longest : computeInfo = true → ok = false → LongestRight model entries l

/-- What is known of a result, depending on whether the goroutines may have been told to give up. -/
structure Report (model : Model ι ο σ) (computeInfo : Bool) (entries : List (Entry ι ο))
    (kill ok : Bool) (l : Longest) : Prop where
  sound : Sound model entries ok l
  exact : kill = false → Exact model computeInfo entries ok l

variable {s : Search ι ο σ} {t : MemoSearch.State (Config σ) (Cell ι ο)}

/-- What is returned in a state of the search in which the loop ends. -/
def longestAt (model : Model ι ο σ) (entries : List (Entry ι ο)) (s : Search ι ο σ)
    (t : MemoSearch.State (Config σ) (Cell ι ο)) : Longest :=
  if (problem model entries).accept t.top then List.replicate (callIds entries).length
    (some t.top.ids)
  else s.longest

theorem sound_longestAt (hwf : WellFormed entries)
    (hrun : (problem model entries).Leads (problem model entries).initial t)
    (hsim : Sim model entries computeInfo s t) :
    Sound model entries ((problem model entries).accept t.top) (longestAt model entries s t) := by
  cases hacc : (problem model entries).accept t.top with
  | true =>
    have hlin := isLinearization_of_accept hwf hrun hacc
    obtain ⟨u, hpartial, -⟩ :=
      (Linearizability.isLinearization_iff_partial hwf.nodup_callIds).mp hlin
    rw [longestAt, if_pos hacc]
    refine ⟨List.length_replicate, fun k q hq => ?_, fun _ => ⟨_, hlin⟩⟩
    obtain ⟨hk, heq⟩ := List.getElem?_eq_some_iff.mp hq
    rw [List.length_replicate] at hk
    obtain rfl : t.top.ids = q := by simpa using heq
    exact ⟨hlin.perm.mem_iff.mpr ((hwf.range k).mpr (by omega)), u, hpartial⟩
  | false =>
    rw [longestAt, if_neg (by simp [hacc])]
    refine ⟨hsim.longest.length, fun k q hq => ?_, fun h => by cases h⟩
    obtain ⟨hmem, u, hreach⟩ := hsim.longest.sound k q hq
    exact ⟨hmem, u, (hwf.reaches_iff u).mp hreach⟩

theorem exact_longestAt (hwf : WellFormed entries) (hequal : model.EqualSound)
    (hrun : (problem model entries).Leads (problem model entries).initial t)
    (hhalt : (problem model entries).step t = none) (hsim : Sim model entries computeInfo s t) :
    Exact model computeInfo entries ((problem model entries).accept t.top)
      (longestAt model entries s t) where
  linearizable := accept_iff_linearizable hwf hequal hrun hhalt
  complete := fun hacc => ⟨t.top.ids, isLinearization_of_accept hwf hrun hacc, if_pos hacc⟩
  longest := by
    rintro rfl hacc
    rw [longestAt, if_neg (by simp [hacc])]
    exact longestRight_of_exhausted hwf hequal hrun hhalt hacc hsim.longest

theorem mem_reduceOption_dedup {l : Longest} {q : List ℤ} :
    q ∈ l.reduceOption.dedup ↔ ∃ k : ℕ, l[k]? = some (some q) := by
  rw [List.mem_dedup, List.reduceOption_mem_iff, List.mem_iff_getElem?]

/-- The set reported by a search that was left to finish: it has a longest beginning for every
operation. -/
theorem Exact.exists_longest (hwf : WellFormed entries) {ok : Bool} {l : Longest}
    (h : Exact model true entries ok l) {w : List ℤ} {s : σ}
    (hw : Partial (stepOf model entries) model.init (Before entries) (callIds entries) w s) {k : ℤ}
    (hk : k ∈ w) : ∃ q ∈ l.reduceOption.dedup, k ∈ q ∧ w.length ≤ q.length := by
  have hmem := hw.subset hk
  obtain ⟨h0, hlt⟩ := (hwf.range k).mp hmem
  obtain ⟨j, rfl⟩ := Int.eq_ofNat_of_zero_le h0
  have hj : j < (callIds entries).length := by omega
  cases ok with
  | true =>
    obtain ⟨v, hlin, rfl⟩ := h.complete rfl
    refine ⟨v, mem_reduceOption_dedup.mpr ⟨j, by simp [hj]⟩, hlin.perm.mem_iff.mpr hmem, ?_⟩
    rw [hlin.perm.length_eq]
    exact (List.subperm_of_subset hw.nodup hw.subset).length_le
  | false =>
    obtain ⟨hlen, hright⟩ := h.longest rfl rfl
    obtain ⟨hsome, hnone⟩ := hright j hj
    have hj' : l[j]? = some l[j] := List.getElem?_eq_getElem (by omega)
    cases hq : l[j] with
    | none =>
      rw [hq] at hj'
      exact absurd hk (hnone hj' w s hw)
    | some q =>
      rw [hq] at hj'
      obtain ⟨hkq, -, hmax⟩ := hsome q hj'
      exact ⟨q, mem_reduceOption_dedup.mpr ⟨j, hj'⟩, hkq, hmax w s hw hk⟩

/-- A turn of a goroutine told to give up. -/
theorem Sim.turn_killed (hsim : Sim model entries computeInfo s t) :
    s.turn model computeInfo entries.length true =
      some (.returned ((problem model entries).accept t.top) (longestAt model entries s t)) := by
  have haccept : (problem model entries).accept t.top = (live entries t.top.ids).isEmpty := rfl
  simp only [Search.turn, hsim.rep.next_head, Option.bind_eq_bind, Option.bind_some, longestAt,
    haccept]
  cases hlive : live entries t.top.ids with
  | nil => simp [hsim.seq, hsim.longest.length]
  | cons x cells => simp

/-- Where a goroutine stands, with what it has written to its slot of `longest` and a bound on its
turns left. -/
inductive WorkerAt (model : Model ι ο σ) (computeInfo : Bool) (entries : List (Entry ι ο))
    (kill : Bool) :
    Worker ι ο σ → Longest → ℕ → Prop
  | spawned {l : Longest} : WorkerAt model computeInfo entries kill .spawned l
      (((callIds entries).length + 2) ^ ((callIds entries).length + 1) + 3)
  | searching {s : Search ι ο σ} {t : MemoSearch.State (Config σ) (Cell ι ο)} {l : Longest} {b : ℕ}
      (hrun : (problem model entries).Leads (problem model entries).initial t)
      (hsim : Sim model entries computeInfo s t) (hwork : work entries t < b) :
      WorkerAt model computeInfo entries kill (.searching entries.length s) l (b + 2)
  | checked {ok : Bool} {l l' : Longest} (h : Report model computeInfo entries kill ok l) :
      WorkerAt model computeInfo entries kill (.checked ok l) l' 2
  | stored {ok : Bool} {l : Longest} (h : Report model computeInfo entries kill ok l) :
      WorkerAt model computeInfo entries kill (.stored ok) l 1
  | sent {ok : Bool} {l : Longest} (h : Report model computeInfo entries kill ok l) :
      WorkerAt model computeInfo entries kill (.sent ok) l 0

theorem Report.killed {kill ok : Bool} {l : Longest}
    (h : Report model computeInfo entries kill ok l) : Report model computeInfo entries true ok l :=
  ⟨h.sound, fun hkill => by cases hkill⟩

theorem WorkerAt.killed {kill : Bool} {w : Worker ι ο σ} {l : Longest} {b : ℕ}
    (h : WorkerAt model computeInfo entries kill w l b) :
    WorkerAt model computeInfo entries true w l b := by
  cases h with
  | spawned => exact .spawned
  | searching hrun hsim hwork => exact .searching hrun hsim hwork
  | checked h => exact .checked h.killed
  | stored h => exact .stored h.killed
  | sent h => exact .sent h.killed

theorem WorkerAt.ne_panicked {kill : Bool} {w : Worker ι ο σ} {l : Longest} {b : ℕ}
    (h : WorkerAt model computeInfo entries kill w l b) : w ≠ .panicked := by
  rintro rfl
  cases h

/-- `checkSingle` begins. -/
theorem workerAt_start (model : Model ι ο σ) (computeInfo : Bool) (hwf : WellFormed entries)
    (kill : Bool) (l : Longest) :
    ∃ s, startSearch model entries = some (entries.length, s) ∧
      WorkerAt model computeInfo entries kill (.searching entries.length s) l
        (((callIds entries).length + 2) ^ ((callIds entries).length + 1) + 2) := by
  obtain ⟨s, hstart, hsim⟩ := sim_start model computeInfo hwf
  exact ⟨s, hstart, .searching Relation.ReflTransGen.refl hsim work_initial_lt⟩

/-- A turn of the loop of `checkSingle` in a goroutine. -/
theorem workerAt_turn (hwf : WellFormed entries) (hequal : model.EqualSound) (kill : Bool)
    (l : Longest) {b : ℕ} (hrun : (problem model entries).Leads (problem model entries).initial t)
    (hsim : Sim model entries computeInfo s t) (hwork : work entries t < b) :
    (∃ s' b', b' < b + 2 ∧ s.turn model computeInfo entries.length kill = some (.running s') ∧
      WorkerAt model computeInfo entries kill (.searching entries.length s') l b') ∨
    ∃ ok l', s.turn model computeInfo entries.length kill = some (.returned ok l') ∧
      WorkerAt model computeInfo entries kill (.checked ok l') l 2 := by
  have hsound := sound_longestAt hwf hrun hsim
  cases kill with
  | true => exact .inr ⟨_, _, hsim.turn_killed, .checked ⟨hsound, fun h => by cases h⟩⟩
  | false =>
    have hinv := MemoSearch.Inv.of_leads graded_problem hrun
    obtain ⟨s', t', hturn, hstep, hsim'⟩ | ⟨hhalt, hturn⟩ := hsim.turn hwf hinv
    · have hlt := work_lt hinv hstep
      exact .inl ⟨s', b - 1 + 2, by omega, hturn,
        .searching (Relation.ReflTransGen.tail hrun hstep) hsim' (by omega)⟩
    · exact .inr ⟨_, _, hturn,
        .checked ⟨hsound, fun _ => exact_longestAt hwf hequal hrun hhalt hsim⟩⟩

end Report

end LogicRaft.Porcupine
