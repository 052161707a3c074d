import LogicRaft.Common.Reach
import LogicRaft.Porcupine.Parallel
import Mathlib.Algebra.Order.BigOperators.Group.Finset

/-!
# All schedules of a parallel check

In every run of `checkParallel` and its goroutines the verdict is right, a goroutine that was told
to give up never decides it, and no goroutine panics (`checkParallel_verdict`): `Inv` holds along
the run. Every turn lowers a bound on the turns left, and some turn is possible until the function
has returned, except when there is nothing to check and no timeout: then the `select` waits for ever
(`checkParallel_returns`).
-/

namespace LogicRaft.Porcupine

open Linearizability (Partial IsLinearization)

variable {ι ο σ : Type}

/-! ## Invariant of the run -/

/-- The verdict a goroutine has sent. -/
def Worker.verdict : Worker ι ο σ → Option Bool
  | .sent ok => some ok
  | _ => none

section Set

variable {α β : Type*} {f : α → Option β} {l : List α} {i : ℕ} {a a' : α}

theorem exists_split_set (hl : l[i]? = some a) :
    ∃ pre post, l = pre ++ a :: post ∧ ∀ a', l.set i a' = pre ++ a' :: post := by
  obtain ⟨hi, rfl⟩ := List.getElem?_eq_some_iff.mp hl
  refine ⟨l.take i, l.drop (i + 1), by simp, fun a' => ?_⟩
  rw [List.set_eq_take_append_cons_drop, if_pos hi]

theorem filterMap_set_of_none (hl : l[i]? = some a) (ha : f a = none) (ha' : f a' = none) :
    (l.set i a').filterMap f = l.filterMap f := by
  obtain ⟨pre, post, rfl, hset⟩ := exists_split_set hl
  simp [hset, ha, ha']

theorem filterMap_set_perm (hl : l[i]? = some a) (ha : f a = none) {b : β} (ha' : f a' = some b) :
    ((l.set i a').filterMap f).Perm (l.filterMap f ++ [b]) := by
  obtain ⟨pre, post, rfl, hset⟩ := exists_split_set hl
  simp only [hset, List.filterMap_append, List.filterMap_cons, ha, ha', List.append_assoc]
  exact (List.perm_append_singleton b _).symm.append_left _

theorem set_of_getElem? (hl : l[i]? = some a) : l.set i a = l := by
  obtain ⟨hi, rfl⟩ := List.getElem?_eq_some_iff.mp hl
  exact List.set_getElem_self hi

/-- As many values as elements: each element has one. -/
theorem isSome_of_length_filterMap (h : (l.filterMap f).length = l.length) {a : α} (ha : a ∈ l) :
    (f a).isSome := by
  rw [List.length_filterMap_eq_countP, List.countP_eq_length] at h
  exact h a ha

end Set

namespace Checking

variable {model : Model ι ο σ} {history : List (List (Entry ι ο))} {computeInfo : Bool}
  {timeout : ℤ}

/-- Each goroutine stands somewhere, and each verdict sent is in the channel or has been counted. -/
structure Running (model : Model ι ο σ) (history : List (List (Entry ι ο))) (computeInfo : Bool)
    (c : Checking ι ο σ) (b : ℕ → ℕ) : Prop where
  workers : c.workers.length = history.length
  longest : c.longest.length = history.length
  at_ : ∀ i p w l, history[i]? = some p → c.workers[i]? = some w → c.longest[i]? = some l →
    WorkerAt model computeInfo p c.kill w l (b i)
  sent : c.count + c.results.length = (c.workers.filterMap Worker.verdict).length

/-- `ok` is the conjunction of the verdicts counted, all of goroutines that were left to finish. -/
structure Collected (c : Checking ι ο σ) : Prop where
  kill : c.kill = false
  seen : ∃ seen, c.ok = seen.all id ∧ (seen ++ c.results).Perm (c.workers.filterMap Worker.verdict)

/-- The verdict is right. -/
structure Settled (model : Model ι ο σ) (history : List (List (Entry ι ο))) (computeInfo : Bool)
    (timeout : ℤ) (c : Checking ι ο σ) : Prop where
  timedOut : c.timedOut = true → 0 < timeout
  refuted : c.ok = false → ∃ p ∈ history, ¬ LinearizableEntries model p
  proved : c.ok = true → c.timedOut = false → ∀ p ∈ history, LinearizableEntries model p
  kill : computeInfo = true → c.timedOut = false → c.kill = false

/-- What holds where `checkParallel` itself stands. -/
def MainOk (model : Model ι ο σ) (history : List (List (Entry ι ο))) (computeInfo : Bool)
    (timeout : ℤ) (c : Checking ι ο σ) : Prop :=
  match c.phase with
  | .selecting => c.Collected ∧ c.timedOut = false ∧ (c.count < history.length ∨ history = [])
  | .draining => Settled model history computeInfo timeout c ∧ computeInfo = true ∧
      c.count < history.length
  | .returned => Settled model history computeInfo timeout c ∧
      (computeInfo = true → c.count = history.length)

structure Inv (model : Model ι ο σ) (history : List (List (Entry ι ο))) (computeInfo : Bool)
    (timeout : ℤ) (c : Checking ι ο σ) (b : ℕ → ℕ) : Prop where
  running : Running model history computeInfo c b
  main : MainOk model history computeInfo timeout c

/-- A bound on the turns of `checkParallel` itself. -/
def mainLeft (n : ℕ) (c : Checking ι ο σ) : ℕ :=
  match c.phase with
  | .selecting => n - c.count + 1
  | .draining => n - c.count
  | .returned => 0

/-- A bound on all turns left. -/
def left (n : ℕ) (c : Checking ι ο σ) (b : ℕ → ℕ) : ℕ := (Finset.range n).sum b + c.mainLeft n

variable {c : Checking ι ο σ} {b : ℕ → ℕ} {i : ℕ} {p : List (Entry ι ο)} {w w' : Worker ι ο σ}
  {l l' : Longest}

theorem Running.length_sent_le (h : Running model history computeInfo c b) :
    (c.workers.filterMap Worker.verdict).length ≤ history.length :=
  (List.length_filterMap_le _ _).trans_eq h.workers

/-- One goroutine moves, the others stay where they are. -/
theorem Running.at_set (h : Running model history computeInfo c b) (hp : history[i]? = some p)
    {b' : ℕ} (hat : WorkerAt model computeInfo p c.kill w' l' b') (j : ℕ) (q : List (Entry ι ο))
    (v : Worker ι ο σ)
    (m : Longest) (hq : history[j]? = some q) (hv : (c.workers.set i w')[j]? = some v)
    (hm : (c.longest.set i l')[j]? = some m) :
    WorkerAt model computeInfo q c.kill v m (Function.update b i b' j) := by
  by_cases hj : i = j
  · subst hj
    obtain rfl : p = q := by simpa using hp.symm.trans hq
    obtain ⟨-, rfl⟩ : _ ∧ w' = v := by simpa [List.getElem?_set_self'] using hv
    obtain ⟨-, rfl⟩ : _ ∧ l' = m := by simpa [List.getElem?_set_self'] using hm
    rwa [Function.update_self]
  · rw [Function.update_of_ne (Ne.symm hj)]
    rw [List.getElem?_set_ne hj] at hv hm
    exact h.at_ j q v m hq hv hm

/-- A goroutine goes on, without sending. -/
theorem Running.advance (h : Running model history computeInfo c b) (hp : history[i]? = some p)
    (hw : c.workers[i]? = some w) (hnone : w.verdict = none) (hnone' : w'.verdict = none) {b' : ℕ}
    (hat : WorkerAt model computeInfo p c.kill w' l' b') :
    Running model history computeInfo
      { c with workers := c.workers.set i w', longest := c.longest.set i l' }
        (Function.update b i b') where
  workers := List.length_set.trans h.workers
  longest := List.length_set.trans h.longest
  at_ := h.at_set hp hat
  sent := by
    rw [filterMap_set_of_none hw hnone hnone']
    exact h.sent

theorem verdicts_send {ok : Bool} (hw : c.workers[i]? = some (.stored ok)) :
    ((c.workers.set i (.sent ok)).filterMap Worker.verdict).Perm
      (c.workers.filterMap Worker.verdict ++ [ok]) :=
  filterMap_set_perm hw rfl rfl

/-- A goroutine sends its verdict. -/
theorem Running.send (h : Running model history computeInfo c b) (hp : history[i]? = some p)
    {ok : Bool} (hw : c.workers[i]? = some (.stored ok)) (hl : c.longest[i]? = some l) {b' : ℕ}
    (hat : WorkerAt model computeInfo p c.kill (.sent ok) l b') :
    Running model history computeInfo
      { c with workers := c.workers.set i (.sent ok), results := c.results ++ [ok] }
      (Function.update b i b') where
  workers := List.length_set.trans h.workers
  longest := h.longest
  at_ := by
    have hset := h.at_set hp hat
    rwa [set_of_getElem? hl] at hset
  sent := by
    have hlen := (verdicts_send hw).length_eq
    rw [List.length_append, List.length_singleton] at hlen
    rw [hlen, ← h.sent, List.length_append, List.length_singleton, Nat.add_assoc]

theorem Collected.advance (h : c.Collected) (hw : c.workers[i]? = some w) (hnone : w.verdict = none)
    (hnone' : w'.verdict = none) (ls : List Longest) :
    Collected { c with workers := c.workers.set i w', longest := ls } where
  kill := h.kill
  seen := by
    rw [filterMap_set_of_none hw hnone hnone']
    exact h.seen

theorem Collected.send (h : c.Collected) {ok : Bool} (hw : c.workers[i]? = some (.stored ok)) :
    Collected { c with workers := c.workers.set i (.sent ok), results := c.results ++ [ok] } where
  kill := h.kill
  seen := by
    obtain ⟨seen, hok, hperm⟩ := h.seen
    refine ⟨seen, hok, ?_⟩
    rw [← List.append_assoc]
    exact (hperm.append_right [ok]).trans (verdicts_send hw).symm

/-- `checkParallel` itself stays where it is while a goroutine moves. -/
theorem MainOk.goroutine {c' : Checking ι ο σ} (h : MainOk model history computeInfo timeout c)
    (hphase : c'.phase = c.phase) (hkill : c'.kill = c.kill) (hok : c'.ok = c.ok)
    (htimedOut : c'.timedOut = c.timedOut) (hcount : c'.count = c.count)
    (hcollected : c.Collected → c'.Collected) : MainOk model history computeInfo timeout c' := by
  have hsettled : Settled model history computeInfo timeout c →
      Settled model history computeInfo timeout c' :=
    fun hs => ⟨htimedOut ▸ hs.timedOut, hok ▸ hs.refuted, by rw [hok, htimedOut]; exact hs.proved,
      by rw [hkill, htimedOut]; exact hs.kill⟩
  unfold MainOk at h ⊢
  rw [hphase, htimedOut, hcount]
  cases hc : c.phase with
  | selecting =>
    rw [hc] at h
    exact ⟨hcollected h.1, h.2⟩
  | draining =>
    rw [hc] at h
    exact ⟨hsettled h.1, h.2⟩
  | returned =>
    rw [hc] at h
    exact ⟨hsettled h.1, h.2⟩

theorem left_update_lt {c' : Checking ι ο σ} {n b' : ℕ} (hi : i < n) (hlt : b' < b i)
    (hmain : c'.mainLeft n = c.mainLeft n) : c'.left n (Function.update b i b') < c.left n b := by
  have hsum : (Finset.range n).sum (Function.update b i b') < (Finset.range n).sum b := by
    refine Finset.sum_lt_sum (fun j _ => ?_)
      ⟨i, Finset.mem_range.mpr hi, by rwa [Function.update_self]⟩
    by_cases hj : j = i
    · rw [hj, Function.update_self]
      exact hlt.le
    · rw [Function.update_of_ne hj]
  unfold left
  omega

/-- A turn of a goroutine keeps the invariant, and one turn less is left. -/
theorem Inv.work (hwf : ∀ p ∈ history, WellFormed p) (hequal : model.EqualSound)
    (h : Inv model history computeInfo timeout c b) {c' : Checking ι ο σ}
    (hstep : c.work model history computeInfo i = some c') :
    ∃ b', Inv model history computeInfo timeout c' b' ∧
      c'.left history.length b' < c.left history.length b := by
  obtain ⟨p, hp, hstep⟩ := Option.bind_eq_some_iff.mp hstep
  obtain ⟨w, hw, hstep⟩ := Option.bind_eq_some_iff.mp hstep
  have hi : i < history.length := (List.getElem?_eq_some_iff.mp hp).1
  obtain ⟨l, hl⟩ : ∃ l, c.longest[i]? = some l :=
    ⟨_, List.getElem?_eq_getElem (by rw [h.running.longest]; exact hi)⟩
  have hwfp : WellFormed p := hwf p (List.mem_of_getElem? hp)
  have hat := h.running.at_ i p w l hp hw hl
  -- every turn but a sending one changes the goroutine and perhaps its slot of `longest`
  have hmove : ∀ (w' : Worker ι ο σ) (l' : Longest) (b' : ℕ), w.verdict = none → w'.verdict = none →
      WorkerAt model computeInfo p c.kill w' l' b' → b' < b i →
      ∃ b', Inv model history computeInfo timeout
          { c with workers := c.workers.set i w', longest := c.longest.set i l' } b' ∧
        left history.length
          { c with workers := c.workers.set i w', longest := c.longest.set i l' } b' <
          c.left history.length b := by
    intro w' l' b' hnone hnone' hat' hlt
    exact ⟨_, ⟨h.running.advance hp hw hnone hnone' hat',
      h.main.goroutine rfl rfl rfl rfl rfl fun hc =>
      hc.advance hw hnone hnone' _⟩, left_update_lt hi hlt rfl⟩
  have hstay : c.longest.set i l = c.longest := set_of_getElem? hl
  generalize hb : b i = bi at hat hmove
  cases hat with
  | spawned =>
    obtain ⟨s, hstart, hat'⟩ := workerAt_start model computeInfo hwfp c.kill l
    simp only [hstart] at hstep
    obtain rfl := Option.some.inj hstep
    have := hmove _ l _ rfl rfl hat' (by omega)
    rwa [hstay] at this
  | searching hrun hsim hwork =>
    obtain ⟨s', b', hlt, hturn, hat'⟩ | ⟨ok, l', hturn, hat'⟩ :=
      workerAt_turn hwfp hequal c.kill l hrun hsim hwork
    · simp only [hturn] at hstep
      obtain rfl := Option.some.inj hstep
      have := hmove _ l _ rfl rfl hat' hlt
      rwa [hstay] at this
    · simp only [hturn] at hstep
      obtain rfl := Option.some.inj hstep
      have := hmove _ l _ rfl rfl hat' (by omega)
      rwa [hstay] at this
  | checked hreport =>
    obtain rfl := Option.some.inj hstep
    exact hmove _ _ 1 rfl rfl (.stored hreport) (by omega)
  | stored hreport =>
    simp only at hstep
    split at hstep
    case isFalse => cases hstep
    case isTrue =>
      obtain rfl := Option.some.inj hstep
      exact ⟨_, ⟨h.running.send hp hw hl (.sent hreport),
        h.main.goroutine rfl rfl rfl rfl rfl fun hc =>
        hc.send hw⟩, left_update_lt hi (by omega) rfl⟩
  | sent => cases hstep

/-! ## Collecting the verdicts -/

/-- What is known of a goroutine that has sent its verdict. -/
theorem Running.report (h : Running model history computeInfo c b) (hp : history[i]? = some p)
    {ok : Bool} (hw : c.workers[i]? = some (.sent ok)) :
    ∃ l, c.longest[i]? = some l ∧ Report model computeInfo p c.kill ok l := by
  have hi : i < c.longest.length := by
    rw [h.longest]
    exact (List.getElem?_eq_some_iff.mp hp).1
  refine ⟨c.longest[i], List.getElem?_eq_getElem hi, ?_⟩
  have hat := h.at_ i p _ _ hp hw (List.getElem?_eq_getElem hi)
  generalize b i = bi at hat
  cases hat with
  | sent hreport => exact hreport

/-- When all verdicts are there, every goroutine has sent one. -/
theorem Running.all_sent (h : Running model history computeInfo c b)
    (hall : history.length ≤ c.count)
    (hp : history[i]? = some p) : ∃ ok, c.workers[i]? = some (.sent ok) := by
  have hle := h.length_sent_le
  have hsent := h.sent
  have hi : i < c.workers.length := by
    rw [h.workers]
    exact (List.getElem?_eq_some_iff.mp hp).1
  have hsome := isSome_of_length_filterMap (f := Worker.verdict) (l := c.workers)
    (by rw [h.workers]; omega) (List.getElem_mem hi)
  rw [List.getElem?_eq_getElem hi]
  cases hw : c.workers[i] with
  | sent ok => exact ⟨ok, rfl⟩
  | _ => simp [hw, Worker.verdict] at hsome

theorem Collected.refuted (hc : c.Collected) (h : Running model history computeInfo c b)
    (hok : c.ok = false) :
    ∃ p ∈ history, ¬ LinearizableEntries model p := by
  obtain ⟨seen, hseen, hperm⟩ := hc.seen
  have hfalse : false ∈ c.workers.filterMap Worker.verdict := by
    refine hperm.subset (List.mem_append_left _ ?_)
    simpa [hok] using hseen.symm
  obtain ⟨w, hmem, hverdict⟩ := List.mem_filterMap.mp hfalse
  obtain ⟨i, hi, rfl⟩ := List.mem_iff_getElem.mp hmem
  have hi' : i < history.length := h.workers ▸ hi
  have hw : c.workers[i]? = some (.sent false) := by
    rw [List.getElem?_eq_getElem hi]
    cases hw : c.workers[i] <;> simp_all [Worker.verdict]
  obtain ⟨l, -, hreport⟩ := h.report (List.getElem?_eq_getElem hi') hw
  refine ⟨history[i], List.getElem_mem hi', fun hlin => ?_⟩
  cases (hreport.exact hc.kill).linearizable.mpr hlin

theorem Collected.proved (hc : c.Collected) (h : Running model history computeInfo c b)
    (hok : c.ok = true)
    (hall : history.length ≤ c.count) : ∀ p ∈ history, LinearizableEntries model p := by
  intro p hp
  obtain ⟨i, hi, rfl⟩ := List.mem_iff_getElem.mp hp
  obtain ⟨seen, hseen, hperm⟩ := hc.seen
  obtain ⟨ok, hw⟩ := h.all_sent hall (List.getElem?_eq_getElem hi)
  obtain ⟨l, -, hreport⟩ := h.report (List.getElem?_eq_getElem hi) hw
  -- nothing is left in the channel, so the verdict has been counted
  have hempty : c.results = [] := by
    have hle := h.length_sent_le
    have hsent := h.sent
    exact List.eq_nil_of_length_eq_zero (by omega)
  have hmem : ok ∈ seen := by
    rw [hempty, List.append_nil] at hperm
    exact hperm.symm.subset (List.mem_filterMap.mpr ⟨_, List.mem_of_getElem? hw, rfl⟩)
  have htrue : ok = true := List.all_eq_true.mp (hseen.symm.trans hok) ok hmem
  exact hreport.sound.linearizable htrue

theorem Running.killed (h : Running model history computeInfo c b) :
    Running model history computeInfo { c with kill := true } b :=
  { h with at_ := fun i p w l hp hw hl => (h.at_ i p w l hp hw hl).killed }

theorem Running.count_le (h : Running model history computeInfo c b) :
    c.count ≤ history.length := by
  have hle := h.length_sent_le
  have hsent := h.sent
  omega

/-- The loop is left with a verdict that is right. -/
theorem Running.leave (h : Running model history computeInfo c b)
    (hs : Settled model history computeInfo timeout c) :
    Inv model history computeInfo timeout (leave history computeInfo c) b := by
  refine ⟨⟨h.workers, h.longest, h.at_, h.sent⟩, ?_⟩
  have hs' : Settled model history computeInfo timeout (Checking.leave history computeInfo c) :=
    ⟨hs.timedOut, hs.refuted, hs.proved, hs.kill⟩
  have hle := h.count_le
  by_cases hcount : computeInfo = true ∧ c.count < history.length
  · have hphase : (Checking.leave history computeInfo c).phase = .draining := by
      simp [Checking.leave, hcount]
    unfold MainOk
    rw [hphase]
    exact ⟨hs', hcount⟩
  · have hphase : (Checking.leave history computeInfo c).phase = .returned := by
      simp [Checking.leave, hcount]
    unfold MainOk
    rw [hphase]
    refine ⟨hs', fun hinfo => ?_⟩
    have : ¬ c.count < history.length := fun hlt => hcount ⟨hinfo, hlt⟩
    exact Nat.le_antisymm hle (not_lt.mp this)

theorem mainLeft_leave_le (n : ℕ) : (leave history computeInfo c).mainLeft n ≤ n - c.count := by
  by_cases hcount : computeInfo = true ∧ c.count < history.length
  · simp [leave, mainLeft, hcount]
  · simp [leave, mainLeft, hcount]

/-- A verdict is taken from the channel and counted. -/
theorem Running.receive (h : Running model history computeInfo c b) {result : Bool}
    {results : List Bool} (hresults : c.results = result :: results) (ok : Bool) :
    Running model history computeInfo
      { c with results := results, count := c.count + 1, ok := ok } b where
  workers := h.workers
  longest := h.longest
  at_ := h.at_
  sent := by
    have hsent := h.sent
    rw [hresults, List.length_cons] at hsent
    show c.count + 1 + results.length = (c.workers.filterMap Worker.verdict).length
    omega

theorem Collected.receive (hc : c.Collected) {result : Bool} {results : List Bool}
    (hresults : c.results = result :: results) :
    Collected { c with results := results, count := c.count + 1, ok := c.ok && result } where
  kill := hc.kill
  seen := by
    obtain ⟨seen, hok, hperm⟩ := hc.seen
    refine ⟨seen ++ [result], by simp [hok], ?_⟩
    rw [List.append_assoc, List.singleton_append, ← hresults]
    exact hperm

/-- A turn of `checkParallel` that receives a verdict. -/
theorem Inv.receive (h : Inv model history computeInfo timeout c b) {c' : Checking ι ο σ}
    (hstep : c.receive history computeInfo = some c') :
    Inv model history computeInfo timeout c' b ∧
    c'.mainLeft history.length < c.mainLeft history.length := by
  have hmain := h.main
  have hsent := h.running.sent
  have hle := h.running.length_sent_le
  unfold Checking.receive at hstep
  unfold MainOk at hmain
  cases hresults : c.results with
  | nil =>
    rw [hresults] at hstep
    split at hstep
    case h_1 heq => cases heq
    case h_2 heq => cases heq
    case h_3 => cases hstep
  | cons result results =>
    rw [hresults, List.length_cons] at hsent
    cases hphase : c.phase with
    | returned =>
      rw [hphase, hresults] at hstep
      cases hstep
    | draining =>
      rw [hphase, hresults] at hstep
      rw [hphase] at hmain
      obtain rfl := Option.some.inj hstep
      obtain ⟨hs, -, -⟩ := hmain
      refine ⟨(h.running.receive hresults c.ok).leave
        ⟨hs.timedOut, hs.refuted, hs.proved, hs.kill⟩, ?_⟩
      refine (mainLeft_leave_le history.length).trans_lt ?_
      simp only [mainLeft, hphase]
      omega
    | selecting =>
      rw [hphase, hresults] at hstep
      rw [hphase] at hmain
      obtain ⟨hc, htimedOut, -⟩ := hmain
      have hrun := h.running.receive hresults (c.ok && result)
      have hc' := hc.receive hresults
      have hselecting : c.mainLeft history.length = history.length - c.count + 1 := by
        simp [mainLeft, hphase]
      rw [hphase] at hrun hc'
      simp only at hstep
      split at hstep
      case isTrue hstop =>
        -- a part is refuted, and nothing else is asked for
        obtain ⟨hok, hinfo⟩ := Bool.and_eq_true_iff.mp hstop
        rw [Bool.not_eq_true'] at hok hinfo
        obtain rfl := Option.some.inj hstep
        refine ⟨hrun.killed.leave
          ⟨fun ht => ?_, fun _ => hc'.refuted hrun hok, fun ht => ?_, fun hi => ?_⟩, ?_⟩
        · exact absurd (htimedOut.symm.trans ht) (by simp)
        · exact absurd (hok.symm.trans ht) (by simp)
        · exact absurd (hinfo.symm.trans hi) (by simp)
        · refine (mainLeft_leave_le history.length).trans_lt ?_
          rw [hselecting]
          show history.length - (c.count + 1) < _
          omega
      case isFalse =>
        split at hstep
        case isTrue hall =>
          obtain rfl := Option.some.inj hstep
          refine ⟨hrun.leave ⟨fun ht => ?_, hc'.refuted hrun, fun hok _ => hc'.proved hrun hok hall,
            fun _ _ => hc.kill⟩, ?_⟩
          · exact absurd (htimedOut.symm.trans ht) (by simp)
          · refine (mainLeft_leave_le history.length).trans_lt ?_
            rw [hselecting]
            show history.length - (c.count + 1) < _
            omega
        case isFalse hmore =>
          obtain rfl := Option.some.inj hstep
          refine ⟨⟨hrun, ?_⟩, ?_⟩
          · exact ⟨hc', htimedOut, .inl (not_le.mp hmore)⟩
          · simp only [mainLeft, hphase]
            omega

/-- The timeout. -/
theorem Inv.expire (h : Inv model history computeInfo timeout c b) {c' : Checking ι ο σ}
    (hstep : c.expire history computeInfo timeout = some c') :
    Inv model history computeInfo timeout c' b ∧
    c'.mainLeft history.length < c.mainLeft history.length := by
  unfold Checking.expire at hstep
  split at hstep
  case isFalse => cases hstep
  case isTrue hcond =>
    obtain ⟨hphase, htimeout⟩ := hcond
    obtain rfl := Option.some.inj hstep
    have hmain := h.main
    unfold MainOk at hmain
    rw [hphase] at hmain
    obtain ⟨hc, -, -⟩ := hmain
    constructor
    · refine Running.leave ?_
        ⟨fun _ => htimeout, hc.refuted h.running, fun _ ht => ?_, fun _ ht => ?_⟩
      · exact ⟨h.running.workers, h.running.longest, h.running.killed.at_, h.running.sent⟩
      · cases ht
      · cases ht
    · refine (mainLeft_leave_le history.length).trans_lt ?_
      simp only [mainLeft, hphase]
      omega

/-! ## Runs -/

/-- One turn of any of them. -/
theorem Inv.step (hwf : ∀ p ∈ history, WellFormed p) (hequal : model.EqualSound)
    (h : Inv model history computeInfo timeout c b) {turn : Turn} {c' : Checking ι ο σ}
    (hstep : c.step model history computeInfo timeout turn = some c') :
    ∃ b', Inv model history computeInfo timeout c' b' ∧
      c'.left history.length b' < c.left history.length b := by
  cases turn with
  | goroutine i => exact h.work hwf hequal hstep
  | receive =>
    obtain ⟨hinv, hlt⟩ := h.receive hstep
    exact ⟨b, hinv, Nat.add_lt_add_left hlt _⟩
  | timeout =>
    obtain ⟨hinv, hlt⟩ := h.expire hstep
    exact ⟨b, hinv, Nat.add_lt_add_left hlt _⟩

/-- The most turns goroutine `i` may take. -/
def budget (history : List (List (Entry ι ο))) (i : ℕ) : ℕ :=
  ((callIds (history.getD i [])).length + 2) ^ ((callIds (history.getD i [])).length + 1) + 3

/-- The most turns a run may have. -/
def turnsBound (history : List (List (Entry ι ο))) : ℕ :=
  (Finset.range history.length).sum (budget history) + history.length + 1

theorem verdicts_start (history : List (List (Entry ι ο))) :
    (start history : Checking ι ο σ).workers.filterMap Worker.verdict = [] := by
  induction history with
  | nil => rfl
  | cons p history ih => exact ih

theorem inv_start : Inv model history computeInfo timeout (start history) (budget history) where
  running :=
    { workers := List.length_map _
      longest := List.length_map _
      at_ := fun i p w l hp hw hl => by
        rw [start, List.getElem?_map, hp] at hw
        obtain rfl := Option.some.inj hw
        have hbudget : budget history i =
            ((callIds p).length + 2) ^ ((callIds p).length + 1) + 3 := by
          simp [budget, List.getD, hp]
        rw [hbudget]
        exact .spawned
      sent := by rw [verdicts_start]; rfl }
  main := by
    refine ⟨⟨rfl, [], rfl, by rw [verdicts_start]; exact .nil⟩, rfl, ?_⟩
    cases history with
    | nil => exact .inr rfl
    | cons p history => exact .inl (Nat.succ_pos _)

theorem left_start : (start history : Checking ι ο σ).left history.length (budget history) =
    turnsBound history := rfl

/-- The invariant holds along every run, and the turns taken count against the bound. -/
theorem inv_of_exec (hwf : ∀ p ∈ history, WellFormed p) (hequal : model.EqualSound)
    (h : Inv model history computeInfo timeout c b) {turns : List Turn} {c' : Checking ι ο σ}
    (hrun : exec (Checking.step model history computeInfo timeout) (fun _ _ => True) turns c =
      some c') :
    ∃ b', Inv model history computeInfo timeout c' b' ∧
      turns.length + c'.left history.length b' ≤ c.left history.length b := by
  induction turns generalizing c b with
  | nil =>
    obtain rfl : c = c' := Option.some.inj hrun
    exact ⟨b, h, by simp⟩
  | cons turn turns ih =>
    rw [exec, if_pos trivial] at hrun
    obtain ⟨c₁, hstep, hrest⟩ := Option.bind_eq_some_iff.mp hrun
    obtain ⟨b₁, hinv, hlt⟩ := h.step hwf hequal hstep
    obtain ⟨b', hinv', hle⟩ := ih hinv hrest
    exact ⟨b', hinv', by rw [List.length_cons]; omega⟩

theorem inv_of_reach (hwf : ∀ p ∈ history, WellFormed p) (hequal : model.EqualSound)
    (hrun : Reach (Checking.step model history computeInfo timeout) (fun _ _ => True)
      (start history) c) :
    ∃ b, Inv model history computeInfo timeout c b := by
  refine Reach.invariant (I := fun c => ∃ b, Inv model history computeInfo timeout c b) ?_ hrun
    ⟨_, inv_start⟩
  rintro c turn c' ⟨b, h⟩ - hstep
  obtain ⟨b', h', -⟩ := h.step hwf hequal hstep
  exact ⟨b', h'⟩

theorem Inv.verdict (hinv : Inv model history computeInfo timeout c b) :
    (c.result = some .ok → ∀ p ∈ history, LinearizableEntries model p) ∧
    (c.result = some .illegal → ∃ p ∈ history, ¬ LinearizableEntries model p) ∧
    (c.result = some .unknown → 0 < timeout) := by
  have hmain := hinv.main
  unfold MainOk at hmain
  unfold result
  cases hphase : c.phase with
  | selecting => simp
  | draining => simp
  | returned =>
    rw [hphase] at hmain
    obtain ⟨hs, -⟩ := hmain
    cases hok : c.ok with
    | false => simpa using hs.refuted hok
    | true =>
      cases ht : c.timedOut with
      | false => simpa using hs.proved hok ht
      | true => simpa using hs.timedOut ht

/-- In every interleaving of the goroutines: none of them panics, `Ok` is returned only if every
part is linearizable, `Illegal` only if some part is not, and `Unknown` only with a timeout. -/
theorem checkParallel_verdict (hwf : ∀ p ∈ history, WellFormed p) (hequal : model.EqualSound)
    (hrun : Reach (Checking.step model history computeInfo timeout) (fun _ _ => True)
      (start history) c) :
    (∀ w ∈ c.workers, w ≠ .panicked) ∧
    (c.result = some .ok → ∀ p ∈ history, LinearizableEntries model p) ∧
    (c.result = some .illegal → ∃ p ∈ history, ¬ LinearizableEntries model p) ∧
    (c.result = some .unknown → 0 < timeout) := by
  obtain ⟨b, hinv⟩ := inv_of_reach hwf hequal hrun
  refine ⟨fun w hw => ?_, hinv.verdict⟩
  obtain ⟨i, hi, rfl⟩ := List.mem_iff_getElem.mp hw
  have hi' : i < history.length := hinv.running.workers ▸ hi
  have hi'' : i < c.longest.length := by rwa [hinv.running.longest]
  exact (hinv.running.at_ i _ _ _ (List.getElem?_eq_getElem hi') (List.getElem?_eq_getElem hi)
    (List.getElem?_eq_getElem hi'')).ne_panicked

/-- The search of `putAndGet` in one goroutine: its six turns, and the verdict. -/
def putAndGetTurns : List Turn := List.replicate 6 (.goroutine 0) ++ [.receive]

/-- A list of turns that is possible and returns `Ok`. -/
theorem exists_ok (model : Model ι ο σ) (history : List (List (Entry ι ο))) (computeInfo : Bool)
    (timeout : ℤ) (turns : List Turn)
    (h : ((exec (Checking.step model history computeInfo timeout) (fun _ _ => True) turns
      (start history)).any fun c => decide (c.result = some .ok)) = true) :
    ∃ c, exec (Checking.step model history computeInfo timeout) (fun _ _ => True) turns
      (start history) = some c ∧ c.result = some .ok := by
  obtain ⟨hsome, hresult⟩ := (Option.any_eq_true_iff_get _ _).mp h
  exact ⟨_, (Option.some_get hsome).symm, of_decide_eq_true hresult⟩

theorem exists_checked_putAndGet :
    ∃ c, exec (Checking.step (fillDefault kvModel) [makeEntries putAndGet] true 0) (fun _ _ => True)
      putAndGetTurns (start [makeEntries putAndGet]) = some c ∧ c.result = some .ok :=
  exists_ok _ _ _ _ _ (by decide +kernel)

theorem wellFormed_putAndGet : ∀ p ∈ [makeEntries putAndGet], WellFormed p := by
  intro p hp
  obtain rfl := List.mem_singleton.mp hp
  exact (sorts_makeEntries putAndGet).wellFormed (by decide)

theorem checkParallel_verdict_putAndGet :
    LinearizableEntries (fillDefault kvModel) (makeEntries putAndGet) := by
  obtain ⟨c, hrun, hresult⟩ := exists_checked_putAndGet
  exact (checkParallel_verdict wellFormed_putAndGet KvModel.equalSound
    (Reach.of_exec hrun)).2.1 hresult _ (List.mem_singleton_self _)

/-- A goroutine that cannot move has sent its verdict. -/
theorem Running.sent_of_stuck (h : Running model history computeInfo c b)
    (hp : history[i]? = some p) (hw : c.workers[i]? = some w) (hl : c.longest[i]? = some l)
    (hstuck : c.work model history computeInfo i = none) : ∃ ok, w = .sent ok := by
  have hat := h.at_ i p w l hp hw hl
  simp only [Checking.work, hp, hw, Option.bind_eq_bind, Option.bind_some] at hstuck
  cases hw' : w with
  | sent ok => exact ⟨ok, rfl⟩
  | panicked => exact absurd hw' hat.ne_panicked
  | spawned =>
    simp only [hw'] at hstuck
    split at hstuck <;> cases hstuck
  | searching head s =>
    simp only [hw'] at hstuck
    split at hstuck <;> cases hstuck
  | checked ok l =>
    simp only [hw'] at hstuck
    cases hstuck
  | stored ok =>
    exfalso
    simp only [hw', ite_eq_right_iff] at hstuck
    -- its own verdict is not among those sent, so the channel has room
    have hlt : (c.workers.filterMap Worker.verdict).length < c.workers.length := by
      refine lt_of_le_of_ne (List.length_filterMap_le _ _) fun heq => ?_
      have hsome := isSome_of_length_filterMap heq (List.mem_of_getElem? hw)
      simp [hw', Worker.verdict] at hsome
    have hsent := h.sent
    rw [h.workers] at hlt
    cases hstuck (by omega)

/-- While `checkParallel` has not returned some turn is possible, unless there is nothing to check
and no timeout. -/
theorem Inv.returned_of_stuck (h : Inv model history computeInfo timeout c b)
    (hstuck : ∀ turn, c.step model history computeInfo timeout turn = none) :
    c.phase = .returned ∨ history = [] ∧ timeout ≤ 0 := by
  have hall : ∀ w ∈ c.workers, (Worker.verdict w).isSome := by
    intro w hw
    obtain ⟨i, hi, rfl⟩ := List.mem_iff_getElem.mp hw
    have hi' : i < history.length := h.running.workers ▸ hi
    have hi'' : i < c.longest.length := by rwa [h.running.longest]
    obtain ⟨ok, hok⟩ := h.running.sent_of_stuck (List.getElem?_eq_getElem hi')
      (List.getElem?_eq_getElem hi) (List.getElem?_eq_getElem hi'') (hstuck (.goroutine i))
    rw [hok]
    rfl
  have hsent : c.count + c.results.length = history.length := by
    rw [h.running.sent, List.length_filterMap_eq_countP, List.countP_eq_length.mpr hall,
      h.running.workers]
  have hreceive : c.receive history computeInfo = none := hstuck .receive
  have hexpire : c.expire history computeInfo timeout = none := hstuck .timeout
  have hmain := h.main
  unfold MainOk at hmain
  unfold Checking.receive at hreceive
  cases hphase : c.phase with
  | returned => exact .inl rfl
  | draining =>
    exfalso
    rw [hphase] at hmain hreceive
    cases hresults : c.results with
    | nil =>
      rw [hresults, List.length_nil] at hsent
      have := hmain.2.2
      omega
    | cons result results => simp [hresults] at hreceive
  | selecting =>
    right
    rw [hphase] at hmain hreceive
    cases hresults : c.results with
    | nil =>
      rw [hresults, List.length_nil] at hsent
      obtain hlt | hnil := hmain.2.2
      · omega
      · refine ⟨hnil, not_lt.mp fun hpos => ?_⟩
        simp [Checking.expire, hphase, hpos] at hexpire
    | cons result results =>
      simp only [hresults] at hreceive
      split at hreceive
      · cases hreceive
      · split at hreceive <;> cases hreceive

/-- Without parts and timeout there is no turn at all. -/
theorem start_stuck (htimeout : timeout ≤ 0) (turn : Turn) :
    (start [] : Checking ι ο σ).step model [] computeInfo timeout turn = none := by
  cases turn with
  | goroutine i => rfl
  | receive => rfl
  | timeout => simp [Checking.step, Checking.expire, not_lt.mpr htimeout]

theorem bound_and_progress (hwf : ∀ p ∈ history, WellFormed p) (hequal : model.EqualSound)
    {turns : List Turn}
    (hrun : exec (Checking.step model history computeInfo timeout) (fun _ _ => True) turns
      (start history) = some c) :
    turns.length ≤ turnsBound history ∧
    ((∀ turn, c.step model history computeInfo timeout turn = none) →
      c.result = none → history = [] ∧ timeout ≤ 0) := by
  obtain ⟨b, hinv, hle⟩ := inv_of_exec hwf hequal inv_start hrun
  rw [left_start] at hle
  refine ⟨by omega, fun hstuck hnone =>
    (hinv.returned_of_stuck hstuck).resolve_left fun hphase => ?_⟩
  simp [result, hphase] at hnone

/-- However the goroutines are scheduled, a run is finite, and one that cannot go on has returned;
only with nothing to check and no timeout it waits for ever. -/
theorem checkParallel_returns (hwf : ∀ p ∈ history, WellFormed p) (hequal : model.EqualSound)
    {turns : List Turn}
    (hrun : exec (Checking.step model history computeInfo timeout) (fun _ _ => True) turns
      (start history) = some c) :
    turns.length ≤ turnsBound history ∧
    ((∀ turn, c.step model history computeInfo timeout turn = none) →
      (c.result = none ↔ history = [] ∧ timeout ≤ 0)) := by
  obtain ⟨hbound, hprogress⟩ := bound_and_progress hwf hequal hrun
  refine ⟨hbound, fun hstuck => ⟨hprogress hstuck, ?_⟩⟩
  rintro ⟨rfl, htimeout⟩
  cases turns with
  | nil =>
    obtain rfl : start [] = c := Option.some.inj hrun
    rfl
  | cons turn turns => simp [exec, start_stuck htimeout] at hrun

theorem checkParallel_returns_putAndGet :
    putAndGetTurns.length ≤ turnsBound [makeEntries putAndGet] := by
  obtain ⟨c, hrun, -⟩ := exists_checked_putAndGet
  exact (checkParallel_returns wellFormed_putAndGet KvModel.equalSound hrun).1

end Checking

end LogicRaft.Porcupine
