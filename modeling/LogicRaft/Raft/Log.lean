import Mathlib.Data.List.Basic
import Mathlib.Order.Defs.PartialOrder
import Mathlib.Order.Nat

/-!
# The log (`raft/log.go`)

Records are addressed by absolute index; `base` is the absolute index of the first stored record.
That record is a placeholder: it keeps the term of the last compacted entry and carries no command.

`Log.records` is never empty after `Make` has appended the first placeholder, so the invariant is a
field of the structure and `lastLogTerm` needs no error path. Reading outside the stored range is a
Go index panic, modelled by `none`.
-/

namespace LogicRaft

/-- `InvalidTerm` and `InvalidIndex` of `raft.go`. -/
def invalidTerm : ℕ := 0

@[inherit_doc invalidTerm] def invalidIndex : ℕ := 0

/-- A log record. `command = none` is Go's nil `interface{}`. -/
structure LogRecord (α : Type) where
  term : ℕ
  commandValid : Bool := false
  command : Option α := none
deriving DecidableEq, Repr

/-- The log of a peer: stored records and the absolute index of the first one. -/
structure Log (α : Type) where
  records : List (LogRecord α)
  base : ℕ
  records_ne_nil : records ≠ []
deriving DecidableEq

namespace Log

variable {α : Type}

@[ext] theorem ext {l l' : Log α} (hr : l.records = l'.records) (hb : l.base = l'.base) :
    l = l' := by
  cases l; cases l'; cases hr; cases hb; rfl

/-- A log that starts at `base` with a placeholder of the given term, followed by `rest`. This is
how `Make`, `Snapshot` and `InstallSnapshot` build a log. -/
def fresh (base term : ℕ) (rest : List (LogRecord α)) : Log α where
  records := { term } :: rest
  base
  records_ne_nil := by simp

def append (log : Log α) (lr : LogRecord α) : Log α where
  records := log.records ++ [lr]
  base := log.base
  records_ne_nil := by simp

/-- `log.Records[i-log.Base]`, `none` where Go panics. -/
def get (log : Log α) (i : ℕ) : Option (LogRecord α) :=
  if i < log.base then none else log.records[i - log.base]?

def size (log : Log α) : ℕ := log.base + log.records.length

def lastLogTerm (log : Log α) : ℕ := (log.records.getLast log.records_ne_nil).term

/-- The term of the placeholder, `log.Records[0].Term`. -/
def baseTerm (log : Log α) : ℕ := (log.records.head log.records_ne_nil).term

/-- The loop of `firstLogFor` over the records from position `idx` on. -/
def firstLogForFrom (term : ℕ) : ℕ → List (LogRecord α) → ℕ
  | _, [] => invalidIndex
  | idx, record :: rest =>
    if record.term = term then idx
    else if record.term > term then invalidIndex
    else firstLogForFrom term (idx + 1) rest

/-- The position in `Records` (not the absolute index) of the first record of a term. -/
def firstLogFor (log : Log α) (term : ℕ) : ℕ := firstLogForFrom term 0 log.records

/-- The records from absolute index `i` on, `log.Records[i-log.Base:]` for `log.Base ≤ i`. -/
def suffixFrom (log : Log α) (i : ℕ) : List (LogRecord α) := log.records.drop (i - log.base)

/-- `append(log.Records[:i+1-log.Base], entries...)` for `log.Base ≤ i`: keep everything up to
absolute index `i`, drop the rest and put `entries` there. -/
def spliceAfter (log : Log α) (i : ℕ) (entries : List (LogRecord α)) : Log α where
  records := log.records.take (i - log.base + 1) ++ entries
  base := log.base
  records_ne_nil := by simp [log.records_ne_nil]

/-! ## Sizes and reads -/

@[simp] theorem base_append (log : Log α) (lr : LogRecord α) : (log.append lr).base = log.base :=
  rfl

@[simp] theorem base_spliceAfter (log : Log α) (i : ℕ) (es : List (LogRecord α)) :
    (log.spliceAfter i es).base = log.base := rfl

@[simp] theorem base_fresh (b t : ℕ) (rest : List (LogRecord α)) : (fresh b t rest).base = b := rfl

@[simp] theorem baseTerm_fresh (b t : ℕ) (rest : List (LogRecord α)) :
    (fresh b t rest).baseTerm = t := rfl

@[simp] theorem baseTerm_append (log : Log α) (lr : LogRecord α) :
    (log.append lr).baseTerm = log.baseTerm := by
  simp only [baseTerm, append, List.head_append_of_ne_nil log.records_ne_nil]

@[simp] theorem baseTerm_spliceAfter (log : Log α) (i : ℕ) (es : List (LogRecord α)) :
    (log.spliceAfter i es).baseTerm = log.baseTerm := by
  have htake : log.records.take (i - log.base + 1) ≠ [] := by simp [log.records_ne_nil]
  simp only [baseTerm, spliceAfter, List.head_append_of_ne_nil htake, List.head_take]

@[simp] theorem size_append (log : Log α) (lr : LogRecord α) :
    (log.append lr).size = log.size + 1 := by
  simp [size, append, Nat.add_assoc]

@[simp] theorem size_fresh (b t : ℕ) (rest : List (LogRecord α)) :
    (fresh b t rest).size = b + 1 + rest.length := by
  simp only [size, fresh, List.length_cons]
  omega

theorem length_pos (log : Log α) : 0 < log.records.length :=
  List.length_pos_iff.mpr log.records_ne_nil

theorem base_lt_size (log : Log α) : log.base < log.size := by
  have := log.length_pos
  simp only [size]
  omega

/-- A read succeeds exactly between `base` and `size`. -/
theorem get_isSome_iff (log : Log α) (i : ℕ) :
    (log.get i).isSome ↔ log.base ≤ i ∧ i < log.size := by
  simp only [get, size]
  split
  · simp; omega
  · simp
    omega

theorem bounds_of_get {log : Log α} {i : ℕ} {r : LogRecord α} (h : log.get i = some r) :
    log.base ≤ i ∧ i < log.size :=
  (log.get_isSome_iff i).mp (by rw [h]; rfl)

theorem exists_get {log : Log α} {i : ℕ} (hbase : log.base ≤ i) (hsize : i < log.size) :
    ∃ r, log.get i = some r :=
  Option.isSome_iff_exists.mp ((log.get_isSome_iff i).mpr ⟨hbase, hsize⟩)

theorem get_eq_none_iff (log : Log α) (i : ℕ) :
    log.get i = none ↔ i < log.base ∨ log.size ≤ i := by
  rw [← Option.not_isSome_iff_eq_none, get_isSome_iff]
  omega

theorem get_of_lt_base (log : Log α) {i : ℕ} (h : i < log.base) : log.get i = none := by
  rw [get, if_pos h]

theorem get_of_base_le (log : Log α) {i : ℕ} (h : log.base ≤ i) :
    log.get i = log.records[i - log.base]? := by
  rw [get, if_neg (by omega)]

theorem getElem?_records (log : Log α) (k : ℕ) : log.records[k]? = log.get (log.base + k) := by
  rw [get_of_base_le _ (by omega), Nat.add_sub_cancel_left]

/-- A log is determined by its base and what it reads. -/
theorem eq_of_get {l l' : Log α} (hbase : l.base = l'.base) (hget : ∀ k, l.get k = l'.get k) :
    l = l' := by
  refine ext (List.ext_getElem? fun k => ?_) hbase
  rw [getElem?_records, getElem?_records, hbase, hget]

theorem get_append (log : Log α) (lr : LogRecord α) (i : ℕ) :
    (log.append lr).get i = if i = log.size then some lr else log.get i := by
  have hsize : log.size = log.base + log.records.length := rfl
  by_cases hb : i < log.base
  · rw [get_of_lt_base _ (by simpa using hb), get_of_lt_base _ hb, if_neg (by omega)]
  · rw [get_of_base_le _ (by simpa using hb), get_of_base_le _ (by omega)]
    simp only [append]
    rw [List.getElem?_append]
    by_cases hi : i = log.size
    · rw [if_pos hi, if_neg (by omega), show i - log.base - log.records.length = 0 by omega]
      rfl
    · rw [if_neg hi]
      split
      · rfl
      · rw [List.getElem?_eq_none (by simp; omega), List.getElem?_eq_none (by omega)]

/-- Above the placeholder a fresh log reads its records. -/
theorem get_fresh (b t : ℕ) (rest : List (LogRecord α)) {i : ℕ} (h : b < i) :
    (fresh b t rest).get i = rest[i - (b + 1)]? := by
  rw [get_of_base_le _ (by simp; omega)]
  simp only [fresh]
  rw [show i - b = i - (b + 1) + 1 by omega, List.getElem?_cons_succ]

theorem get_base (log : Log α) : ∃ r, log.get log.base = some r ∧ r.term = log.baseTerm := by
  refine ⟨log.records.head log.records_ne_nil, ?_, rfl⟩
  rw [get_of_base_le _ (Nat.le_refl _), Nat.sub_self, ← List.head?_eq_getElem?,
    List.head?_eq_some_head]

theorem lastLogTerm_eq (log : Log α) :
    ∃ r, log.get (log.size - 1) = some r ∧ r.term = log.lastLogTerm := by
  have hpos := log.length_pos
  refine ⟨log.records.getLast log.records_ne_nil, ?_, rfl⟩
  rw [get_of_base_le _ (by simp only [size]; omega), size,
    show log.base + log.records.length - 1 - log.base = log.records.length - 1 by omega,
    ← List.getLast?_eq_getElem?, List.getLast?_eq_some_getLast]

theorem getElem?_suffixFrom (log : Log α) {i : ℕ} (h : log.base ≤ i) (j : ℕ) :
    (log.suffixFrom i)[j]? = log.get (i + j) := by
  rw [suffixFrom, List.getElem?_drop, get_of_base_le _ (by omega)]
  congr 1
  omega

theorem length_suffixFrom (log : Log α) {i : ℕ} (h : log.base ≤ i) :
    (log.suffixFrom i).length = log.size - i := by
  rw [suffixFrom, List.length_drop, size]
  omega

theorem size_spliceAfter (log : Log α) {i : ℕ} (hb : log.base ≤ i) (hs : i < log.size)
    (es : List (LogRecord α)) : (log.spliceAfter i es).size = i + 1 + es.length := by
  simp only [size] at hs
  simp only [size, spliceAfter, List.length_append, List.length_take]
  omega

theorem get_spliceAfter (log : Log α) {i : ℕ} (hb : log.base ≤ i) (hs : i < log.size)
    (es : List (LogRecord α)) (k : ℕ) :
    (log.spliceAfter i es).get k = if k ≤ i then log.get k else es[k - (i + 1)]? := by
  simp only [size] at hs
  by_cases hkb : k < log.base
  · rw [get_of_lt_base _ (by simpa using hkb), get_of_lt_base _ hkb, if_pos (by omega)]
  · rw [get_of_base_le _ (by simpa using hkb), get_of_base_le _ (by omega)]
    simp only [spliceAfter]
    split
    · rw [List.getElem?_append_left (by rw [List.length_take]; omega),
        List.getElem?_take_of_lt (by omega)]
    · rw [List.getElem?_append_right (by rw [List.length_take]; omega), List.length_take]
      congr 1
      omega

/-! ## Compaction -/

/-- A log cut off at `i` keeps what it has above `i`. -/
theorem get_fresh_suffixFrom (log : Log α) {i k : ℕ} (t : ℕ) (hb : log.base ≤ i) (hk : i < k) :
    (fresh i t (log.suffixFrom (i + 1))).get k = log.get k := by
  rw [get_fresh _ _ _ hk, getElem?_suffixFrom _ (by omega)]
  congr 1
  omega

theorem size_fresh_suffixFrom (log : Log α) {i : ℕ} (t : ℕ) (hb : log.base ≤ i) :
    (fresh i t (log.suffixFrom (i + 1))).size = max log.size (i + 1) := by
  rw [size_fresh, length_suffixFrom _ (by omega)]
  omega

/-- The placeholder of a fresh log. -/
theorem get_fresh_base (b t : ℕ) (rest : List (LogRecord α)) :
    (fresh b t rest).get b = some { term := t } := by
  rw [get_of_base_le _ (by simp), base_fresh, Nat.sub_self]
  rfl

theorem lastLogTerm_of_get {log : Log α} {r : LogRecord α} (h : log.get (log.size - 1) = some r) :
    log.lastLogTerm = r.term := by
  obtain ⟨r', hr', hterm⟩ := log.lastLogTerm_eq
  rw [hr'] at h
  rw [← hterm, Option.some.inj h]

/-- Compaction inside the log keeps its last term. -/
theorem lastLogTerm_fresh_suffixFrom (log : Log α) {i : ℕ} {last : LogRecord α}
    (hb : log.base ≤ i) (hlast : log.get i = some last) :
    (fresh i last.term (log.suffixFrom (i + 1))).lastLogTerm = log.lastLogTerm := by
  have hlt : i < log.size := (bounds_of_get hlast).2
  have hsize : (fresh i last.term (log.suffixFrom (i + 1))).size = log.size := by
    rw [size_fresh_suffixFrom log _ hb]
    omega
  by_cases hi : i = log.size - 1
  · have hmine : (fresh i last.term (log.suffixFrom (i + 1))).get
        ((fresh i last.term (log.suffixFrom (i + 1))).size - 1) = some { term := last.term } := by
      rw [hsize, ← hi]
      exact get_fresh_base _ _ _
    rw [hi] at hlast
    rw [lastLogTerm_of_get hmine, lastLogTerm_of_get hlast]
  · obtain ⟨r, hr, hterm⟩ := log.lastLogTerm_eq
    have hmine : (fresh i last.term (log.suffixFrom (i + 1))).get
        ((fresh i last.term (log.suffixFrom (i + 1))).size - 1) = some r := by
      rw [hsize, get_fresh_suffixFrom log _ hb (by omega), hr]
    rw [lastLogTerm_of_get hmine, hterm]

/-! ## Terms in order, and the search for a term -/

/-- The terms are nondecreasing. -/
def TermsSorted (log : Log α) : Prop := (log.records.map LogRecord.term).Pairwise (· ≤ ·)

instance (log : Log α) : Decidable log.TermsSorted :=
  inferInstanceAs (Decidable ((log.records.map LogRecord.term).Pairwise (· ≤ ·)))

theorem termsSorted_iff {log : Log α} :
    log.TermsSorted ↔ ∀ i j r r', i ≤ j → log.get i = some r → log.get j = some r' →
      r.term ≤ r'.term := by
  rw [TermsSorted, List.pairwise_map, List.pairwise_iff_getElem]
  constructor
  · intro h i j r r' hij hr hr'
    obtain ⟨hi, -⟩ := bounds_of_get hr
    rcases Nat.eq_or_lt_of_le hij with rfl | hlt
    · rw [hr] at hr'
      exact Nat.le_of_eq (congrArg LogRecord.term (Option.some.inj hr'))
    · rw [get_of_base_le _ hi] at hr
      rw [get_of_base_le _ (by omega)] at hr'
      obtain ⟨hlen, rfl⟩ := List.getElem?_eq_some_iff.mp hr
      obtain ⟨hlen', rfl⟩ := List.getElem?_eq_some_iff.mp hr'
      exact h _ _ hlen hlen' (by omega)
  · intro h i j hi hj hij
    have hget : ∀ k (hk : k < log.records.length),
        log.get (log.base + k) = some log.records[k] := by
      intro k hk
      rw [← getElem?_records, List.getElem?_eq_getElem hk]
    exact h _ _ _ _ (by omega) (hget i hi) (hget j hj)

/-- `m` is the smallest absolute index of a record of the term. -/
structure FirstOf (log : Log α) (term m : ℕ) : Prop where
  here : ∃ r, log.get m = some r ∧ r.term = term
  first : ∀ k < m, ∀ r, log.get k = some r → r.term ≠ term

/-- All records before `m` are of smaller terms. -/
def Below (log : Log α) (term m : ℕ) : Prop := ∀ k < m, ∀ r, log.get k = some r → r.term < term

theorem FirstOf.eq {log : Log α} {term m m' : ℕ} (h : log.FirstOf term m)
    (h' : log.FirstOf term m') : m = m' := by
  obtain ⟨r, hr, hterm⟩ := h.here
  obtain ⟨r', hr', hterm'⟩ := h'.here
  rcases Nat.lt_trichotomy m m' with hlt | heq | hgt
  · exact absurd hterm (h'.first m hlt r hr)
  · exact heq
  · exact absurd hterm' (h.first m' hgt r' hr')

theorem FirstOf.bounds {log : Log α} {term m : ℕ} (h : log.FirstOf term m) :
    log.base ≤ m ∧ m < log.size := by
  obtain ⟨r, hr, -⟩ := h.here
  exact bounds_of_get hr

/-- A term that occurs has a first index. -/
theorem exists_firstOf {log : Log α} {k : ℕ} {r : LogRecord α} (hr : log.get k = some r) :
    ∃ m ≤ k, log.FirstOf r.term m := by
  classical
  have hex : ∃ m, ∃ x, log.get m = some x ∧ x.term = r.term := ⟨k, r, hr, rfl⟩
  refine ⟨Nat.find hex, Nat.find_min' hex ⟨r, hr, rfl⟩, Nat.find_spec hex, ?_⟩
  intro j hj x hx hterm
  exact Nat.find_min hex hj ⟨x, hx, hterm⟩

theorem TermsSorted.below {log : Log α} (hsorted : log.TermsSorted) {term m : ℕ}
    (h : log.FirstOf term m) : log.Below term m := by
  intro k hk r hr
  obtain ⟨r', hr', hterm⟩ := h.here
  have hle := termsSorted_iff.mp hsorted k m r r' (Nat.le_of_lt hk) hr hr'
  have hne := h.first k hk r hr
  omega

/-- The search passes over smaller terms and gives up at a greater one. -/
theorem firstLogForFrom_cases (term idx : ℕ) (records : List (LogRecord α)) :
    (∃ (m : ℕ) (r : LogRecord α), records[m]? = some r ∧ r.term = term ∧
        (∀ j < m, ∀ x : LogRecord α, records[j]? = some x → x.term < term) ∧
        firstLogForFrom term idx records = idx + m) ∨
      ((∀ (m : ℕ) (r : LogRecord α), records[m]? = some r → r.term = term →
        ∃ j < m, ∃ x : LogRecord α, records[j]? = some x ∧ term < x.term) ∧
        firstLogForFrom term idx records = invalidIndex) := by
  induction records generalizing idx with
  | nil => exact Or.inr ⟨fun m r hr => (by cases hr), rfl⟩
  | cons record rest ih =>
    rw [firstLogForFrom]
    split
    case isTrue heq => exact Or.inl ⟨0, record, rfl, heq, fun j hj => by omega, rfl⟩
    case isFalse hne =>
      split
      case isTrue hgt =>
        refine Or.inr ⟨fun m r hr hterm => ?_, rfl⟩
        cases m with
        | zero =>
          obtain rfl := Option.some.inj hr
          exact absurd hterm hne
        | succ m => exact ⟨0, Nat.succ_pos m, record, rfl, hgt⟩
      case isFalse hngt =>
        rcases ih (idx + 1) with ⟨m, r, hr, hterm, hlt, heq⟩ | ⟨hnone, heq⟩
        · refine Or.inl ⟨m + 1, r, hr, hterm, fun j hj x hx => ?_, by omega⟩
          cases j with
          | zero =>
            obtain rfl := Option.some.inj hx
            omega
          | succ j => exact hlt j (by omega) x hx
        · refine Or.inr ⟨fun m r hr hterm => ?_, heq⟩
          cases m with
          | zero =>
            obtain rfl := Option.some.inj hr
            exact absurd hterm hne
          | succ m =>
            obtain ⟨j, hj, x, hx, hgt⟩ := hnone m r hr hterm
            exact ⟨j + 1, by omega, x, hx, hgt⟩

/-- The search finds the first record of the term if all records before it are of smaller terms,
and returns its position in `Records`. -/
theorem firstLogFor_of_below {log : Log α} {term m : ℕ} (h : log.FirstOf term m)
    (hbelow : log.Below term m) : log.firstLogFor term = m - log.base := by
  obtain ⟨r, hr, hterm⟩ := h.here
  obtain ⟨hbase, -⟩ := bounds_of_get hr
  rcases firstLogForFrom_cases term 0 log.records with ⟨k, x, hx, hxterm, hlt, heq⟩ | ⟨hnone, -⟩
  · have hfirst : log.FirstOf term (log.base + k) := by
      refine ⟨⟨x, (log.getElem?_records k).symm.trans hx, hxterm⟩, fun j hj y hy hyterm => ?_⟩
      obtain ⟨hj', -⟩ := bounds_of_get hy
      rw [get_of_base_le _ hj'] at hy
      have hylt := hlt (j - log.base) (by omega) y hy
      omega
    have hm := h.eq hfirst
    rw [firstLogFor, heq]
    omega
  · rw [get_of_base_le _ hbase] at hr
    obtain ⟨j, hj, x, hx, hgt⟩ := hnone _ r hr hterm
    rw [getElem?_records] at hx
    have hxlt := hbelow _ (by omega) x hx
    omega

/-- Otherwise it returns `InvalidIndex`. -/
theorem firstLogFor_eq_invalidIndex {log : Log α} {term : ℕ}
    (h : ∀ m, log.FirstOf term m → ¬ log.Below term m) : log.firstLogFor term = invalidIndex := by
  rcases firstLogForFrom_cases term 0 log.records with ⟨k, x, hx, hxterm, hlt, -⟩ | ⟨-, heq⟩
  · have hbelow : log.Below term (log.base + k) := by
      intro j hj y hy
      obtain ⟨hj', -⟩ := bounds_of_get hy
      rw [get_of_base_le _ hj'] at hy
      exact hlt (j - log.base) (by omega) y hy
    have hfirst : log.FirstOf term (log.base + k) :=
      ⟨⟨x, (log.getElem?_records k).symm.trans hx, hxterm⟩,
        fun j hj y hy => Nat.ne_of_lt (hbelow j hj y hy)⟩
    exact absurd hbelow (h _ hfirst)
  · exact heq

end Log

end LogicRaft
