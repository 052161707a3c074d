import Mathlib.Data.Finset.Card
import Mathlib.Data.Finset.Range
import Mathlib.Data.List.Basic

/-!
# The bitset of the linearizability checker

`porcupine/bitset.go` keeps the set of operations linearized so far as a slice of 64-bit words. A
write or read outside the slice panics, which is `none` here. The Go methods change the slice in
place and `clone` copies it first; in the model a bitset is a value, so a copy is the value itself.

`bit` is what a position holds. Each operation is described by its effect on `bit`, and a bitset of
given length is determined by its bits (`ext_bit`), so set and clear undo each other exactly and
comparing words compares sets.
-/

namespace LogicRaft.Porcupine

/-- `bitset`: bits 0-63 are in the first word, the next in the second, and so on. -/
structure Bitset where
  words : List (BitVec 64)
deriving DecidableEq

namespace Bitset

/-- `newBitset(bits)`. -/
def newBitset (bits : ℕ) : Bitset :=
  let extra := if bits % 64 ≠ 0 then 1 else 0
  ⟨List.replicate (bits / 64 + extra) 0⟩

/-- `bitsetIndex`: the word and the bit in it. -/
def bitsetIndex (pos : ℕ) : ℕ × ℕ := (pos / 64, pos % 64)

/-- `b[major] |= (1 << minor)`. -/
def set (b : Bitset) (pos : ℕ) : Option Bitset :=
  let (major, minor) := bitsetIndex pos
  b.words[major]?.map fun word => ⟨b.words.set major (word ||| 1#64 <<< minor)⟩

/-- `b[major] &^= (1 << minor)`. -/
def clear (b : Bitset) (pos : ℕ) : Option Bitset :=
  let (major, minor) := bitsetIndex pos
  b.words[major]?.map fun word => ⟨b.words.set major (word &&& ~~~(1#64 <<< minor))⟩

/-- `b[major]&(1<<minor) != 0`. -/
def get (b : Bitset) (pos : ℕ) : Option Bool :=
  let (major, minor) := bitsetIndex pos
  b.words[major]?.map fun word => word &&& 1#64 <<< minor != 0

/-- `bits.OnesCount64`. -/
def onesCount64 (word : BitVec 64) : ℕ := (List.range 64).countP fun i => word.getLsbD i

def popcnt (b : Bitset) : ℕ := b.words.foldl (fun total v => total + onesCount64 v) 0

def hash (b : Bitset) : BitVec 64 :=
  b.words.foldl (fun hash v => hash ^^^ v) (BitVec.ofNat 64 b.popcnt)

def equals (b b2 : Bitset) : Bool :=
  if b.words.length ≠ b2.words.length then false
  else (b.words.zip b2.words).all fun (v, v2) => v == v2

/-! ## Bits -/

/-- Positions the bitset has room for. -/
def size (b : Bitset) : ℕ := 64 * b.words.length

/-- What position `pos` holds. -/
def bit (b : Bitset) (pos : ℕ) : Bool := (b.words.getD (pos / 64) 0).getLsbD (pos % 64)

theorem le_size_newBitset (bits : ℕ) : bits ≤ (newBitset bits).size := by
  unfold size newBitset
  rw [List.length_replicate]
  split <;> omega

@[simp] theorem bit_newBitset (bits pos : ℕ) : (newBitset bits).bit pos = false := by
  have hword : (newBitset bits).words.getD (pos / 64) 0 = 0 := by
    rw [newBitset, List.getD_eq_getElem?_getD, List.getElem?_replicate]
    generalize bits / 64 + _ = chunks
    split <;> rfl
  rw [bit, hword]
  exact BitVec.getLsbD_zero

theorem getLsbD_one_shiftLeft {i j : ℕ} (hi : i < 64) (hj : j < 64) :
    (1#64 <<< i).getLsbD j = decide (i = j) := by
  rw [BitVec.getLsbD_shiftLeft, BitVec.getLsbD_one]
  by_cases hij : i = j
  · subst hij
    simp [hi]
  · simp only [hij, decide_false]
    by_cases hlt : j < i
    · simp [hlt]
    · have : j - i ≠ 0 := by omega
      simp [this]

/-- A word that differs from the old one at `minor` at most. -/
theorem bit_set_word {b : Bitset} {pos : ℕ} {word : BitVec 64}
    (hword : b.words[pos / 64]? = some word) {word' : BitVec 64} {v : Bool}
    (hv : ∀ j < 64, word'.getLsbD j = if j = pos % 64 then v else word.getLsbD j) (q : ℕ) :
    bit ⟨b.words.set (pos / 64) word'⟩ q = if q = pos then v else b.bit q := by
  have hlt : pos / 64 < b.words.length := (List.getElem?_eq_some_iff.mp hword).1
  unfold bit
  simp only [List.getD_eq_getElem?_getD, List.getElem?_set]
  by_cases hmajor : pos / 64 = q / 64
  · rw [if_pos hmajor, if_pos hlt, ← hmajor, hword]
    simp only [Option.getD_some]
    rw [hv _ (Nat.mod_lt q (by decide))]
    have hiff : q % 64 = pos % 64 ↔ q = pos := by omega
    simp only [hiff]
  · have hne : q ≠ pos := fun h => hmajor (by rw [h])
    rw [if_neg hmajor, if_neg hne]

/-- Inside the bitset `set` makes the position true and leaves the others. -/
theorem set_spec {b : Bitset} {pos : ℕ} (hpos : pos < b.size) :
    ∃ b', b.set pos = some b' ∧ b'.size = b.size ∧
      ∀ q, b'.bit q = if q = pos then true else b.bit q := by
  have hlt : pos / 64 < b.words.length := by unfold size at hpos; omega
  have hword := List.getElem?_eq_getElem hlt
  refine ⟨⟨b.words.set (pos / 64) (b.words[pos / 64] ||| 1#64 <<< (pos % 64))⟩, ?_, ?_, ?_⟩
  · simp only [set, bitsetIndex, hword, Option.map_some]
  · simp [size]
  · refine bit_set_word hword fun j hj => ?_
    rw [BitVec.getLsbD_or, getLsbD_one_shiftLeft (Nat.mod_lt pos (by decide)) hj]
    by_cases h : j = pos % 64
    · simp [h]
    · simp [h, Ne.symm h]

/-- Inside the bitset `clear` makes the position false and leaves the others. -/
theorem clear_spec {b : Bitset} {pos : ℕ} (hpos : pos < b.size) :
    ∃ b', b.clear pos = some b' ∧ b'.size = b.size ∧
      ∀ q, b'.bit q = if q = pos then false else b.bit q := by
  have hlt : pos / 64 < b.words.length := by unfold size at hpos; omega
  have hword := List.getElem?_eq_getElem hlt
  refine ⟨⟨b.words.set (pos / 64) (b.words[pos / 64] &&& ~~~(1#64 <<< (pos % 64)))⟩, ?_, ?_, ?_⟩
  · simp only [clear, bitsetIndex, hword, Option.map_some]
  · simp [size]
  · refine bit_set_word hword fun j hj => ?_
    rw [BitVec.getLsbD_and, BitVec.getLsbD_not,
      getLsbD_one_shiftLeft (Nat.mod_lt pos (by decide)) hj]
    by_cases h : j = pos % 64
    · simp [h]
    · simp [h, Ne.symm h, hj]

/-- `get` reads the bit. -/
theorem get_spec {b : Bitset} {pos : ℕ} (hpos : pos < b.size) : b.get pos = some (b.bit pos) := by
  have hlt : pos / 64 < b.words.length := by unfold size at hpos; omega
  have hmod : pos % 64 < 64 := Nat.mod_lt pos (by decide)
  simp only [get, bitsetIndex, bit, List.getD_eq_getElem?_getD, List.getElem?_eq_getElem hlt,
    Option.map_some, Option.getD_some, Option.some.injEq]
  generalize b.words[pos / 64] = word
  -- the masked word is zero exactly when its bit `minor` is
  have hbits : ∀ j < 64, (word &&& 1#64 <<< (pos % 64)).getLsbD j =
      (word.getLsbD j && decide (pos % 64 = j)) := by
    intro j hj
    rw [BitVec.getLsbD_and, getLsbD_one_shiftLeft hmod hj]
  cases hbit : word.getLsbD (pos % 64) with
  | true =>
    refine bne_iff_ne.mpr fun hzero => ?_
    have hj := hbits (pos % 64) hmod
    simp [hzero, hbit] at hj
  | false =>
    refine bne_eq_false_iff_eq.mpr (BitVec.eq_of_getLsbD_eq fun j hj => ?_)
    rw [hbits j hj]
    by_cases h : pos % 64 = j
    · simp [← h, hbit]
    · simp [h]

/-- A bitset is determined by its size and its bits. -/
theorem ext_bit {b b' : Bitset} (hsize : b.size = b'.size)
    (h : ∀ pos < b.size, b.bit pos = b'.bit pos) :
    b = b' := by
  obtain ⟨ws⟩ := b
  obtain ⟨ws'⟩ := b'
  have hlen : ws.length = ws'.length := by simp only [size] at hsize; omega
  congr 1
  refine List.ext_getElem hlen fun k hk hk' => BitVec.eq_of_getLsbD_eq fun j hj => ?_
  have hbit := h (64 * k + j) (by simp only [size]; omega)
  have hdiv : (64 * k + j) / 64 = k := by omega
  have hmod : (64 * k + j) % 64 = j := by omega
  simpa [bit, hdiv, hmod, List.getD_eq_getElem?_getD, List.getElem?_eq_getElem hk,
    List.getElem?_eq_getElem hk'] using hbit

/-- `equals` compares word by word. -/
theorem equals_iff (b b' : Bitset) : b.equals b' = true ↔ b = b' := by
  obtain ⟨ws⟩ := b
  obtain ⟨ws'⟩ := b'
  simp only [equals, mk.injEq]
  constructor
  · intro h
    split at h
    case isTrue => cases h
    case isFalse hlen =>
      have hlen : ws.length = ws'.length := not_not.mp hlen
      refine List.ext_getElem hlen fun k hk hk' => ?_
      have hmem : (ws[k], ws'[k]) ∈ ws.zip ws' := by
        rw [← List.getElem_zip (h := by simp [hk, hk'])]
        exact List.getElem_mem _
      simpa using List.all_eq_true.mp h _ hmem
  · rintro rfl
    rw [if_neg (by simp)]
    refine List.all_eq_true.mpr fun x hx => ?_
    obtain ⟨k, hk, rfl⟩ := List.mem_iff_getElem.mp hx
    simp

/-! ## Counting -/

/-- Positions that hold a one. -/
def members (b : Bitset) : Finset ℕ := (Finset.range b.size).filter fun pos => b.bit pos

theorem bit_cons_lt (word : BitVec 64) (ws : List (BitVec 64)) {pos : ℕ} (hpos : pos < 64) :
    bit ⟨word :: ws⟩ pos = word.getLsbD pos := by
  have hdiv : pos / 64 = 0 := by omega
  have hmod : pos % 64 = pos := by omega
  simp [bit, hdiv, hmod]

theorem bit_cons_add (word : BitVec 64) (ws : List (BitVec 64)) (pos : ℕ) :
    bit ⟨word :: ws⟩ (64 + pos) = bit ⟨ws⟩ pos := by
  have hdiv : (64 + pos) / 64 = pos / 64 + 1 := by omega
  have hmod : (64 + pos) % 64 = pos % 64 := by omega
  simp [bit, hdiv, hmod]

/-- The ones of the words are counted position by position. -/
theorem foldl_onesCount64 (ws : List (BitVec 64)) (total : ℕ) :
    ws.foldl (fun total v => total + onesCount64 v) total =
      total + (List.range (64 * ws.length)).countP (bit ⟨ws⟩) := by
  induction ws generalizing total with
  | nil => simp
  | cons word ws ih =>
    have hsplit : 64 * (word :: ws).length = 64 + 64 * ws.length := by
      rw [List.length_cons]
      omega
    have hword : onesCount64 word = (List.range 64).countP (bit ⟨word :: ws⟩) :=
      List.countP_congr fun pos hpos => by rw [bit_cons_lt word ws (List.mem_range.mp hpos)]
    have hrest : (bit ⟨word :: ws⟩ ∘ fun pos => 64 + pos) = bit ⟨ws⟩ :=
      funext fun pos => bit_cons_add word ws pos
    rw [List.foldl_cons, ih, hsplit, List.range_add, List.countP_append, List.countP_map,
      hrest, hword, Nat.add_assoc]

theorem popcnt_eq_card (b : Bitset) : b.popcnt = b.members.card := by
  rw [popcnt, foldl_onesCount64, Nat.zero_add, List.countP_eq_length_filter]
  simp only [members, Finset.card, Finset.filter_val, Finset.range_val, Multiset.range,
    Multiset.filter_coe, Multiset.coe_card, Bool.decide_eq_true]
  rfl

/-! ## Sets of operations -/

/-- A change the checker makes to a bitset. -/
inductive Edit
  | set (pos : ℕ)
  | clear (pos : ℕ)
deriving DecidableEq

def Edit.pos : Edit → ℕ
  | .set pos => pos
  | .clear pos => pos

def Edit.apply (b : Bitset) : Edit → Option Bitset
  | .set pos => b.set pos
  | .clear pos => b.clear pos

/-- The same change of a finite set. -/
def Edit.applySet (S : Finset ℕ) : Edit → Finset ℕ
  | .set pos => insert pos S
  | .clear pos => S.erase pos

/-- `b` holds the set `S` of positions below `n`. -/
structure Holds (n : ℕ) (b : Bitset) (S : Finset ℕ) : Prop where
  size : b.size = (newBitset n).size
  bit : ∀ pos, b.bit pos = decide (pos ∈ S)
  lt : ∀ pos ∈ S, pos < n

variable {n : ℕ} {b b' : Bitset} {S S' : Finset ℕ}

theorem Holds.newBitset (n : ℕ) : Holds n (newBitset n) ∅ where
  size := rfl
  bit := fun pos => by simp
  lt := fun pos hpos => by simp at hpos

theorem Holds.apply (h : Holds n b S) (e : Edit) (he : e.pos < n) :
    ∃ b', e.apply b = some b' ∧ Holds n b' (e.applySet S) := by
  have hpos : e.pos < b.size := by
    rw [h.size]
    exact he.trans_le (le_size_newBitset n)
  cases e with
  | set pos =>
    obtain ⟨b', hb', hsize, hbit⟩ := set_spec hpos
    refine ⟨b', hb', hsize.trans h.size, fun q => ?_, fun q hq => ?_⟩
    · rw [hbit, h.bit]
      by_cases hq : q = pos <;> simp [Edit.applySet, Edit.pos, hq]
    · obtain rfl | hq := Finset.mem_insert.mp hq
      · exact he
      · exact h.lt q hq
  | clear pos =>
    obtain ⟨b', hb', hsize, hbit⟩ := clear_spec hpos
    refine ⟨b', hb', hsize.trans h.size, fun q => ?_,
      fun q hq => h.lt q (Finset.mem_of_mem_erase hq)⟩
    rw [hbit, h.bit]
    by_cases hq : q = pos <;> simp [Edit.applySet, Edit.pos, hq]

theorem Holds.members (h : Holds n b S) : b.members = S := by
  ext pos
  simp only [Bitset.members, Finset.mem_filter, Finset.mem_range, h.bit, decide_eq_true_eq]
  refine ⟨fun hpos => hpos.2, fun hpos => ⟨?_, hpos⟩⟩
  rw [h.size]
  exact (h.lt pos hpos).trans_le (le_size_newBitset n)

/-- Bitsets of one length are equal exactly when they hold the same set. -/
theorem Holds.eq_iff (h : Holds n b S) (h' : Holds n b' S') : b = b' ↔ S = S' := by
  constructor
  · rintro rfl
    rw [← h.members, h'.members]
  · rintro rfl
    exact ext_bit (h.size.trans h'.size.symm) fun pos _ => (h.bit pos).trans (h'.bit pos).symm

/-- The bitset after any changes below `n`, none of which panics, holds the set after the same
changes. -/
theorem Holds.edits (h : Holds n b S) {edits : List Edit} (hlt : ∀ e ∈ edits, e.pos < n) :
    ∃ b', edits.foldlM Edit.apply b = some b' ∧ Holds n b' (edits.foldl Edit.applySet S) := by
  induction edits generalizing b S with
  | nil => exact ⟨b, rfl, h⟩
  | cons e edits ih =>
    obtain ⟨b₁, hb₁, h₁⟩ := h.apply e (hlt e List.mem_cons_self)
    obtain ⟨b₂, hb₂, h₂⟩ := ih h₁ fun e he => hlt e (List.mem_cons_of_mem _ he)
    exact ⟨b₂, by rw [List.foldlM_cons, hb₁]; exact hb₂, h₂⟩

/-- **The bitset implements finite sets of positions.** After any changes below `n`, starting from
`newBitset(n)`, no access has panicked, `get` is membership, `popcnt` is the number of elements, and
two bitsets are `equals` exactly when their sets are equal, in which case their hashes agree. -/
theorem refines_finset (n : ℕ) (edits edits' : List Edit) (hlt : ∀ e ∈ edits, e.pos < n)
    (hlt' : ∀ e ∈ edits', e.pos < n) :
    ∃ b b' : Bitset, edits.foldlM Edit.apply (newBitset n) = some b ∧
      edits'.foldlM Edit.apply (newBitset n) = some b' ∧
      (∀ pos < n, b.get pos = some (decide (pos ∈ edits.foldl Edit.applySet ∅))) ∧
      b.popcnt = (edits.foldl Edit.applySet ∅).card ∧
      (b.equals b' = true ↔ edits.foldl Edit.applySet ∅ = edits'.foldl Edit.applySet ∅) ∧
      (edits.foldl Edit.applySet ∅ = edits'.foldl Edit.applySet ∅ → b.hash = b'.hash) := by
  obtain ⟨b, hb, h⟩ := (Holds.newBitset n).edits hlt
  obtain ⟨b', hb', h'⟩ := (Holds.newBitset n).edits hlt'
  refine ⟨b, b', hb, hb', fun pos hpos => ?_, ?_, ?_, fun heq => ?_⟩
  · have hsize : pos < b.size := by
      rw [h.size]
      exact hpos.trans_le (le_size_newBitset n)
    rw [get_spec hsize, h.bit]
  · rw [popcnt_eq_card, h.members]
  · rw [equals_iff, h.eq_iff h']
  · rw [(h.eq_iff h').mpr heq]

theorem refines_finset_two_words :
    ∃ b b' : Bitset, [Edit.set 3, .set 69, .clear 3].foldlM Edit.apply (newBitset 70) = some b ∧
      [Edit.set 69].foldlM Edit.apply (newBitset 70) = some b' ∧
      b.get 69 = some true ∧ b.get 3 = some false ∧ b.equals b' = true := by
  obtain ⟨b, b', hb, hb', hget, -, heq, -⟩ :=
    refines_finset 70 [.set 3, .set 69, .clear 3] [.set 69] (by decide) (by decide)
  exact ⟨b, b', hb, hb', hget 69 (by decide), hget 3 (by decide), heq.mpr (by decide)⟩

end Bitset

end LogicRaft.Porcupine
