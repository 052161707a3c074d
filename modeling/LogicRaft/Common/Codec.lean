import Mathlib.Logic.Equiv.Nat
import Mathlib.Data.List.Basic

/-!
# Stream codecs

A `Codec` writes a value as bytes and reads it back from the front of a byte stream, leaving the
rest of the stream for the next read. The law `decode_encode` is the one fact about an encoder that
callers rely on; it composes, so a sequence of writes is undone by the same sequence of reads.

The combinators below build codecs for pairs, lists and images of other codecs. They give concrete
codecs for concrete runs; the results about programs take an arbitrary `Codec`.
-/

namespace LogicRaft

/-- A byte string. -/
abbrev Bytes := List UInt8

/-- An encoder with a decoder that undoes it in front of any remaining stream. -/
structure Codec (α : Type*) where
  encode : α → Bytes
  decode : Bytes → Option (α × Bytes)
  decode_encode : ∀ a rest, decode (encode a ++ rest) = some (a, rest)
  /-- A value is never written as the empty string. -/
  encode_ne_nil : ∀ a, encode a ≠ []

namespace Codec

variable {α β : Type*}

/-- Decoding a lone encoded value consumes the whole stream. -/
@[simp] theorem decode_encode_nil (c : Codec α) (a : α) : c.decode (c.encode a) = some (a, []) := by
  simpa using c.decode_encode a []

/-! ## Unary numbers -/

/-- Read a run of nonzero bytes closed by a zero byte as its length. -/
def readRun : Bytes → Option (ℕ × Bytes)
  | [] => none
  | b :: rest => if b = 0 then some (0, rest) else (readRun rest).map fun p => (p.1 + 1, p.2)

theorem readRun_replicate (n : ℕ) (rest : Bytes) :
    readRun (List.replicate n 1 ++ 0 :: rest) = some (n, rest) := by
  induction n with
  | zero => simp [readRun]
  | succ n ih => simp [List.replicate_succ, readRun, ih]

/-- Natural numbers in unary. -/
def nat : Codec ℕ where
  encode n := List.replicate n 1 ++ [0]
  decode := readRun
  decode_encode n rest := by
    rw [List.append_assoc, List.singleton_append]
    exact readRun_replicate n rest
  encode_ne_nil n := by simp

/-! ## Combinators -/

/-- A codec for `β` from a codec for `α` that `β` embeds in; `dec` reads the embedding back. -/
def map (c : Codec α) (enc : β → α) (dec : α → Option β) (h : ∀ b, dec (enc b) = some b) :
    Codec β where
  encode b := c.encode (enc b)
  decode bs := (c.decode bs).bind fun p => (dec p.1).map fun b => (b, p.2)
  decode_encode b rest := by simp [c.decode_encode, h]
  encode_ne_nil b := c.encode_ne_nil (enc b)

/-- Pairs, first component first. -/
def prod (c : Codec α) (d : Codec β) : Codec (α × β) where
  encode p := c.encode p.1 ++ d.encode p.2
  decode bs := (c.decode bs).bind fun p => (d.decode p.2).map fun q => ((p.1, q.1), q.2)
  decode_encode p rest := by
    rw [List.append_assoc, c.decode_encode]
    simp [d.decode_encode]
  encode_ne_nil p := by simp [c.encode_ne_nil]

/-- Read `n` values in a row. -/
def readMany (c : Codec α) : ℕ → Bytes → Option (List α × Bytes)
  | 0, bs => some ([], bs)
  | n + 1, bs => (c.decode bs).bind fun p => (c.readMany n p.2).map fun q => (p.1 :: q.1, q.2)

theorem readMany_flatMap (c : Codec α) (as : List α) (rest : Bytes) :
    c.readMany as.length (as.flatMap c.encode ++ rest) = some (as, rest) := by
  induction as with
  | nil => rfl
  | cons a as ih =>
    rw [List.flatMap_cons, List.append_assoc, List.length_cons, readMany, c.decode_encode]
    simp [ih]

/-- Lists, length first. -/
def list (c : Codec α) : Codec (List α) where
  encode as := nat.encode as.length ++ as.flatMap c.encode
  decode bs := (nat.decode bs).bind fun p => c.readMany p.1 p.2
  decode_encode as rest := by
    rw [List.append_assoc, nat.decode_encode]
    exact c.readMany_flatMap as rest
  encode_ne_nil as := by simp [nat.encode_ne_nil]

/-- Booleans as `0` and `1`. -/
def bool : Codec Bool :=
  nat.map (fun b => b.toNat) (fun k => some (k == 1)) (by decide)

/-- Optional values as lists of at most one element. -/
def option (c : Codec α) : Codec (Option α) :=
  c.list.map Option.toList (fun as => some as.head?) (by intro o; cases o <;> rfl)

/-- Integers through the standard bijection with the naturals. -/
def int : Codec ℤ :=
  nat.map Equiv.intEquivNat (fun k => some (Equiv.intEquivNat.symm k)) (by simp)

end Codec

end LogicRaft
