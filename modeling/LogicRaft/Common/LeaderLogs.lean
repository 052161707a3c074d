import Mathlib.Data.List.Basic
import Mathlib.Data.List.TakeDrop
import Mathlib.Logic.Function.Basic
import LogicRaft.Common.Majority

/-!
# The logs of the leaders of all terms

The mathematics of a replicated log with elected leaders, away from any protocol. `LeaderLogs` holds
one log per term, that of the term's leader so far; the log of a term nobody has won is empty. What
makes it a possible history is carried by the structure: a leader starts with entries of earlier
terms, adds entries of its own term only, and every entry of term `t` that turns up in any log has
the same entries before it as in the log of term `t` (`origin`).

Members acknowledge positions of the log of a term. A position is committed when it holds an entry
of its own term and a majority has acknowledged it. A term is backed when a majority of members,
each at a moment when everything it had acknowledged was covered by what it held (`Held`), found the
winner's log at least as up to date as its own. The result is `leader_completeness`: if every term
that was won is backed, every later leader starts with every committed entry.
-/

namespace LogicRaft

/-- One log per term, and where the entries of the term itself start in it. -/
structure LeaderLogs (E : Type*) (term : E → ℕ) where
  log : ℕ → List E
  start : ℕ → ℕ
  start_le : ∀ T, start T ≤ (log T).length
  own : ∀ {T k : ℕ} {r : E}, (log T)[k]? = some r → start T ≤ k → term r = T
  old : ∀ {T k : ℕ} {r : E}, (log T)[k]? = some r → k < start T → term r < T
  origin : ∀ {T k : ℕ} {r : E}, (log T)[k]? = some r →
    ∀ j ≤ k, (log (term r))[j]? = (log T)[j]?

namespace LeaderLogs

variable {E : Type*} {term : E → ℕ} (H : LeaderLogs E term)

/-- The logs of two terms hold the same entries up to position `k`. -/
def Agree (T T' k : ℕ) : Prop :=
  k < (H.log T).length ∧ ∀ j ≤ k, (H.log T')[j]? = (H.log T)[j]?

variable {H} {T T' T'' k : ℕ} {r : E}

theorem lt_length (h : (H.log T)[k]? = some r) : k < (H.log T).length :=
  (List.getElem?_eq_some_iff.mp h).1

theorem ne_nil (h : (H.log T)[k]? = some r) : H.log T ≠ [] :=
  List.ne_nil_of_length_pos (Nat.zero_lt_of_lt (lt_length h))

theorem Agree.refl (h : k < (H.log T).length) : H.Agree T T k := ⟨h, fun _ _ => rfl⟩

theorem Agree.lt_length' (h : H.Agree T T' k) : k < (H.log T').length := by
  by_contra hlt
  have hnone : (H.log T')[k]? = none := List.getElem?_eq_none (by omega)
  rw [h.2 k (Nat.le_refl k), List.getElem?_eq_none_iff] at hnone
  have := h.1
  omega

theorem Agree.symm (h : H.Agree T T' k) : H.Agree T' T k :=
  ⟨h.lt_length', fun j hj => (h.2 j hj).symm⟩

theorem Agree.trans (h : H.Agree T T' k) (h' : H.Agree T' T'' k) : H.Agree T T'' k :=
  ⟨h.1, fun j hj => (h'.2 j hj).trans (h.2 j hj)⟩

theorem Agree.of_le {j : ℕ} (hj : j ≤ k) (h : H.Agree T T' k) : H.Agree T T' j :=
  ⟨Nat.lt_of_le_of_lt hj h.1, fun i hi => h.2 i (hi.trans hj)⟩

/-- A log agrees with the log of the term of any of its entries, up to that entry. -/
theorem agree_term (h : (H.log T)[k]? = some r) : H.Agree T (term r) k :=
  ⟨lt_length h, H.origin h⟩

theorem term_le (h : (H.log T)[k]? = some r) : term r ≤ T := by
  rcases Nat.lt_or_ge k (H.start T) with hlt | hge
  · exact Nat.le_of_lt (H.old h hlt)
  · exact Nat.le_of_eq (H.own h hge)

/-- The terms of a log do not fall. -/
theorem term_mono {j : ℕ} {r' : E} (hj : j ≤ k) (h : (H.log T)[k]? = some r)
    (h' : (H.log T)[j]? = some r') : term r' ≤ term r := by
  rw [← H.origin h j hj] at h'
  exact term_le h'

/-! ## How the logs grow -/

variable (H) in
/-- Every log of `H` is a prefix of the log of the same term in `H'`. -/
def Extends (H' : LeaderLogs E term) : Prop :=
  ∀ T, H.log T <+: H'.log T ∧ (H.log T ≠ [] → H'.start T = H.start T)

section Growth

variable {H' : LeaderLogs E term}

variable (H) in
theorem Extends.refl : H.Extends H := fun _ => ⟨List.prefix_rfl, fun _ => rfl⟩

theorem Extends.get (h : H.Extends H') (hk : (H.log T)[k]? = some r) :
    (H'.log T)[k]? = some r := by
  obtain ⟨rest, hrest⟩ := (h T).1
  rw [← hrest, List.getElem?_append_left (lt_length hk), hk]

theorem Extends.won (h : H.Extends H') (hT : H.log T ≠ []) : H'.log T ≠ [] := by
  intro hnil
  have hprefix := (h T).1
  rw [hnil, List.prefix_nil] at hprefix
  exact hT hprefix

/-- Where a log reaches, its entries and those of the logs they come from stay as they are. -/
theorem origin_of_extends {log : ℕ → List E} (hlog : ∀ T, H.log T <+: log T)
    (hk : (H.log T)[k]? = some r) : ∀ j ≤ k, (log (term r))[j]? = (log T)[j]? := by
  have hget : ∀ {T j : ℕ} {x : E}, (H.log T)[j]? = some x → (log T)[j]? = some x := by
    intro T j x hx
    obtain ⟨rest, hrest⟩ := hlog T
    rw [← hrest, List.getElem?_append_left (lt_length hx), hx]
  intro j hj
  have hlt : j < (H.log T).length := Nat.lt_of_le_of_lt hj (lt_length hk)
  have hj' : (H.log T)[j]? = some (H.log T)[j] := List.getElem?_eq_getElem hlt
  have horigin := H.origin hk j hj
  rw [hget hj', hget (horigin.trans hj')]

end Growth

variable (H) in
/-- The leader of term `T` adds an entry. -/
def append (T : ℕ) (r : E) (hr : term r = T) : LeaderLogs E term :=
  have hlog : ∀ V, H.log V <+: Function.update H.log T (H.log T ++ [r]) V := by
    intro V
    by_cases hV : V = T
    · subst hV
      rw [Function.update_self]
      exact List.prefix_append _ _
    · rw [Function.update_of_ne hV]
  have hcases : ∀ {V k x}, (Function.update H.log T (H.log T ++ [r]) V)[k]? = some x →
      (H.log V)[k]? = some x ∨ (V = T ∧ k = (H.log T).length ∧ x = r) := by
    intro V k x hk
    by_cases hV : V = T
    · subst hV
      rw [Function.update_self, List.getElem?_append] at hk
      split at hk
      · exact Or.inl hk
      · obtain ⟨hlt, hx⟩ := List.getElem?_eq_some_iff.mp hk
        rw [List.length_singleton] at hlt
        exact Or.inr ⟨rfl, by omega, by simpa using hx.symm⟩
    · rw [Function.update_of_ne hV] at hk
      exact Or.inl hk
  { log := Function.update H.log T (H.log T ++ [r])
    start := H.start
    start_le := fun V => (H.start_le V).trans (hlog V).length_le
    own := fun {V k x} hk hstart => by
      rcases hcases hk with hk | ⟨rfl, -, rfl⟩
      · exact H.own hk hstart
      · exact hr
    old := fun {V k x} hk hstart => by
      rcases hcases hk with hk | ⟨rfl, rfl, rfl⟩
      · exact H.old hk hstart
      · exact absurd (H.start_le V) (by omega)
    origin := fun {V k x} hk j hj => by
      rcases hcases hk with hk | ⟨rfl, rfl, rfl⟩
      · exact origin_of_extends hlog hk j hj
      · rw [hr] }

@[simp] theorem append_log_self (hr : term r = T) : (H.append T r hr).log T = H.log T ++ [r] :=
  Function.update_self _ _ _

theorem append_log_of_ne (hr : term r = T) (h : T' ≠ T) : (H.append T r hr).log T' = H.log T' :=
  Function.update_of_ne h _ _

theorem extends_append (hr : term r = T) : H.Extends (H.append T r hr) := by
  intro V
  refine ⟨?_, fun _ => rfl⟩
  by_cases hV : V = T
  · subst hV
    rw [append_log_self]
    exact List.prefix_append _ _
  · rw [append_log_of_ne hr hV]

variable (H) in
/-- The leader of a new term `U` starts with the first `len` entries of the log of term `t`. -/
def elect {U t len : ℕ} (hU : H.log U = []) (htU : t < U) (hlen : len ≤ (H.log t).length) :
    LeaderLogs E term :=
  have hlog : ∀ V, H.log V <+: Function.update H.log U ((H.log t).take len) V := by
    intro V
    by_cases hV : V = U
    · subst hV
      rw [hU]
      exact List.nil_prefix
    · rw [Function.update_of_ne hV]
  have hcases : ∀ {V k x}, (Function.update H.log U ((H.log t).take len) V)[k]? = some x →
      (V ≠ U ∧ (H.log V)[k]? = some x) ∨ (V = U ∧ k < len ∧ (H.log t)[k]? = some x) := by
    intro V k x hk
    by_cases hV : V = U
    · subst hV
      rw [Function.update_self] at hk
      have hlt := (List.getElem?_eq_some_iff.mp hk).1
      rw [List.length_take] at hlt
      rw [List.getElem?_take_of_lt (by omega)] at hk
      exact Or.inr ⟨rfl, by omega, hk⟩
    · rw [Function.update_of_ne hV] at hk
      exact Or.inl ⟨hV, hk⟩
  { log := Function.update H.log U ((H.log t).take len)
    start := Function.update H.start U len
    start_le := fun V => by
      by_cases hV : V = U
      · subst hV
        rw [Function.update_self, Function.update_self, List.length_take]
        omega
      · rw [Function.update_of_ne hV, Function.update_of_ne hV]
        exact H.start_le V
    own := fun {V k x} hk hstart => by
      rcases hcases hk with ⟨hV, hk⟩ | ⟨rfl, hlt, -⟩
      · rw [Function.update_of_ne hV] at hstart
        exact H.own hk hstart
      · rw [Function.update_self] at hstart
        omega
    old := fun {V k x} hk hstart => by
      rcases hcases hk with ⟨hV, hk⟩ | ⟨rfl, -, hk⟩
      · rw [Function.update_of_ne hV] at hstart
        exact H.old hk hstart
      · exact Nat.lt_of_le_of_lt (term_le hk) htU
    origin := fun {V k x} hk j hj => by
      rcases hcases hk with ⟨-, hk⟩ | ⟨rfl, hlt, hk⟩
      · exact origin_of_extends hlog hk j hj
      · rw [origin_of_extends hlog hk j hj, Function.update_of_ne (Nat.ne_of_lt htU),
          Function.update_self, List.getElem?_take_of_lt (by omega)] }

section Elect

variable {U t len : ℕ} (hU : H.log U = []) (htU : t < U) (hlen : len ≤ (H.log t).length)

@[simp] theorem elect_log_self : (H.elect hU htU hlen).log U = (H.log t).take len :=
  Function.update_self _ _ _

theorem elect_log_of_ne (h : T ≠ U) : (H.elect hU htU hlen).log T = H.log T :=
  Function.update_of_ne h _ _

@[simp] theorem elect_start_self : (H.elect hU htU hlen).start U = len :=
  Function.update_self _ _ _

theorem elect_start_of_ne (h : T ≠ U) : (H.elect hU htU hlen).start T = H.start T :=
  Function.update_of_ne h _ _

theorem extends_elect : H.Extends (H.elect hU htU hlen) := by
  intro V
  by_cases hV : V = U
  · subst hV
    rw [hU]
    exact ⟨List.nil_prefix, fun hne => absurd rfl hne⟩
  · rw [elect_log_of_ne hU htU hlen hV, elect_start_of_ne hU htU hlen hV]
    exact ⟨List.prefix_rfl, fun _ => rfl⟩

end Elect

variable (term) in
/-- Nobody has won yet; term 0 stands for what every member starts with. -/
def initial (r : E) (hr : term r = 0) : LeaderLogs E term where
  log T := if T = 0 then [r] else []
  start _ := 0
  start_le _ := Nat.zero_le _
  own {T k x} hk _ := by
    split at hk
    case isTrue hT =>
      obtain rfl := List.mem_singleton.mp (List.mem_of_getElem? hk)
      rw [hr, hT]
    case isFalse => cases hk
  old _ hstart := absurd hstart (Nat.not_lt_zero _)
  origin {T k x} hk j _ := by
    split at hk
    case isTrue hT =>
      obtain rfl := List.mem_singleton.mp (List.mem_of_getElem? hk)
      rw [hr, hT]
    case isFalse => cases hk

/-! ## Commitment -/

section Commitment

variable {N : Type*} [Fintype N]

variable (H) in
/-- Position `i` of the log of term `T` holds an entry of that term, acknowledged by a majority. -/
def Committed (acked : N → ℕ → ℕ → Prop) (T i : ℕ) : Prop :=
  (∃ r, (H.log T)[i]? = some r ∧ term r = T) ∧ Majority fun q => acked q T i

variable (H) in
/-- Position `k` is fixed to entry `r` by a commitment in a term up to `T`. -/
def ChosenBy (acked : N → ℕ → ℕ → Prop) (T k : ℕ) (r : E) : Prop :=
  ∃ T' i, T' ≤ T ∧ H.Committed acked T' i ∧ k ≤ i ∧ (H.log T')[k]? = some r

variable (H) in
/-- What member `q` held at some moment before it took part in term `U`: `size` entries, the last of
them `r`, taken from the log of term `src` as far as they are not fixed already. Everything it had
acknowledged in earlier terms is covered. -/
structure Held (acked : N → ℕ → ℕ → Prop) (q : N) (U src size : ℕ) (r : E) : Prop where
  size_pos : 0 < size
  src_lt : src < U
  src_won : H.log src ≠ []
  start_le : H.start src ≤ size
  acks : ∀ T i, acked q T i → T < U → T < src ∨ (T = src ∧ i < size)
  last : (H.log src)[size - 1]? = some r ∨ ∃ T < U, H.ChosenBy acked T (size - 1) r

variable (H) in
/-- Member `q` found a log that ends with an entry of term `lastTerm` at position `lastIndex` at
least as up to date as what it held. -/
def Endorses (acked : N → ℕ → ℕ → Prop) (q : N) (U lastTerm lastIndex : ℕ) : Prop :=
  ∃ src size r, H.Held acked q U src size r ∧
    (term r < lastTerm ∨ (term r = lastTerm ∧ size - 1 ≤ lastIndex))

variable (H) in
/-- A majority endorsed the log that the leader of term `U` started with. -/
def Backed (acked : N → ℕ → ℕ → Prop) (U : ℕ) : Prop :=
  0 < H.start U ∧ ∃ r, (H.log U)[H.start U - 1]? = some r ∧
    Majority fun q => H.Endorses acked q U (term r) (H.start U - 1)

variable (H) in
/-- The leader of term `U` started with everything committed in earlier terms. -/
def Complete (acked : N → ℕ → ℕ → Prop) (U : ℕ) : Prop :=
  ∀ T i, H.Committed acked T i → T < U → i < H.start U ∧ H.Agree T U i

variable {acked : N → ℕ → ℕ → Prop} {U i : ℕ} {q : N}

theorem Committed.lt_length (h : H.Committed acked T i) : i < (H.log T).length := by
  obtain ⟨⟨r, hr, -⟩, -⟩ := h
  exact LeaderLogs.lt_length hr

theorem Committed.won (h : H.Committed acked T i) : H.log T ≠ [] := by
  obtain ⟨⟨r, hr, -⟩, -⟩ := h
  exact LeaderLogs.ne_nil hr

/-- Of two commitments the later one's log has the earlier one's entries. -/
theorem Committed.agree (hcomplete : ∀ V, V ≤ T ∨ V ≤ T' → H.log V ≠ [] → H.Complete acked V)
    {i' : ℕ} (h : H.Committed acked T i) (h' : H.Committed acked T' i') (hk : k ≤ i)
    (hk' : k ≤ i') : H.Agree T T' k := by
  rcases Nat.lt_trichotomy T T' with hlt | rfl | hgt
  · have hT' := hcomplete T' (Or.inr (Nat.le_refl _)) h'.won
    exact (hT' T i h hlt).2.of_le hk
  · exact Agree.refl (Nat.lt_of_le_of_lt hk h.lt_length)
  · have hT := hcomplete T (Or.inl (Nat.le_refl _)) h.won
    exact ((hT T' i' h' hgt).2.of_le hk').symm

/-- A member that acknowledged a committed position and then took part in term `U` held the
committed entries, and its last entry is of a term that has them too. -/
theorem Held.covers (hcomplete : ∀ V < U, H.log V ≠ [] → H.Complete acked V) {src size : ℕ}
    (hheld : H.Held acked q U src size r) (hcom : H.Committed acked T i) (hTU : T < U)
    (hack : acked q T i) :
    i < size ∧ T ≤ term r ∧ term r < U ∧ H.Agree T (term r) i := by
  -- the source of the tail has the committed entries, and enough of it was held
  obtain ⟨hsize, hsrc⟩ : i < size ∧ H.Agree T src i := by
    rcases hheld.acks T i hack hTU with hlt | ⟨rfl, hi⟩
    · obtain ⟨hi, hagree⟩ := hcomplete src hheld.src_lt hheld.src_won T i hcom hlt
      exact ⟨Nat.lt_of_lt_of_le hi hheld.start_le, hagree⟩
    · exact ⟨hi, Agree.refl hcom.lt_length⟩
  -- so does the log the last entry comes from
  obtain ⟨v, hv, hvi, hlast⟩ : ∃ v < U, H.Agree T v i ∧ (H.log v)[size - 1]? = some r := by
    rcases hheld.last with hlast | ⟨T₁, hT₁, T', i', hT', hcom', hi', hlast⟩
    · exact ⟨src, hheld.src_lt, hsrc, hlast⟩
    · refine ⟨T', by omega, ?_, hlast⟩
      refine hcom.agree (fun V hV => hcomplete V ?_) hcom' (Nat.le_refl i) (by omega)
      rcases hV with hV | hV <;> omega
  obtain ⟨⟨rc, hrc, hrcT⟩, -⟩ := hcom
  have hmine : (H.log v)[i]? = some rc := by rw [hvi.2 i (Nat.le_refl i), hrc]
  have hle : T ≤ term r := by
    rw [← hrcT]
    exact term_mono (by omega) hlast hmine
  have hlt : term r ≤ v := term_le hlast
  exact ⟨hsize, hle, by omega, hvi.trans ((agree_term hlast).of_le (by omega))⟩

/-- The induction step: a backed term starts with everything committed before it. -/
theorem Backed.complete (h : H.Backed acked U)
    (hcomplete : ∀ V < U, H.log V ≠ [] → H.Complete acked V) : H.Complete acked U := by
  intro T i hcom hTU
  obtain ⟨hpos, e, he, hmajority⟩ := h
  obtain ⟨q, ⟨src, size, r, hheld, hup⟩, hack⟩ := hmajority.exists_both hcom.2
  obtain ⟨hsize, hTr, hrU, hagree⟩ := hheld.covers hcomplete hcom hTU hack
  have heU : term e < U := H.old he (by omega)
  have hback : H.Agree (term e) U (H.start U - 1) := (agree_term he).symm
  rcases hup with hlt | ⟨heq, hle⟩
  · -- the winner's last entry is of a later term, whose leader is complete by induction
    have hlast : (H.log (term e))[H.start U - 1]? = some e := by
      rw [← he]
      exact H.origin he _ (Nat.le_refl _)
    obtain ⟨hstart, hagree'⟩ := hcomplete (term e) heU (ne_nil hlast) T i hcom (by omega)
    have hlater : H.start (term e) ≤ H.start U - 1 := by
      by_contra hgt
      exact absurd (H.old hlast (by omega)) (Nat.lt_irrefl _)
    exact ⟨by omega, hagree'.trans (hback.of_le (by omega))⟩
  · -- both end in the same term, and the winner's log is the longer one
    rw [heq] at hagree
    exact ⟨by omega, hagree.trans (hback.of_le (by omega))⟩

/-- When every term that was won is backed, every leader starts with all that was committed in
earlier terms. -/
theorem leader_completeness (h : ∀ U, 0 < U → H.log U ≠ [] → H.Backed acked U) (U : ℕ) :
    H.log U ≠ [] → H.Complete acked U := by
  induction U using Nat.strong_induction_on with
  | _ U ih =>
    intro hU
    rcases Nat.eq_zero_or_pos U with rfl | hpos
    · intro T i _ hlt
      omega
    · exact (h U hpos hU).complete ih

/-- A position is fixed to one entry only. -/
theorem ChosenBy.unique (h : ∀ U, H.log U ≠ [] → H.Complete acked U) {r' : E}
    (hr : H.ChosenBy acked T k r) (hr' : H.ChosenBy acked T' k r') : r = r' := by
  obtain ⟨V, i, -, hcom, hi, hV⟩ := hr
  obtain ⟨V', i', -, hcom', hi', hV'⟩ := hr'
  have hagree := hcom.agree (fun W _ => h W) hcom' hi hi'
  rw [hagree.2 k (Nat.le_refl k), hV] at hV'
  exact Option.some.inj hV'

theorem ChosenBy.mono (hle : T ≤ T') (h : H.ChosenBy acked T k r) : H.ChosenBy acked T' k r := by
  obtain ⟨V, i, hV, hrest⟩ := h
  exact ⟨V, i, hV.trans hle, hrest⟩

/-- What is before a fixed position is fixed. -/
theorem ChosenBy.exists_of_le {j : ℕ} (hj : j ≤ k) (h : H.ChosenBy acked T k r) :
    ∃ r', H.ChosenBy acked T j r' := by
  obtain ⟨V, i, hV, hcom, hi, hk⟩ := h
  have hlt : j < (H.log V).length := Nat.lt_of_le_of_lt hj (lt_length hk)
  exact ⟨(H.log V)[j], V, i, hV, hcom, hj.trans hi, List.getElem?_eq_getElem hlt⟩

/-- The leader of a term holds every position fixed up to that term, and started with it if it was
fixed before. -/
theorem ChosenBy.get (h : H.ChosenBy acked T k r) (hcomplete : H.Complete acked T) :
    (H.log T)[k]? = some r ∧ (k < H.start T ∨ ∃ i, H.Committed acked T i ∧ k ≤ i) := by
  obtain ⟨V, i, hV, hcom, hi, hk⟩ := h
  rcases Nat.lt_or_eq_of_le hV with hlt | rfl
  · obtain ⟨hstart, hagree⟩ := hcomplete V i hcom hlt
    rw [hagree.2 k hi]
    exact ⟨hk, Or.inl (by omega)⟩
  · exact ⟨hk, Or.inr ⟨i, hcom, hi⟩⟩

/-! ## What growth keeps -/

section Monotone

variable {H' : LeaderLogs E term} {acked' : N → ℕ → ℕ → Prop} (hext : H.Extends H')
  (himp : ∀ q T i, acked q T i → acked' q T i)

include hext himp

theorem Committed.extend (h : H.Committed acked T i) : H'.Committed acked' T i := by
  obtain ⟨⟨r, hr, hterm⟩, hmajority⟩ := h
  exact ⟨⟨r, hext.get hr, hterm⟩, hmajority.mono fun q hq => himp q T i hq⟩

theorem ChosenBy.extend (h : H.ChosenBy acked T k r) : H'.ChosenBy acked' T k r := by
  obtain ⟨V, i, hV, hcom, hi, hk⟩ := h
  exact ⟨V, i, hV, hcom.extend hext himp, hi, hext.get hk⟩

/-- New acknowledgements of earlier terms would spoil what a member held. -/
theorem Endorses.extend {lastTerm lastIndex : ℕ} (h : H.Endorses acked q U lastTerm lastIndex)
    (hacks : ∀ T i, acked' q T i → T < U → acked q T i) :
    H'.Endorses acked' q U lastTerm lastIndex := by
  obtain ⟨src, size, r, hheld, hup⟩ := h
  refine ⟨src, size, r, ⟨hheld.size_pos, hheld.src_lt, hext.won hheld.src_won, ?_, ?_, ?_⟩, hup⟩
  · rw [(hext src).2 hheld.src_won]
    exact hheld.start_le
  · intro T i hack hlt
    exact hheld.acks T i (hacks T i hack hlt) hlt
  · rcases hheld.last with hlast | ⟨T, hT, hchosen⟩
    · exact Or.inl (hext.get hlast)
    · exact Or.inr ⟨T, hT, hchosen.extend hext himp⟩

end Monotone

end Commitment

end LeaderLogs

end LogicRaft
