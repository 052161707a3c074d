import Mathlib.Algebra.Order.Ring.Nat
import Mathlib.Logic.Relation
import Mathlib.Order.Lattice
import Mathlib.Tactic.Ring

/-!
# Backtracking search with a memo

A depth-first search for an accepted configuration. Each configuration has a list of choices; a
choice leads to a configuration or is refused. The search keeps the path to its current
configuration with the choices still open at each level, and a cache of the configurations it has
entered: one that the cache calls the same as an earlier one is not entered again.

The search is correct when choices lead to configurations of higher rank and the cache compares
configurations of equal rank only. A configuration found in the cache is then never on the current
path, so it has been searched to the end, and what is given up on is closed under choices up to the
cache's notion of sameness (`Inv.closed`). If sameness is a simulation, giving up means that no
accepted configuration can be reached (`exhausted`). With a bound on the rank and on the number of
choices the search halts (`weight_lt`).
-/

namespace LogicRaft.MemoSearch

variable {κ α : Type*}

structure Problem (κ α : Type*) where
  start : κ
  choices : κ → List α
  next : κ → α → Option κ
  accept : κ → Bool
  same : κ → κ → Bool

/-- Where the search stands: the current configuration with its open choices, the levels below it
(nearest first), the configurations entered so far and those given up. -/
structure State (κ α : Type*) where
  top : κ
  todo : List α
  stack : List (κ × List α)
  cache : List κ
  finished : List κ

namespace Problem

variable (P : Problem κ α)

def initial : State κ α where
  top := P.start
  todo := P.choices P.start
  stack := []
  cache := []
  finished := []

/-- One step of the search, `none` when it has halted. -/
def step (s : State κ α) : Option (State κ α) :=
  if P.accept s.top then none
  else
    match s.todo with
    | a :: rest =>
      match P.next s.top a with
      | none => some { s with todo := rest }
      | some d =>
        if s.cache.any (P.same d) then some { s with todo := rest }
        else
          some { top := d, todo := P.choices d, stack := (s.top, rest) :: s.stack,
                 cache := s.cache ++ [d], finished := s.finished }
    | [] =>
      match s.stack with
      | [] => none
      | (c, rest) :: below =>
        some { s with top := c, todo := rest, stack := below, finished := s.top :: s.finished }

/-- Choices lead from `c` to `d` in one step. -/
def Edge (c d : κ) : Prop := ∃ a ∈ P.choices c, P.next c a = some d

/-- `d` can be reached from the start by choices. -/
def Reaches (d : κ) : Prop := Relation.ReflTransGen P.Edge P.start d

/-- The search takes `s` to `t` in some number of steps. -/
def Leads (s t : State κ α) : Prop := Relation.ReflTransGen (fun s t => P.step s = some t) s t

end Problem

/-! ## Everything a step can do -/

section Steps

variable {P : Problem κ α} {s t : State κ α}

/-- The four things a step does: a choice is refused, a choice is found in the cache, a
configuration is entered, the current one is given up. -/
inductive Move (P : Problem κ α) (s : State κ α) : State κ α → Prop
  | refuse {a : α} {rest : List α} (htodo : s.todo = a :: rest) (hnext : P.next s.top a = none) :
      Move P s { s with todo := rest }
  | hit {a : α} {rest : List α} {d f : κ} (htodo : s.todo = a :: rest)
      (hnext : P.next s.top a = some d) (hmem : f ∈ s.cache) (hsame : P.same d f = true) :
      Move P s { s with todo := rest }
  | enter {a : α} {rest : List α} {d : κ} (htodo : s.todo = a :: rest)
      (hnext : P.next s.top a = some d) :
      Move P s { top := d, todo := P.choices d, stack := (s.top, rest) :: s.stack,
                 cache := s.cache ++ [d], finished := s.finished }
  | giveUp {c : κ} {rest : List α} {below : List (κ × List α)} (htodo : s.todo = [])
      (hstack : s.stack = (c, rest) :: below) :
      Move P s { s with top := c, todo := rest, stack := below, finished := s.top :: s.finished }

theorem move_of_step (h : P.step s = some t) : P.accept s.top = false ∧ Move P s t := by
  unfold Problem.step at h
  split at h
  case isTrue => cases h
  case isFalse hacc =>
    refine ⟨by simpa using hacc, ?_⟩
    split at h
    case h_1 a rest htodo =>
      split at h
      case h_1 hnext =>
        obtain rfl := Option.some.inj h
        exact .refuse htodo hnext
      case h_2 d hnext =>
        split at h
        case isTrue hany =>
          obtain ⟨f, hmem, hsame⟩ := List.any_eq_true.mp hany
          obtain rfl := Option.some.inj h
          exact .hit htodo hnext hmem hsame
        case isFalse =>
          obtain rfl := Option.some.inj h
          exact .enter htodo hnext
    case h_2 htodo =>
      split at h
      case h_1 => cases h
      case h_2 c rest below hstack =>
        obtain rfl := Option.some.inj h
        exact .giveUp htodo hstack

/-- The search halts in an accepted configuration or with no choice left. -/
theorem halted (h : P.step s = none) : P.accept s.top = true ∨ s.todo = [] ∧ s.stack = [] := by
  unfold Problem.step at h
  split at h
  case isTrue hacc => exact .inl hacc
  case isFalse =>
    split at h
    case h_1 =>
      split at h
      · cases h
      · split at h <;> cases h
    case h_2 htodo =>
      split at h
      case h_1 hstack => exact .inr ⟨htodo, hstack⟩
      case h_2 => cases h

end Steps

/-! ## What has been passed over -/

section Invariant

variable (P : Problem κ α)

/-- Each of the choices `pre` of `c` is refused or leads to a configuration given up, itself or one
that the cache calls the same. -/
def Passed (finished : List κ) (c : κ) (pre : List α) : Prop :=
  ∀ a ∈ pre, ∀ d, P.next c a = some d → ∃ f ∈ finished, f = d ∨ P.same d f = true

/-- The levels below configuration `d`: each was left by the choice that leads to the level above
it, and the choices before that one have been passed over. -/
def StackOk (finished : List κ) : κ → List (κ × List α) → Prop
  | d, [] => d = P.start
  | d, (c, rest) :: below =>
    (∃ pre a, P.choices c = pre ++ a :: rest ∧ P.next c a = some d ∧ Passed P finished c pre) ∧
      StackOk finished c below

structure Inv (s : State κ α) : Prop where
  top : ∃ pre, P.choices s.top = pre ++ s.todo ∧ Passed P s.finished s.top pre
  stack : StackOk P s.finished s.top s.stack
  cached : ∀ c ∈ s.cache, c ∈ s.finished ∨ c = s.top ∨ c ∈ s.stack.map Prod.fst
  closed : ∀ f ∈ s.finished, Passed P s.finished f (P.choices f)
  refused : ∀ f ∈ s.finished, P.accept f = false

variable {P} {s t : State κ α} {finished : List κ} {c d : κ}

theorem Passed.mono {pre : List α} (h : Passed P finished c pre) (e : κ) :
    Passed P (e :: finished) c pre := by
  intro a ha d hd
  obtain ⟨f, hf, hfd⟩ := h a ha d hd
  exact ⟨f, List.mem_cons_of_mem e hf, hfd⟩

/-- One more choice passed over. -/
theorem Passed.concat {pre : List α} {a : α} (h : Passed P finished c pre)
    (ha : ∀ d, P.next c a = some d → ∃ f ∈ finished, f = d ∨ P.same d f = true) :
    Passed P finished c (pre ++ [a]) := by
  intro b hb
  obtain hb | hb := List.mem_append.mp hb
  · exact h b hb
  · obtain rfl := List.mem_singleton.mp hb
    exact ha

theorem StackOk.mono {stack : List (κ × List α)} (h : StackOk P finished d stack) (e : κ) :
    StackOk P (e :: finished) d stack := by
  induction stack generalizing d with
  | nil => exact h
  | cons frame below ih =>
    obtain ⟨⟨pre, a, hchoices, hnext, hpassed⟩, hbelow⟩ := h
    exact ⟨⟨pre, a, hchoices, hnext, hpassed.mono e⟩, ih hbelow⟩

/-- The configurations on the path are reached by choices. -/
theorem StackOk.reaches {stack : List (κ × List α)} (h : StackOk P finished d stack) :
    P.Reaches d := by
  induction stack generalizing d with
  | nil =>
    obtain rfl := h
    exact Relation.ReflTransGen.refl
  | cons frame below ih =>
    obtain ⟨⟨pre, a, hchoices, hnext, -⟩, hbelow⟩ := h
    have ha : a ∈ P.choices frame.1 := by rw [hchoices]; simp
    exact Relation.ReflTransGen.tail (ih hbelow) ⟨a, ha, hnext⟩

/-- Choices raise the rank, and the cache compares configurations of one rank. -/
structure Graded (P : Problem κ α) (rank : κ → ℕ) : Prop where
  next : ∀ c, ∀ a ∈ P.choices c, ∀ d, P.next c a = some d → rank d = rank c + 1
  same : ∀ c d, P.same c d = true → rank c = rank d

variable {rank : κ → ℕ}

/-- The levels below a configuration have lower rank. -/
theorem StackOk.rank_lt (hrank : Graded P rank) {stack : List (κ × List α)}
    (h : StackOk P finished d stack) : ∀ c ∈ stack.map Prod.fst, rank c < rank d := by
  induction stack generalizing d with
  | nil => exact fun c hc => absurd hc List.not_mem_nil
  | cons frame below ih =>
    obtain ⟨⟨pre, a, hchoices, hnext, -⟩, hbelow⟩ := h
    have ha : a ∈ P.choices frame.1 := by rw [hchoices]; simp
    have hlt : rank frame.1 < rank d := by
      rw [hrank.next frame.1 a ha d hnext]
      exact Nat.lt_succ_self _
    intro c hc
    obtain rfl | hc := List.mem_cons.mp hc
    · exact hlt
    · exact (ih hbelow c hc).trans hlt

theorem inv_initial : Inv P P.initial where
  top := ⟨[], rfl, fun _ h => absurd h List.not_mem_nil⟩
  stack := rfl
  cached := fun _ h => absurd h List.not_mem_nil
  closed := fun _ h => absurd h List.not_mem_nil
  refused := fun _ h => absurd h List.not_mem_nil

/-- A configuration found in the cache is not on the path, so it has been given up. -/
theorem Inv.hit_finished (hrank : Graded P rank) (h : Inv P s) {a : α} {rest : List α} {f : κ}
    (htodo : s.todo = a :: rest) (hnext : P.next s.top a = some d) (hmem : f ∈ s.cache)
    (hsame : P.same d f = true) : f ∈ s.finished := by
  obtain ⟨pre, hchoices, -⟩ := h.top
  have ha : a ∈ P.choices s.top := by rw [hchoices, htodo]; simp
  have hd : rank f = rank s.top + 1 := by
    rw [← hrank.same d f hsame, hrank.next s.top a ha d hnext]
  obtain hf | rfl | hf := h.cached f hmem
  · exact hf
  · omega
  · have := h.stack.rank_lt hrank f hf
    omega

theorem Inv.step (hrank : Graded P rank) (h : Inv P s) (hstep : P.step s = some t) : Inv P t := by
  obtain ⟨hacc, hmove⟩ := move_of_step hstep
  obtain ⟨pre, hchoices, hpassed⟩ := h.top
  cases hmove with
  | @refuse a rest htodo hnext =>
    refine { h with top := ⟨pre ++ [a], by simp [hchoices, htodo], hpassed.concat fun d hd => ?_⟩ }
    cases hnext.symm.trans hd
  | @hit a rest d f htodo hnext hmem hsame =>
    refine { h with top := ⟨pre ++ [a], by simp [hchoices, htodo], hpassed.concat fun d' hd => ?_⟩ }
    obtain rfl := Option.some.inj (hnext.symm.trans hd)
    exact ⟨f, h.hit_finished hrank htodo hnext hmem hsame, .inr hsame⟩
  | @enter a rest d htodo hnext =>
    refine ⟨⟨[], rfl, fun b hb => absurd hb List.not_mem_nil⟩,
      ⟨⟨pre, a, htodo ▸ hchoices, hnext, hpassed⟩, h.stack⟩, ?_, h.closed, h.refused⟩
    intro c hc
    obtain hc | hc := List.mem_append.mp hc
    · obtain hc | rfl | hc := h.cached c hc
      · exact .inl hc
      · exact .inr (.inr List.mem_cons_self)
      · exact .inr (.inr (List.mem_cons_of_mem _ hc))
    · exact .inr (.inl (List.mem_singleton.mp hc))
  | @giveUp c rest below htodo hstack =>
    have hbelow := h.stack
    rw [hstack] at hbelow
    obtain ⟨⟨pre', a, hchoices', hnext, hpassed'⟩, hbelow⟩ := hbelow
    have hall : Passed P (s.top :: s.finished) s.top (P.choices s.top) := by
      rw [hchoices, htodo, List.append_nil]
      exact hpassed.mono s.top
    refine ⟨⟨pre' ++ [a], by simp [hchoices'], (hpassed'.mono s.top).concat fun d hd => ?_⟩,
      hbelow.mono s.top, ?_, ?_, ?_⟩
    · exact ⟨s.top, List.mem_cons_self, .inl (Option.some.inj (hnext.symm.trans hd))⟩
    · intro e he
      obtain he | rfl | he := h.cached e he
      · exact .inl (List.mem_cons_of_mem _ he)
      · exact .inl List.mem_cons_self
      · rw [hstack] at he
        exact .inr (List.mem_cons.mp he)
    · intro f hf
      obtain rfl | hf := List.mem_cons.mp hf
      · exact hall
      · exact (h.closed f hf).mono s.top
    · intro f hf
      obtain rfl | hf := List.mem_cons.mp hf
      · exact hacc
      · exact h.refused f hf

theorem Inv.of_leads (hrank : Graded P rank) (hrun : P.Leads P.initial s) : Inv P s := by
  induction hrun with
  | refl => exact inv_initial
  | tail _ hstep ih => exact ih.step hrank hstep

end Invariant

/-! ## Giving up -/

/-- Whatever `c` leads to, `d` with `Sim c d` leads to as well; the cache only calls such
configurations the same. -/
structure Simulation (P : Problem κ α) (Sim : κ → κ → Prop) : Prop where
  refl : ∀ c, Sim c c
  trans : ∀ c d e, Sim c d → Sim d e → Sim c e
  same : ∀ c d, P.same c d = true → Sim c d
  edge : ∀ c c' d, Sim c c' → P.Edge c d → ∃ d', P.Edge c' d' ∧ Sim d d'
  accept : ∀ c d, Sim c d → P.accept c = true → P.accept d = true

section Exhausted

variable {P : Problem κ α} {rank : κ → ℕ} {Sim : κ → κ → Prop} {s : State κ α} {d : κ}

/-- Once the search has halted without an accepted configuration, each configuration that can be
reached is simulated by one that was given up or by the start, and those are not accepted. -/
theorem exhausted (hrank : Graded P rank) (hsim : Simulation P Sim) (hrun : P.Leads P.initial s)
    (hstep : P.step s = none) (hacc : P.accept s.top = false) (hd : P.Reaches d) :
    ∃ f, Sim d f ∧ (f = P.start ∨ f ∈ s.finished) ∧ P.accept f = false := by
  have h := Inv.of_leads hrank hrun
  obtain ⟨htodo, hstack⟩ := (halted hstep).resolve_left (by simp [hacc])
  have hstart : s.top = P.start := by
    have := h.stack
    rwa [hstack] at this
  have hpassed : ∀ f, f = P.start ∨ f ∈ s.finished → Passed P s.finished f (P.choices f) := by
    rintro f (rfl | hf)
    · obtain ⟨pre, hchoices, hpre⟩ := h.top
      rw [htodo, List.append_nil] at hchoices
      rwa [← hstart, hchoices]
    · exact h.closed f hf
  induction hd with
  | refl => exact ⟨P.start, hsim.refl _, .inl rfl, hstart ▸ hacc⟩
  | tail _ hedge ih =>
    obtain ⟨f, hdf, hf, -⟩ := ih
    obtain ⟨e, ⟨a, ha, hnext⟩, hse⟩ := hsim.edge _ _ _ hdf hedge
    obtain ⟨g, hg, hge⟩ := hpassed f hf a ha e hnext
    refine ⟨g, ?_, .inr hg, h.refused g hg⟩
    obtain rfl | hsame := hge
    · exact hse
    · exact hsim.trans _ _ _ hse (hsim.same e g hsame)

/-- A search that gives up has nothing to find. -/
theorem not_accept_of_exhausted (hrank : Graded P rank) (hsim : Simulation P Sim)
    (hrun : P.Leads P.initial s) (hstep : P.step s = none) (hacc : P.accept s.top = false)
    (hd : P.Reaches d) : P.accept d = false := by
  obtain ⟨f, hdf, -, hf⟩ := exhausted hrank hsim hrun hstep hacc hd
  by_contra h
  have := hsim.accept d f hdf (by simpa using h)
  rw [hf] at this
  cases this

end Exhausted

/-! ## Halting -/

section Halting

variable {P : Problem κ α} {rank : κ → ℕ} {s t : State κ α} {width height : ℕ}

/-- Work left at a level with the choices `todo` open. -/
def frameWeight (rank : κ → ℕ) (width height : ℕ) (c : κ) (todo : List α) : ℕ :=
  (todo.length + 1) * (width + 2) ^ (height - rank c)

def weight (rank : κ → ℕ) (width height : ℕ) (s : State κ α) : ℕ :=
  frameWeight rank width height s.top s.todo +
    (s.stack.map fun frame => frameWeight rank width height frame.1 frame.2).sum

theorem frameWeight_cons (c : κ) (a : α) (rest : List α) :
    frameWeight rank width height c (a :: rest) =
      frameWeight rank width height c rest + (width + 2) ^ (height - rank c) := by
  unfold frameWeight
  rw [List.length_cons]
  ring

theorem frameWeight_pos (rank : κ → ℕ) (width height : ℕ) (c : κ) (todo : List α) :
    0 < frameWeight rank width height c todo :=
  Nat.mul_pos (Nat.succ_pos _) (Nat.pow_pos (Nat.succ_pos _))

/-- A level entered from `c` costs less than the choice it was entered by. -/
theorem frameWeight_lt_pow {c d : κ} {todo : List α} (hlen : todo.length ≤ width)
    (hrank : rank d = rank c + 1) (hheight : rank d ≤ height) :
    frameWeight rank width height d todo < (width + 2) ^ (height - rank c) := by
  have hpow : (width + 2) ^ (height - rank c) = (width + 2) * (width + 2) ^ (height - rank d) := by
    rw [← pow_succ']
    congr 1
    omega
  rw [hpow]
  exact Nat.mul_lt_mul_of_pos_right (by omega) (Nat.pow_pos (Nat.succ_pos _))

/-- Every step leaves less work. -/
theorem weight_lt (hrank : Graded P rank) (hwidth : ∀ c, (P.choices c).length ≤ width)
    (hheight : ∀ c d, P.Edge c d → rank d ≤ height) (h : Inv P s) (hstep : P.step s = some t) :
    weight rank width height t < weight rank width height s := by
  have hpow : ∀ c, 0 < (width + 2) ^ (height - rank c) := fun c => Nat.pow_pos (Nat.succ_pos _)
  obtain ⟨-, hmove⟩ := move_of_step hstep
  cases hmove with
  | @refuse a rest htodo hnext =>
    have := hpow s.top
    simp only [weight, htodo, frameWeight_cons]
    omega
  | @hit a rest d f htodo hnext hmem hsame =>
    have := hpow s.top
    simp only [weight, htodo, frameWeight_cons]
    omega
  | @enter a rest d htodo hnext =>
    obtain ⟨pre, hchoices, -⟩ := h.top
    have ha : a ∈ P.choices s.top := by rw [hchoices, htodo]; simp
    have hlt := frameWeight_lt_pow (hwidth d) (hrank.next s.top a ha d hnext)
      (hheight s.top d ⟨a, ha, hnext⟩)
    simp only [weight, htodo, frameWeight_cons, List.map_cons, List.sum_cons]
    omega
  | @giveUp c rest below htodo hstack =>
    have := frameWeight_pos rank width height s.top s.todo
    simp only [weight, hstack, List.map_cons, List.sum_cons]
    omega

end Halting

end LogicRaft.MemoSearch
