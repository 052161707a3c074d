import LogicRaft.KV.StateMachine

/-!
# The disk-backed store (`db.go`)

`db.go` has a second state machine with the methods of `KVStateMachine`, over a `logicKV.DB`. The
library is not part of the repository; `LogicKV` says what is assumed of it. An error is its text
and a nil error is `none`.

Every method of `StateMachine` ends in `err.Error()`, whatever the library answered, and calling a
method on a nil error panics. So the calls that succeed in the library are the ones that panic here,
and what comes back otherwise is the library's text and not one of the constants of `common.go`.
`Append` writes its argument over the old value. The two machines answer alike only as long as
nothing is ever written.
-/

namespace LogicRaft

/-- The constants of `common.go`. -/
def Err.text : Err → String
  | .ok => "OK"
  | .errNoKey => "ErrNoKey"
  | .errWrongLeader => "ErrWrongLeader"
  | .errTimeout => "ErrTimeout"

/-- The assumptions on `logicKV.DB`: a map from keys to values, empty at first. What `Get` returns
beside the error for an absent key is left open. -/
class LogicKV (δ : Type) where
  /-- `logicKV.Open` on a new directory -/
  empty : δ
  contents : δ → GoMap String String
  get : δ → String → String × Option String
  put : δ → String → String → δ × Option String
  contents_empty : contents empty = ∅
  get_of_present {db : δ} {key value : String} :
    (contents db).lookup key = some value → get db key = (value, none)
  get_of_absent {db : δ} {key : String} :
    (contents db).lookup key = none → ∃ err, (get db key).2 = some err
  contents_put (db : δ) (key value : String) :
    contents (put db key value).1 = (contents db).insert key value
  put_err (db : δ) (key value : String) : (put db key value).2 = none

/-- `err.Error()`, `none` where it panics. -/
abbrev errorText (err : Option String) : Option String := err

structure StateMachine (δ : Type) where
  db : δ

namespace StateMachine

variable {δ : Type} [LogicKV δ]

/-- `NewStateMachine` -/
def new : StateMachine δ := ⟨LogicKV.empty⟩

def get (m : StateMachine δ) (key : String) : Option (String × String) :=
  let (value, err) := LogicKV.get m.db key
  (errorText err).map fun text => (value, text)

def put (m : StateMachine δ) (key value : String) : Option (StateMachine δ × String) :=
  let (db, err) := LogicKV.put m.db key value
  (errorText err).map fun text => (⟨db⟩, text)

/-- The same call as in `put`. -/
def append (m : StateMachine δ) (key value : String) : Option (StateMachine δ × String) :=
  let (db, err) := LogicKV.put m.db key value
  (errorText err).map fun text => (⟨db⟩, text)

end StateMachine

/-! ## Sequences of calls -/

inductive Call
  | get (key : String)
  | put (key value : String)
  | append (key value : String)
deriving DecidableEq

/-- One call on the in-memory machine: the value (of a `Get`) and the text of the `Err`. -/
def KVStateMachine.call (m : KVStateMachine) : Call → KVStateMachine × String × String
  | .get key => (m, (m.get key).1, (m.get key).2.text)
  | .put key value => ((m.put key value).1, "", (m.put key value).2.text)
  | .append key value => ((m.append key value).1, "", (m.append key value).2.text)

/-- The answers of the in-memory machine. -/
def KVStateMachine.calls (m : KVStateMachine) : List Call → List (String × String)
  | [] => []
  | c :: cs => (m.call c).2 :: (m.call c).1.calls cs

namespace StateMachine

variable {δ : Type} [LogicKV δ]

/-- One call on the disk-backed machine, `none` where it panics. -/
def call (m : StateMachine δ) : Call → Option (StateMachine δ × String × String)
  | .get key => (m.get key).map fun answer => (m, answer)
  | .put key value => (m.put key value).map fun (m, text) => (m, "", text)
  | .append key value => (m.append key value).map fun (m, text) => (m, "", text)

/-- The answers of the disk-backed machine. -/
def calls (m : StateMachine δ) : List Call → Option (List (String × String))
  | [] => some []
  | c :: cs => (m.call c).bind fun (m, answer) => (m.calls cs).map (answer :: ·)

/-! ## What succeeds in the library panics -/

theorem put_eq_none (m : StateMachine δ) (key value : String) : m.put key value = none := by
  simp only [put, LogicKV.put_err, Option.map_none]

theorem append_eq_none (m : StateMachine δ) (key value : String) : m.append key value = none :=
  m.put_eq_none key value

/-- An answer is the library's answer for an absent key. -/
theorem call_eq_some_iff {m m' : StateMachine δ} {c : Call} {value text : String} :
    m.call c = some (m', value, text) ↔
      m' = m ∧ ∃ key, c = .get key ∧ LogicKV.get m.db key = (value, some text) := by
  cases c with
  | get key =>
    simp only [call, get, Option.map_map, Option.map_eq_some_iff, Function.comp, Prod.mk.injEq,
      Call.get.injEq, exists_eq_left']
    constructor
    · rintro ⟨text, herr, rfl, rfl, rfl⟩
      exact ⟨rfl, Prod.ext rfl herr⟩
    · rintro ⟨rfl, hget⟩
      exact ⟨text, by rw [hget], rfl, by rw [hget], rfl⟩
  | put key value =>
    simp [call, put_eq_none]
  | append key value =>
    simp [call, append_eq_none]

/-- On the empty database every `Get` is answered. -/
theorem exists_get_empty (key : String) :
    ∃ value text, LogicKV.get (LogicKV.empty : δ) key = (value, some text) := by
  have habsent : (LogicKV.contents (LogicKV.empty : δ)).lookup key = none := by
    rw [LogicKV.contents_empty, Finmap.lookup_empty]
  obtain ⟨text, htext⟩ := LogicKV.get_of_absent habsent
  exact ⟨_, text, Prod.ext rfl htext⟩

/-- A sequence of calls gets through without a panic exactly when it writes nothing. -/
theorem calls_isSome_iff (cs : List Call) :
    ((new : StateMachine δ).calls cs).isSome ↔ ∀ c ∈ cs, ∃ key, c = .get key := by
  induction cs with
  | nil => simp [calls]
  | cons c cs ih =>
    rw [List.forall_mem_cons, ← ih, Option.isSome_iff_exists, Option.isSome_iff_exists]
    constructor
    · rintro ⟨answers, h⟩
      obtain ⟨⟨m, value, text⟩, hcall, hrest⟩ := Option.bind_eq_some_iff.mp h
      obtain ⟨rfl, key, rfl, -⟩ := call_eq_some_iff.mp hcall
      obtain ⟨rest, hrest, -⟩ := Option.map_eq_some_iff.mp hrest
      exact ⟨⟨key, rfl⟩, rest, hrest⟩
    · rintro ⟨⟨key, rfl⟩, rest, hrest⟩
      obtain ⟨value, text, hget⟩ := exists_get_empty (δ := δ) key
      have hcall : (new : StateMachine δ).call (.get key) = some (new, value, text) :=
        call_eq_some_iff.mpr ⟨rfl, key, rfl, hget⟩
      simp only [calls, hcall, Option.bind_some, hrest, Option.map_some]
      exact ⟨_, rfl⟩

/-- While nothing has been written the in-memory machine answers `ErrNoKey`. -/
theorem calls_get_new (key : String) (cs : List Call) :
    KVStateMachine.new.calls (.get key :: cs) =
      ("", "ErrNoKey") :: KVStateMachine.new.calls cs := rfl

/-- The two machines agree on a sequence of calls exactly when it only reads, and only keys for
which the empty database happens to answer with no bytes and the text `ErrNoKey`. -/
theorem calls_eq_iff (cs : List Call) :
    (new : StateMachine δ).calls cs = some (KVStateMachine.new.calls cs) ↔
      ∀ c ∈ cs, ∃ key, c = .get key ∧
        LogicKV.get (LogicKV.empty : δ) key = ("", some "ErrNoKey") := by
  induction cs with
  | nil => simp [calls, KVStateMachine.calls]
  | cons c cs ih =>
    rw [List.forall_mem_cons, ← ih]
    constructor
    · intro h
      obtain ⟨⟨m, value, text⟩, hcall, hrest⟩ := Option.bind_eq_some_iff.mp h
      obtain ⟨rfl, key, rfl, hget⟩ := call_eq_some_iff.mp hcall
      rw [calls_get_new] at hrest
      obtain ⟨answers, hanswers, heq⟩ := Option.map_eq_some_iff.mp hrest
      obtain ⟨hhead, rfl⟩ := List.cons.inj heq
      obtain ⟨rfl, rfl⟩ := Prod.mk.inj hhead
      exact ⟨⟨key, rfl, hget⟩, hanswers⟩
    · rintro ⟨⟨key, rfl, hget⟩, hrest⟩
      have hcall : (new : StateMachine δ).call (.get key) = some (new, "", "ErrNoKey") :=
        call_eq_some_iff.mpr ⟨rfl, key, rfl, hget⟩
      simp only [calls_get_new, calls, hcall, Option.bind_some, hrest, Option.map_some]

end StateMachine

/-- A database whose error text is the constant of `common.go`. -/
instance : LogicKV (GoMap String String) where
  empty := ∅
  contents db := db
  get db key := match db.lookup key with
    | some value => (value, none)
    | none => ("", some "ErrNoKey")
  put db key value := (db.insert key value, none)
  contents_empty := rfl
  get_of_present h := by simp only [h]
  get_of_absent h := ⟨"ErrNoKey", by simp only [h]⟩
  contents_put _ _ _ := rfl
  put_err _ _ _ := rfl

/-- Even with that text, a single `Put` panics where the in-memory machine answers `OK`. -/
theorem StateMachine.calls_put_panics :
    (StateMachine.new : StateMachine (GoMap String String)).calls [.put "k" "v"] = none ∧
      KVStateMachine.new.calls [.put "k" "v"] = [("", "OK")] := by
  decide +kernel

end LogicRaft
