import Cs426.Lib.Walkers

/-!
# Warnings of the encoder

`lab3/labgob/labgob.go`: the encoder of calls and persisted state, which warns of field names
that `gob` would leave out, and of decoding into a variable that is not at its default.

## The model

Types are given by what reflection shows of them (`Kind`), and may refer to each other in
cycles. `checkType` marks a type as checked before it goes into it; its recursion is the stack of
what a goroutine has still to do. The goroutines of any number of `Encode`, `Decode` and
`Register` calls take turns, each holding `mu` where the code does. A value is modelled as far
as `checkDefault1` looks into it, with the flags by which `reflect` knows that it was reached
through an unexported field: `Interface` panics on such a value, and a panic ends the process.
`Encode(nil)` and `Decode(nil)`, which panic at once, are left out, and so is `gob` itself: a
call is at its end when it has made its checks.

## What is proved

* `panic_mem_checkDefault` — decoding into a struct with a lower-case field of a basic type
  panics.
* `complains_once` — when all calls have made their checks, exactly the types that can be
  reached from the values have been checked, each lower-case field of them has been complained
  about once, and the count is that of these fields and of the non-default variables; recursive
  types do no harm. No variable was one that makes `Decode` panic.
-/

namespace Cs426.Rpc

open Cs426.Machine Cs426.Walkers

namespace Labgob

variable {T : Type*}

structure Field (T : Type*) where
  name : String
  type : T
  deriving DecidableEq

/-- What `reflect.Type` shows of a type. -/
inductive Kind (T : Type*) where
  | struct (name : String) (fields : List (Field T))
  /-- `Slice`, `Array` or `Ptr`. -/
  | elem (t : T)
  | map (elem key : T)
  | other

/-- A line that is printed: about a lower-case field of a type, or about a variable that is not
at its default. -/
inductive Complaint where
  | lowerCase (field type : String)
  | nonDefault (what : String)
  deriving DecidableEq

def Complaint.isLowerCase : Complaint → Bool
  | .lowerCase .. => true
  | .nonDefault _ => false

/-- What a goroutine does besides checking types. -/
inductive Action where
  /-- Print that a field of a type is lower-case. -/
  | warn (field type : String)
  /-- Count that, under the lock. -/
  | count
  /-- Count a variable that is not at its default, and print it if it is the first error. -/
  | nonDefault (what : String)
  | panic
  deriving DecidableEq

/-- The types of a program, and `unicode.IsUpper`. -/
structure Types (T : Type*) where
  kind : T → Kind T
  isUpper : Char → Bool

/-- A name without a first rune decodes to the replacement character. -/
def Types.upperCase (types : Types T) (name : String) : Bool := types.isUpper (name.toList.headD '�')

/-! ### Variables -/

/-- A value, as far as `checkDefault1` looks into it. -/
inductive Value where
  /-- The fields with their names, and whether they are embedded. -/
  | struct (fields : List (String × Bool × Value))
  | ptr (elem : Option Value)
  /-- A boolean, a number or a string. -/
  | basic (typeName : String) (isZero : Bool)
  | other

/-- The flags of a `reflect.Value` that was reached through an unexported field. -/
structure Flags where
  stickyRO : Bool
  embedRO : Bool

/-- Those of a field. That a field is embedded is forgotten further down. -/
def Flags.field (fl : Flags) (exported embedded : Bool) : Flags :=
  ⟨fl.stickyRO || (!exported && !embedded), !exported && embedded⟩

namespace Types

variable (types : Types T)

/-- `checkDefault1`, with the number of levels it may still go down: what it does. Nothing is
done after a panic. -/
def checkDefault1 : ℕ → Value → Flags → String → List Action
  | 0, _, _, _ => []
  | depth + 1, value, fl, name =>
    match value with
    | .struct fields => fields.flatMap fun ⟨name1, embedded, vv⟩ =>
        checkDefault1 depth vv (fl.field (types.upperCase name1) embedded)
          (if name ≠ "" then name ++ "." ++ name1 else name1)
    | .ptr none => []
    | .ptr (some elem) => checkDefault1 depth elem fl name
    | .basic typeName isZero =>
      if fl.stickyRO || fl.embedRO then [.panic]
      else if isZero then []
      else [.nonDefault (if name = "" then typeName else name)]
    | .other => []

def checkDefault (value : Value) : List Action := types.checkDefault1 3 value ⟨false, false⟩ ""

variable {types}

/-- **A struct with a lower-case field of a basic type** cannot be decoded into. -/
theorem panic_mem_checkDefault {fields : List (String × Bool × Value)} {name typeName : String} {embedded isZero : Bool}
    (hfield : (name, embedded, .basic typeName isZero) ∈ fields) (hname : types.upperCase name = false) :
    .panic ∈ types.checkDefault (.ptr (some (.struct fields))) := by
  refine List.mem_flatMap.mpr ⟨_, hfield, ?_⟩
  cases embedded <;> simp [checkDefault1, Flags.field, hname]

theorem warn_notMem_checkDefault1 {depth : ℕ} {value : Value} {fl : Flags} {name field type : String} :
    .warn field type ∉ types.checkDefault1 depth value fl name := by
  induction depth generalizing value fl name with
  | zero => exact List.not_mem_nil
  | succ depth ih =>
    intro h
    cases value with
    | struct fields =>
      obtain ⟨⟨name1, embedded, vv⟩, -, h⟩ := List.mem_flatMap.mp h
      exact ih h
    | ptr elem =>
      cases elem with
      | none => cases h
      | some elem => exact ih h
    | basic typeName isZero =>
      simp only [checkDefault1] at h
      split_ifs at h <;> simp at h
    | other => cases h

/-! ### Types -/

variable (types)

/-- What `checkType` does about a field. -/
def fieldTasks (typeName : String) (f : Field T) : List (Task T Action) :=
  if types.upperCase f.name then [.visit f.type]
  else [.emit (.warn f.name typeName), .emit .count, .visit f.type]

/-- What `checkType` does with a type that has not been checked. -/
def body (t : T) : List (Task T Action) :=
  match types.kind t with
  | .struct name fields => fields.flatMap (types.fieldTasks name)
  | .elem t => [.visit t]
  | .map elem key => [.visit elem, .visit key]
  | .other => []

/-- A type holds values of another. -/
def Contains (t u : T) : Prop :=
  match types.kind t with
  | .struct _ fields => ∃ f ∈ fields, f.type = u
  | .elem t => t = u
  | .map elem key => elem = u ∨ key = u
  | .other => False

/-- The complaints that a type is due. -/
def lowerFields (t : T) : List Complaint :=
  match types.kind t with
  | .struct name fields => (fields.filter fun f => !types.upperCase f.name).map fun f => .lowerCase f.name name
  | _ => []

end Types

/-- The package's variables, what has been printed, and the goroutines in it. -/
structure State (T : Type*) where
  checked : List T
  errorCount : Int64
  printed : List Complaint
  goroutines : List (List (Task T Action))

def State.init : State T := ⟨[], 0, [], []⟩

/-- What happens. -/
inductive Event (T : Type*) where
  /-- `Encode` or `Register` of a value of a type. -/
  | encode (t : T)
  /-- `Decode` into a variable of a type, with its present value. -/
  | decode (t : T) (value : Value)
  /-- A goroutine goes on. -/
  | go (g : ℕ)

/-- What a call does. -/
def Event.tasks (types : Types T) : Event T → List (Task T Action)
  | .encode t => [.visit t]
  | .decode t value => .visit t :: (types.checkDefault value).map .emit
  | .go _ => []

namespace State

/-- No state comes after a panic. -/
def act (s : State T) : Action → Option (State T)
  | .warn field type => some { s with printed := s.printed ++ [.lowerCase field type] }
  | .count => some { s with errorCount := s.errorCount + 1 }
  | .nonDefault what => some
      { s with
        printed := if s.errorCount < 1 then s.printed ++ [.nonDefault what] else s.printed
        errorCount := s.errorCount + 1 }
  | .panic => none

variable [DecidableEq T] (types : Types T)

def step (s : State T) : Event T → Option (State T)
  | .go g =>
    match s.goroutines[g]? with
    | some (.visit t :: rest) =>
      if t ∈ s.checked then some { s with goroutines := s.goroutines.set g rest }
      else some { s with checked := t :: s.checked, goroutines := s.goroutines.set g (types.body t ++ rest) }
    | some (.emit action :: rest) => { s with goroutines := s.goroutines.set g rest }.act action
    | _ => none
  | call => some { s with goroutines := s.goroutines ++ [call.tasks types] }

end State

/-! ### As a walk -/

/-- The events as labels of a walk. -/
def Event.label (types : Types T) : Event T → Label T Action
  | .go g => .go g
  | call => .start (call.tasks types)

/-- The actions among tasks that were done. -/
def actions (tasks : List (Task T Action)) : List Action :=
  tasks.filterMap fun
    | .emit action => some action
    | .visit _ => none

@[simp] theorem actions_append (tasks tasks' : List (Task T Action)) :
    actions (tasks ++ tasks') = actions tasks ++ actions tasks' := List.filterMap_append ..

/-- The action counts an error. -/
def Action.counts : Action → Bool
  | .count | .nonDefault _ => true
  | .warn .. | .panic => false

/-- The line about a lower-case field that the action prints. -/
def Action.warning? : Action → Option Complaint
  | .warn field type => some (.lowerCase field type)
  | .count | .nonDefault _ | .panic => none

/-- A state of the package, and the walk of its goroutines. -/
structure Sim (s : State T) (w : Walk T Action) : Prop where
  checked : s.checked = w.marked
  goroutines : s.goroutines = w.walkers
  errorCount : s.errorCount = Int64.ofNat ((actions w.done).countP Action.counts)
  warned : s.printed.filter Complaint.isLowerCase = (actions w.done).filterMap Action.warning?
  alive : .panic ∉ actions w.done

/-- What an action does: it is not a panic, and leaves all but what is printed and counted. -/
theorem State.act_spec {s s' : State T} {action : Action} (h : s.act action = some s') :
    s'.checked = s.checked ∧ s'.goroutines = s.goroutines ∧
      s'.errorCount = s.errorCount + Int64.ofNat action.counts.toNat ∧
      s'.printed.filter Complaint.isLowerCase = s.printed.filter Complaint.isLowerCase ++ action.warning?.toList ∧
      action ≠ .panic := by
  cases action with
  | warn field type =>
    cases h
    exact ⟨rfl, rfl, (Int64.add_zero _).symm, by simp [Complaint.isLowerCase, Action.warning?], nofun⟩
  | count =>
    cases h
    exact ⟨rfl, rfl, rfl, (List.append_nil _).symm, nofun⟩
  | nonDefault what =>
    cases h
    refine ⟨rfl, rfl, rfl, ?_, nofun⟩
    by_cases hfirst : s.errorCount < 1 <;> simp [hfirst, Complaint.isLowerCase, Action.warning?]
  | panic => cases h

variable [DecidableEq T] {types : Types T} {s s' : State T} {w : Walk T Action} {ev : Event T} {evs : List (Event T)}

/-- **Every step of the package is a step of the walk.** -/
theorem Sim.step (h : Sim s w) (hs : s.step types ev = some s') :
    ∃ w', w.step types.body (ev.label types) = some w' ∧ Sim s' w' := by
  obtain ⟨hchecked, hgor, hcount, hwarned, halive⟩ := h
  cases ev with
  | encode t | decode t value =>
    cases hs
    exact ⟨_, rfl, hchecked, by rw [hgor], hcount, hwarned, halive⟩
  | go g =>
    simp only [State.step, hgor, hchecked] at hs
    simp only [Event.label, Walk.step]
    split at hs
    · next t rest hg =>
      simp only [hg]
      refine ⟨_, rfl, ?_⟩
      have hnone : actions (w.done ++ [.visit t]) = actions w.done := by simp [actions]
      split_ifs at hs with ht <;> cases hs <;>
        exact ⟨by simp [Walk.expand, ht], by simp [Walk.expand, ht], hnone ▸ hcount, hnone ▸ hwarned, hnone ▸ halive⟩
    · next action rest hg =>
      simp only [hg]
      refine ⟨_, rfl, ?_⟩
      obtain ⟨hchecked', hgor', hcount', hwarned', hne⟩ := State.act_spec hs
      have hone : actions (w.done ++ [.emit action]) = actions w.done ++ [action] := actions_append ..
      refine ⟨hchecked', hgor', ?_, ?_, ?_⟩
      · rw [hcount', hcount, hone, List.countP_append, Int64.ofNat_add]
        cases action <;> rfl
      · rw [hwarned', hwarned, hone, List.filterMap_append]
        cases action <;> rfl
      · rw [hone, List.mem_append, List.mem_singleton]
        exact not_or.mpr ⟨halive, hne.symm⟩
    · cases hs

theorem Sim.of_run (h : run (State.step types) State.init evs = some s) :
    ∃ w, run (Walk.step types.body) Walk.init (evs.map (Event.label types)) = some w ∧ Sim s w :=
  run_simulates (R := Sim) (fun _ _ _ _ hsim hs => hsim.step hs) ⟨rfl, rfl, rfl, rfl, List.not_mem_nil⟩ h

/-! ### The result -/

omit [DecidableEq T] in
theorem edge_iff_contains {t u : T} : Walk.Edge types.body t u ↔ types.Contains t u := by
  unfold Walk.Edge Types.body Types.Contains
  cases types.kind t with
  | struct name fields =>
    simp only [List.mem_flatMap]
    refine exists_congr fun f => and_congr_right fun _ => ?_
    unfold Types.fieldTasks
    split_ifs <;> simp [eq_comm]
  | elem t => simp [eq_comm]
  | map elem key => simp [eq_comm]
  | other => simp

/-! #### What a type is due -/

/-- What the tasks of a type do: they print a line for each lower-case field, and count it. -/
def due (complaint : Complaint) : List Action :=
  match complaint with
  | .lowerCase field type => [.warn field type, .count]
  | .nonDefault _ => []

omit [DecidableEq T] in
theorem actions_fields (name : String) (fields : List (Field T)) :
    actions (fields.flatMap (types.fieldTasks name)) =
      ((fields.filter fun f => !types.upperCase f.name).map fun f => .lowerCase f.name name).flatMap due := by
  induction fields with
  | nil => rfl
  | cons f fields ih =>
    rw [List.flatMap_cons, actions_append, ih]
    cases hf : types.upperCase f.name <;> simp [Types.fieldTasks, hf, actions, due]

omit [DecidableEq T] in
theorem actions_body (t : T) : actions (types.body t) = (types.lowerFields t).flatMap due := by
  unfold Types.body Types.lowerFields
  cases types.kind t with
  | struct name fields => exact actions_fields name fields
  | elem | map | other => rfl

omit [DecidableEq T] in
theorem actions_bodies (ts : List T) :
    actions (ts.flatMap types.body) = (ts.flatMap types.lowerFields).flatMap due := by
  induction ts with
  | nil => rfl
  | cons t ts ih =>
    rw [List.flatMap_cons, actions_append, actions_body, ih, List.flatMap_cons, List.flatMap_append]

omit [DecidableEq T] in
theorem isLowerCase_of_mem_lowerFields {t : T} {complaint : Complaint} (h : complaint ∈ types.lowerFields t) :
    complaint.isLowerCase = true := by
  unfold Types.lowerFields at h
  split at h
  · obtain ⟨f, -, rfl⟩ := List.mem_map.mp h
    rfl
  · cases h

/-- What is due to lower-case fields is printed and counted once for each. -/
theorem due_spec {cs : List Complaint} (h : ∀ c ∈ cs, c.isLowerCase = true) :
    (cs.flatMap due).filterMap Action.warning? = cs ∧ (cs.flatMap due).countP Action.counts = cs.length := by
  induction cs with
  | nil => exact ⟨rfl, rfl⟩
  | cons c cs ih =>
    obtain ⟨hc, hcs⟩ := List.forall_mem_cons.mp h
    obtain ⟨hwarn, hcount⟩ := ih hcs
    cases c with
    | lowerCase field type =>
      rw [List.flatMap_cons, List.filterMap_append, List.countP_append, hwarn, hcount, List.length_cons, Nat.add_comm]
      exact ⟨rfl, rfl⟩
    | nonDefault what => cases hc

/-! #### What the calls ask for -/

/-- The types of the values that were encoded or decoded. -/
def roots (evs : List (Event T)) : List T :=
  evs.filterMap fun
    | .encode t | .decode t _ => some t
    | .go _ => none

/-- What `checkDefault` does about the variables that were decoded into. -/
def decoded (types : Types T) (evs : List (Event T)) : List Action :=
  evs.flatMap fun
    | .decode _ value => types.checkDefault value
    | _ => []

/-- The variables that it finds not to be at their default. -/
def nonDefaults (types : Types T) (evs : List (Event T)) : ℕ := (decoded types evs).countP Action.counts

omit [DecidableEq T] in
theorem visit_mem_asked {r : T} :
    Task.visit r ∈ (evs.map (Event.label types)).flatMap Label.tasks ↔ r ∈ roots evs := by
  induction evs with
  | nil => simp [roots]
  | cons ev evs ih =>
    rw [List.map_cons, List.flatMap_cons, List.mem_append, ih]
    cases ev <;> simp [roots, Event.label, Event.tasks, Label.tasks]

omit [DecidableEq T] in
theorem actions_asked : actions ((evs.map (Event.label types)).flatMap Label.tasks) = decoded types evs := by
  induction evs with
  | nil => rfl
  | cons ev evs ih =>
    rw [List.map_cons, List.flatMap_cons, actions_append, ih]
    cases ev <;> simp [decoded, Event.label, Event.tasks, Label.tasks, actions, List.filterMap_map]

omit [DecidableEq T] in
theorem filterMap_decoded : (decoded types evs).filterMap Action.warning? = [] := by
  refine List.filterMap_eq_nil_iff.mpr fun action h => ?_
  obtain ⟨ev, -, h⟩ := List.mem_flatMap.mp h
  cases ev with
  | decode t value =>
    cases action with
    | warn field type => exact absurd h Types.warn_notMem_checkDefault1
    | count | nonDefault | panic => rfl
  | encode | go => cases h

/-! #### Over whole runs -/

/-- A goroutine goes on. -/
def Event.isGo : Event T → Bool
  | .go _ => true
  | _ => false

/-- **The goroutines come to an end**: however calls and goroutines are interleaved, there are no
more steps than what the calls ask for and what the checked types hold, each of which is checked
once. -/
theorem steps_bounded (h : run (State.step types) State.init evs = some s) :
    s.checked.Nodup ∧
      evs.countP Event.isGo ≤ (evs.flatMap (Event.tasks types)).length + (s.checked.flatMap types.body).length := by
  obtain ⟨w, hw, hsim⟩ := Sim.of_run h
  have hle := Walk.countP_isGo_le hw
  have hgo : Label.isGo ∘ Event.label types = (Event.isGo : Event T → Bool) := by
    funext ev
    cases ev <;> rfl
  have htasks : (evs.map (Event.label types)).flatMap Label.tasks = evs.flatMap (Event.tasks types) := by
    rw [List.flatMap_map]
    refine List.flatMap_congr fun ev _ => ?_
    cases ev <;> rfl
  rw [List.countP_map, hgo, Walk.asked_eq_of_run hw, htasks, ← hsim.checked] at hle
  exact ⟨hsim.checked ▸ (Walk.of_run hw).1.nodup, hle⟩

/-- **Every lower-case field is complained about, once.** Let any number of calls of `Encode`,
`Decode` and `Register` run in any interleaving, and let all of them have made their checks. Then
the types that have been checked are exactly those that the values passed in can hold, through any
number of other types, which may refer to each other; each of their lower-case fields has been
printed once; `errorCount` is the number of these fields and of the variables that were found not
to be at their default; and no variable makes `checkDefault` panic. -/
theorem complains_once (h : run (State.step types) State.init evs = some s) (hs : ∀ tasks ∈ s.goroutines, tasks = []) :
    (∀ t, t ∈ s.checked ↔ ∃ r ∈ roots evs, Relation.ReflTransGen types.Contains r t) ∧
      s.checked.Nodup ∧ (s.printed.filter Complaint.isLowerCase).Perm (s.checked.flatMap types.lowerFields) ∧
      s.errorCount = Int64.ofNat ((s.checked.flatMap types.lowerFields).length + nonDefaults types evs) ∧
      ∀ t value, .decode t value ∈ evs → .panic ∉ types.checkDefault value := by
  obtain ⟨w, hw, hsim⟩ := Sim.of_run h
  have hrests : w.Rests := fun tasks htasks => hs tasks (hsim.goroutines ▸ htasks)
  have hedge : Walk.Edge types.body = types.Contains := by
    funext t u
    exact propext edge_iff_contains
  have hdone : (actions w.done).Perm (decoded types evs ++ (s.checked.flatMap types.lowerFields).flatMap due) := by
    have := (Walk.done_perm hw hrests).filterMap fun
      | .emit action => some action
      | .visit _ => none
    rwa [← actions, ← actions, actions_append, Walk.asked_eq_of_run hw, actions_asked, actions_bodies,
      ← hsim.checked] at this
  have hlower : ∀ complaint ∈ s.checked.flatMap types.lowerFields, complaint.isLowerCase = true := by
    intro complaint hc
    obtain ⟨t, -, hc⟩ := List.mem_flatMap.mp hc
    exact isLowerCase_of_mem_lowerFields hc
  obtain ⟨hwarn, hcount⟩ := due_spec hlower
  refine ⟨fun t => ?_, hsim.checked ▸ (Walk.of_run hw).1.nodup, ?_, ?_, fun t value hdecode hpanic => ?_⟩
  · rw [hsim.checked, Walk.marked_iff hw hrests, hedge, Walk.asked_eq_of_run hw]
    simp only [visit_mem_asked]
  · rw [hsim.warned]
    have := hdone.filterMap Action.warning?
    rwa [List.filterMap_append, filterMap_decoded, List.nil_append, hwarn] at this
  · rw [hsim.errorCount, hdone.countP_eq, List.countP_append, hcount, Nat.add_comm, nonDefaults]
  · refine hsim.alive (hdone.symm.subset (List.mem_append_left _ ?_))
    exact List.mem_flatMap.mpr ⟨_, hdecode, hpanic⟩

inductive ListType
  | node | nodePtr | int | reply | replyPtr
  deriving DecidableEq

/-- A list: a struct with a lower-case field and a pointer to its own type; and a pointer to a
reply with one field. -/
def listTypes : Types ListType where
  kind
    | .node => .struct "node" [⟨"value", .int⟩, ⟨"Next", .nodePtr⟩]
    | .nodePtr => .elem .node
    | .int => .other
    | .reply => .struct "reply" [⟨"Count", .int⟩]
    | .replyPtr => .elem .reply
  isUpper := Char.isUpper

/-- Two goroutines encode a list at the same time, and a third decodes into a used reply. -/
def threeCalls : List (Event ListType) :=
  [.encode .node, .encode .node, .decode .replyPtr (.ptr (some (.struct [("Count", false, .basic "int" false)]))), .go 0,
    .go 1, .go 2, .go 0, .go 0, .go 2, .go 0, .go 0, .go 2, .go 2, .go 0]

theorem complains_once_threeCalls :
    ∃ s, run (State.step listTypes) State.init threeCalls = some s ∧
      (s.printed.filter Complaint.isLowerCase).Perm (s.checked.flatMap listTypes.lowerFields) ∧ s.errorCount = 2 := by
  have hr : run (State.step listTypes) State.init threeCalls = some _ := run_eq_some_get _ (by decide)
  obtain ⟨-, -, hprinted, hcount, -⟩ := complains_once hr (by decide)
  exact ⟨_, hr, hprinted, hcount⟩

end Labgob

end Cs426.Rpc
