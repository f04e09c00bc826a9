import Cs426.Kv.Migration

/-!
# A client and its replicas

`Kv` (`lab4/kv/client.go`): one client that writes to all nodes of a shard and reads from
any, on servers that have all handled a shard map which does not change.

## The model

* `Kv.mu` is held for the whole of an operation, so a client is a machine with one operation
  at a time: it is called, its calls to the servers are made, it returns. The times of the
  call and of the return are those at which the lock is taken and released; a caller waits
  before and after, which moves neither bound the wrong way.
* `Set` and `Delete` start one goroutine for each node, which run in any order; `Get` asks one
  node after the other. A call to a server is answered, or fails, having been executed
  (`lost`) or not (`unsent`).
* Each node has its own clock, at a distance `skew` of the client's. In the background the
  servers do whatever is not a write: `cleanup` of any shard at any time, updates, requests of
  other nodes.
* `history` records the operations that have returned, the latest first.
-/

namespace Cs426.Kv

open Cs426.Machine

/-! ### The operations -/

/-- `Set` and `Delete` of the client. -/
inductive Write where
  | set (key value : String) (ttl : ℤ)
  | delete (key : String)
deriving DecidableEq

namespace Write

def key : Write → String
  | set key _ _ => key
  | delete key => key

/-- The request a server gets, at the moment `now`. -/
def event : Write → ℤ → Event
  | set key value ttl, now => .set key value (milliseconds ttl) now
  | delete key, now => .delete key now

/-- The error a server answers with. -/
def error (srv : Server) (numShards : ℤ) (now : ℤ) : Write → Option Status
  | set key value ttl =>
    match srv.set numShards key value (milliseconds ttl) now with
    | .ok _ => none
    | .error e => some e
  | delete key =>
    match srv.delete numShards key with
    | .ok _ => none
    | .error e => some e

end Write

def noNodeFound : Status := ⟨.notFound, "no node found"⟩

/-- The loop of `Set` and `Delete` over `err_ch`. -/
def lastError : Option Status → List (Option Status) → Option Status
  | err, [] => err
  | err, none :: errs => lastError err errs
  | _, some e :: errs => lastError (some e) errs

/-- The loop of `Get` over the answers of the nodes. -/
def getLoop : Option Status → List (Except Status GetResponse) → Except Status GetResponse
  | none, [] => .ok ⟨"", false⟩
  | some err, [] => .error err
  | _, .ok r :: _ => .ok r
  | _, .error e :: answers => getLoop (some e) answers

/-- An operation that has returned: when it was called, when it returned, and what. -/
inductive Record where
  | wrote (w : Write) (called returned : ℤ) (err : Option Status)
  | got (key : String) (called returned : ℤ) (answer : Except Status GetResponse)
deriving DecidableEq

/-- How far the operation of the client has come. -/
inductive Phase where
  | idle
  /-- The goroutines of `todo` have yet to call; the others have sent `errs`. -/
  | writing (w : Write) (called : ℤ) (todo : List String) (errs : List (Option Status))
  /-- The nodes in `rest` come next; those before gave `answers`. -/
  | reading (key : String) (called : ℤ) (rest : List String) (answers : List (Except Status GetResponse))

structure Session where
  cluster : Cluster
  time : ℤ
  phase : Phase
  history : List Record

/-- What becomes of a call to a server. -/
inductive Outcome where
  | answered
  /-- It is executed, and an error returned. -/
  | lost (e : Status)
  /-- It is not executed, and an error returned. -/
  | unsent (e : Status)

/-- What can happen in a session. -/
inductive Action where
  | callWrite (w : Write) (t : ℤ)
  /-- The start index is drawn here. -/
  | callGet (key : String) (index : ℕ) (t : ℤ)
  | rpc (node : String) (outcome : Outcome) (t : ℤ)
  | ret (t : ℤ)
  /-- A server does something that is no write. -/
  | background (name : String) (e : Event) (t : ℤ)

namespace Outcome

/-- The servers after the call. -/
def cluster (c : Cluster) (node : String) (e : Event) : Outcome → Option Cluster
  | answered | lost _ => c.act node e
  | unsent _ => some c

/-- The error the client sees, the server having answered with `err`. -/
def seen (err : Option Status) : Outcome → Option Status
  | answered => err
  | lost e | unsent e => some e

/-- What the client sees, the server having answered with `r`. -/
def answer (r : Except Status GetResponse) : Outcome → Except Status GetResponse
  | answered => r
  | lost e | unsent e => .error e

/-- The server acts, or nothing happens. -/
theorem cluster_cases {c c' : Cluster} {node : String} {e : Event} {outcome : Outcome}
    (h : outcome.cluster c node e = some c') : c.act node e = some c' ∨ c' = c ∧ ∃ e, outcome = .unsent e := by
  cases outcome with
  | answered | lost => exact .inl h
  | unsent e => exact .inr ⟨(Option.some.inj h).symm, e, rfl⟩

theorem seen_eq_none {err : Option Status} {outcome : Outcome} (h : outcome.seen err = none) :
    outcome = .answered ∧ err = none := by
  cases outcome with
  | answered => exact ⟨rfl, h⟩
  | lost | unsent => cases h

theorem answer_eq_ok {a : Except Status GetResponse} {r : GetResponse} {outcome : Outcome}
    (h : outcome.answer a = .ok r) : outcome = .answered ∧ a = .ok r := by
  cases outcome with
  | answered => exact ⟨rfl, h⟩
  | lost | unsent => cases h

end Outcome

namespace Session

/-- `NodesForShard` of the shard of a key. -/
def nodes (s : Session) (key : String) : List String :=
  s.cluster.shardMap.nodesForShard (getShardForKey key s.cluster.shardMap.numShards)

/-- One step of a session. -/
def step (skew : String → ℤ) (s : Session) : Action → Option Session
  | .callWrite w t =>
    match s.phase with
    | .idle =>
      if s.time ≤ t then
        if s.nodes w.key = [] then some { s with time := t, phase := .writing w t [] [some noNodeFound] }
        else some { s with time := t, phase := .writing w t (s.nodes w.key) [] }
      else none
    | _ => none
  | .callGet key index t =>
    match s.phase with
    | .idle =>
      if s.time ≤ t then
        if s.nodes key = [] then some { s with time := t, phase := .reading key t [] [.error noNodeFound] }
        else if index < (s.nodes key).length then
          some { s with time := t, phase := .reading key t ((s.nodes key).rotate index) [] }
        else none
      else none
    | _ => none
  | .rpc node outcome t =>
    let srv := s.cluster.servers node
    let now := t + skew node
    match s.phase with
    | .writing w called todo errs =>
      if s.time ≤ t ∧ node ∈ todo then
        (outcome.cluster s.cluster node (w.event now)).map fun c =>
          { s with cluster := c, time := t
                   phase := .writing w called (todo.erase node)
                     (errs ++ [outcome.seen (w.error srv s.cluster.shardMap.numShards now)]) }
      else none
    | .reading key called (next :: rest) answers =>
      if s.time ≤ t ∧ node = next ∧ ∀ a ∈ answers, a.isOk = false then
        (outcome.cluster s.cluster node (.get key now)).map fun c =>
          { s with cluster := c, time := t
                   phase := .reading key called rest
                     (answers ++ [outcome.answer (srv.get s.cluster.shardMap.numShards key now)]) }
      else none
    | _ => none
  | .ret t =>
    match s.phase with
    | .writing w called [] errs =>
      if s.time ≤ t then
        some { s with time := t, phase := .idle, history := .wrote w called t (lastError none errs) :: s.history }
      else none
    | .reading key called rest answers =>
      if s.time ≤ t ∧ (rest = [] ∨ ∃ a ∈ answers, a.isOk = true) then
        some { s with time := t, phase := .idle, history := .got key called t (getLoop none answers) :: s.history }
      else none
    | _ => none
  | .background name e t =>
    if s.time ≤ t ∧ e.isWrite = false ∧ e.isReply = false then
      (s.cluster.act name e).bind fun c =>
        if (c.servers name).now ≤ t + skew name then some { s with cluster := c, time := t } else none
    else none

variable {skew : String → ℤ} {s s' : Session} {t : ℤ}

/-! ### The actions, one by one -/

theorem step_callWrite {w : Write} (h : s.step skew (.callWrite w t) = some s') :
    s.phase = .idle ∧ s.time ≤ t ∧ ∃ todo errs, s' = { s with time := t, phase := .writing w t todo errs } ∧
      ((∃ e, some e ∈ errs) ∨ todo = s.nodes w.key) := by
  simp only [step] at h
  split at h
  · next hidle =>
    split_ifs at h with ht hnodes <;> obtain rfl := Option.some.inj h
    · exact ⟨hidle, ht, _, _, rfl, .inl ⟨_, List.mem_singleton_self _⟩⟩
    · exact ⟨hidle, ht, _, _, rfl, .inr rfl⟩
  · cases h

theorem step_callGet {key : String} {index : ℕ} (h : s.step skew (.callGet key index t) = some s') :
    s.phase = .idle ∧ s.time ≤ t ∧ ∃ rest answers, s' = { s with time := t, phase := .reading key t rest answers } ∧
      (∀ node ∈ rest, node ∈ s.nodes key) ∧ (rest = [] → answers ≠ []) ∧ ∀ r, .ok r ∉ answers := by
  simp only [step] at h
  split at h
  · next hidle =>
    split_ifs at h with ht hnodes hindex <;> obtain rfl := Option.some.inj h
    · exact ⟨hidle, ht, _, _, rfl, by simp, by simp, by simp⟩
    · refine ⟨hidle, ht, _, _, rfl, fun _ hnode => List.mem_rotate.mp hnode, fun hnil => ?_, by simp⟩
      exact absurd (List.rotate_eq_nil_iff.mp hnil) hnodes
  · cases h

theorem step_rpc {node : String} {outcome : Outcome} (h : s.step skew (.rpc node outcome t) = some s') :
    s.time ≤ t ∧
    ((∃ w called todo errs c, s.phase = .writing w called todo errs ∧ node ∈ todo ∧
        outcome.cluster s.cluster node (w.event (t + skew node)) = some c ∧
        s' = { s with
          cluster := c
          time := t
          phase := .writing w called (todo.erase node) (errs ++
            [outcome.seen (w.error (s.cluster.servers node) s.cluster.shardMap.numShards (t + skew node))]) }) ∨
      ∃ key called rest answers c, s.phase = .reading key called (node :: rest) answers ∧
        outcome.cluster s.cluster node (.get key (t + skew node)) = some c ∧
        s' = { s with
          cluster := c
          time := t
          phase := .reading key called rest (answers ++
            [outcome.answer ((s.cluster.servers node).get s.cluster.shardMap.numShards key (t + skew node))]) }) := by
  simp only [step] at h
  split at h
  · next w called todo errs hphase =>
    split_ifs at h with hguard
    obtain ⟨c, hc, rfl⟩ := Option.map_eq_some_iff.mp h
    exact ⟨hguard.1, .inl ⟨w, called, todo, errs, c, hphase, hguard.2, hc, rfl⟩⟩
  · next key called next rest answers hphase =>
    split_ifs at h with hguard
    obtain ⟨c, hc, rfl⟩ := Option.map_eq_some_iff.mp h
    obtain ⟨ht, rfl, -⟩ := hguard
    exact ⟨ht, .inr ⟨key, called, rest, answers, c, hphase, hc, rfl⟩⟩
  · cases h

theorem step_ret (h : s.step skew (.ret t) = some s') :
    s.time ≤ t ∧
    ((∃ w called errs, s.phase = .writing w called [] errs ∧ s' = { s with
        time := t, phase := .idle, history := .wrote w called t (lastError none errs) :: s.history }) ∨
      ∃ key called rest answers, s.phase = .reading key called rest answers ∧
        (rest = [] ∨ ∃ a ∈ answers, a.isOk = true) ∧ s' = { s with
          time := t, phase := .idle, history := .got key called t (getLoop none answers) :: s.history }) := by
  simp only [step] at h
  split at h
  · next w called errs hphase =>
    split_ifs at h with ht
    obtain rfl := Option.some.inj h
    exact ⟨ht, .inl ⟨w, called, errs, hphase, rfl⟩⟩
  · next key called rest answers hphase =>
    split_ifs at h with hguard
    obtain rfl := Option.some.inj h
    exact ⟨hguard.1, .inr ⟨key, called, rest, answers, hphase, hguard.2, rfl⟩⟩
  · cases h

theorem step_background {name : String} {e : Event} (h : s.step skew (.background name e t) = some s') :
    s.time ≤ t ∧ e.isWrite = false ∧ ∃ c, s.cluster.act name e = some c ∧ s' = { s with cluster := c, time := t } := by
  simp only [step] at h
  split_ifs at h with hguard
  obtain ⟨c, hc, h⟩ := Option.bind_eq_some_iff.mp h
  split_ifs at h
  exact ⟨hguard.1, hguard.2.1, c, hc, (Option.some.inj h).symm⟩

end Session

end Cs426.Kv
