import Cs426.Lib.Machine
import Cs426.Kv.Effects

/-!
# A cluster of key-value servers

The servers of `Cs426.Kv.Server` around one shard map. Node names name servers; a name that
is in no shard map is a server that hosts nothing. The servers act on their own, in any
order; the one thing they do together is a `GetShardContents` call of one to another, which
is one step of the cluster: the peer serves the request, and then the caller's goroutine
goes on with what it answered.

Each node has its own clock readings. A reply is received no earlier than the request was
served; otherwise the clocks of two nodes are read in any order.
-/

namespace Cs426.Kv

open Cs426.Machine

/-- The shard map in force, and the servers. -/
structure Cluster where
  shardMap : ShardMapState
  servers : String → Server

/-- What can happen in a cluster. -/
inductive Label where
  /-- `ShardMap.Update`: a new state is in force. -/
  | update (st : ShardMapState)
  /-- An event at one server that no other server takes part in. -/
  | event (name : String) (e : Event)
  /-- The `f`-th goroutine of a call of `handleShardMapUpdate` calls `GetShardContents` of its
  next node, which visits its shard until `finish`; the reply is received at `received`. -/
  | ask (name : String) (caller : Caller) (f : ℕ) (visits : List Visit) (finish received : ℤ)
  /-- That call fails on its way. -/
  | fail (name : String) (caller : Caller) (f : ℕ) (now : ℤ)

/-- The event is the return of a call to another node. -/
def Event.isReply : Event → Bool
  | fetchReply .. => true
  | _ => false

/-- The shard and the next node of the `f`-th goroutine. -/
def Server.nextNode (srv : Server) (caller : Caller) (f : ℕ) : Option (ℤ × String) :=
  match (srv.handlers caller).fetches[f]? with
  | some ⟨shard, node :: _⟩ => some (shard, node)
  | _ => none

namespace Cluster

def setServer (c : Cluster) (name : String) (srv : Server) : Cluster :=
  { c with servers := Function.update c.servers name srv }

/-- One server takes an event. -/
def act (c : Cluster) (name : String) (e : Event) : Option Cluster :=
  ((c.servers name).step c.shardMap e).map (c.setServer name)

/-- One step of the cluster. -/
def step (c : Cluster) : Label → Option Cluster
  | .update st => some { c with shardMap := st }
  | .event name e => if e.isReply then none else c.act name e
  | .ask name caller f visits finish received =>
    ((c.servers name).nextNode caller f).bind fun ⟨shard, node⟩ =>
      (c.act node (.getShardContents shard visits finish)).bind fun c' =>
        if finish ≤ received then
          c'.act name (.fetchReply caller f ((c.servers node).getShardContents shard visits).toOption received)
        else none
  | .fail name caller f now => c.act name (.fetchReply caller f none now)

/-- How a cluster starts: every server as `MakeKvServer` builds it, the clocks anywhere. -/
def Init (c : Cluster) : Prop := ∀ name, ∃ now, c.servers name = makeKvServer name now

/-- A cluster at its start, with every clock at zero. -/
def fresh (st : ShardMapState) : Cluster := ⟨st, fun name => makeKvServer name 0⟩

theorem fresh_init (st : ShardMapState) : (fresh st).Init := fun _ => ⟨0, rfl⟩

/-! ### The steps, one by one -/

section Steps

variable {c c' : Cluster} {name : String} {e : Event} {caller : Caller} {f : ℕ}

@[simp] theorem setServer_shardMap (c : Cluster) (name : String) (srv : Server) :
    (c.setServer name srv).shardMap = c.shardMap := rfl

@[simp] theorem setServer_self (c : Cluster) (name : String) (srv : Server) :
    (c.setServer name srv).servers name = srv := Function.update_self ..

theorem setServer_of_ne (c : Cluster) {name other : String} (h : other ≠ name) (srv : Server) :
    (c.setServer name srv).servers other = c.servers other := Function.update_of_ne h ..

theorem act_iff : c.act name e = some c' ↔
    ∃ srv, (c.servers name).step c.shardMap e = some srv ∧ c' = c.setServer name srv := by
  simp [act, eq_comm (a := c')]

/-- What one server does, seen from any server. -/
theorem act_cases (h : c.act name e = some c') (other : String) :
    c'.shardMap = c.shardMap ∧ (c'.servers other = c.servers other ∨
      other = name ∧ (c.servers other).step c.shardMap e = some (c'.servers other)) := by
  obtain ⟨srv, hsrv, rfl⟩ := act_iff.mp h
  refine ⟨rfl, ?_⟩
  by_cases ho : other = name
  · subst ho
    exact .inr ⟨rfl, by rw [setServer_self, hsrv]⟩
  · exact .inl (setServer_of_ne c ho srv)

theorem step_event_iff : c.step (.event name e) = some c' ↔ e.isReply = false ∧ c.act name e = some c' := by
  cases he : e.isReply <;> simp [step, he]

theorem nextNode_eq_some_iff {srv : Server} {shard : ℤ} {node : String} :
    srv.nextNode caller f = some (shard, node) ↔
      ∃ rest, (srv.handlers caller).fetches[f]? = some ⟨shard, node :: rest⟩ := by
  unfold Server.nextNode
  split <;> simp_all

/-- A call to another node is the peer serving the request, and then the reply. -/
theorem step_ask_iff {visits : List Visit} {finish received : ℤ} :
    c.step (.ask name caller f visits finish received) = some c' ↔ ∃ shard node rest c₁,
      ((c.servers name).handlers caller).fetches[f]? = some ⟨shard, node :: rest⟩ ∧
      c.act node (.getShardContents shard visits finish) = some c₁ ∧ finish ≤ received ∧
      c₁.act name (.fetchReply caller f ((c.servers node).getShardContents shard visits).toOption received) =
        some c' := by
  simp only [step, Option.bind_eq_some_iff, Option.ite_none_right_eq_some, Prod.exists, nextNode_eq_some_iff]
  constructor
  · rintro ⟨shard, node, ⟨rest, hf⟩, c₁, h₁, hle, h⟩
    exact ⟨shard, node, rest, c₁, hf, h₁, hle, h⟩
  · rintro ⟨shard, node, rest, c₁, hf, h₁, hle, h⟩
    exact ⟨shard, node, ⟨rest, hf⟩, c₁, h₁, hle, h⟩

/-- Serving `GetShardContents` changes nothing but the clock. -/
theorem act_getShardContents {node : String} {shard : ℤ} {visits : List Visit} {finish : ℤ}
    (h : c.act node (.getShardContents shard visits finish) = some c') :
    c'.shardMap = c.shardMap ∧ (c'.servers node).now = finish ∧ ∀ other,
      (c'.servers other).nodeName = (c.servers other).nodeName ∧
      (c'.servers other).shards = (c.servers other).shards ∧
      (c'.servers other).handlers = (c.servers other).handlers := by
  obtain ⟨srv, hsrv, rfl⟩ := act_iff.mp h
  obtain ⟨-, rfl⟩ := Server.step_getShardContents_iff.mp hsrv
  refine ⟨rfl, by simp, fun other => ?_⟩
  by_cases ho : other = node
  · subst ho
    simp
  · simp [setServer_of_ne c ho]

/-- The reply a goroutine gets is what the peer it asked lists for the shard it asked for. -/
theorem reply_of_ask {shard : ℤ} {node : String} {rest : List String} {visits : List Visit} {finish received : ℤ}
    (hf : ((c.servers name).handlers caller).fetches[f]? = some ⟨shard, node :: rest⟩)
    (h : c.act node (.getShardContents shard visits finish) = some c') {caller' : Caller} {f' : ℕ}
    {vs : List GetShardValue} {now shard' : ℤ} {rest' : List String}
    (he : Event.fetchReply caller f ((c.servers node).getShardContents shard visits).toOption received =
      .fetchReply caller' f' (some vs) now)
    (hf' : ((c'.servers name).handlers caller').fetches[f']? = some ⟨shard', rest'⟩) :
    shard' = shard ∧ (c.servers node).getShardContents shard visits = .ok vs := by
  cases hans : (c.servers node).getShardContents shard visits with
  | error => simp [hans, Except.toOption] at he
  | ok values =>
    simp only [hans, Except.toOption, Event.fetchReply.injEq, Option.some.injEq] at he
    obtain ⟨rfl, rfl, rfl, -⟩ := he
    rw [((act_getShardContents h).2.2 name).2.2, hf, Option.some.injEq, Fetch.mk.injEq] at hf'
    exact ⟨hf'.1.symm, rfl⟩

end Steps

end Cluster

end Cs426.Kv
