import Cs426.Lib.Machine
import Cs426.Kv.Effects

/-!
# What a request returns and what it changes

`Get`, `Set` and `Delete` (`lab4/kv/server.go`) first look whether the shard of the key is
hosted and then whether the key is empty. An empty key is hashed like any other, so on a
server that does not host the shard it falls into, the first check answers in place of the
second. Everything else about the three is as it should be: their errors change nothing, and
what they change is the entry of their key.

## What is proved

* `request_errors` — for every state of a server and every request, when its code is the one
  that `lab4.md`, A1 and A2, ask for, and what it leaves as it was.
* `empty_key_not_found` — a server that answers `NotFound` to a request without a key.
-/

namespace Cs426.Kv

open Cs426.Machine

/-- A request of a client to a server. -/
inductive ClientRequest where
  | get (key : String)
  | set (key value : String) (ttlMs : ℤ)
  | delete (key : String)

/-- The code of an error, if there is one. -/
def errorCode {α : Type*} : Except Status α → Option Code
  | .ok _ => none
  | .error e => some e.code

theorem errorCode_map {α β : Type*} (f : α → β) (r : Except Status α) : errorCode (r.map f) = errorCode r := by
  cases r <;> rfl

namespace ClientRequest

def key : ClientRequest → String
  | get key | set key _ _ | delete key => key

def isWrite : ClientRequest → Bool
  | get _ => false
  | set _ _ _ | delete _ => true

/-- The server gets the request at the moment `now`. -/
def event (now : ℤ) : ClientRequest → Event
  | get key => .get key now
  | set key value ttlMs => .set key value ttlMs now
  | delete key => .delete key now

/-- The code the server answers with. -/
def code (srv : Server) (numShards now : ℤ) : ClientRequest → Option Code
  | get key => errorCode (srv.get numShards key now)
  | set key value ttlMs => errorCode (srv.set numShards key value ttlMs now)
  | delete key => errorCode (srv.delete numShards key)

/-- The code that is asked for: an empty key is an invalid argument, and the shard of any
other key is to be hosted. -/
def wanted (srv : Server) (numShards : ℤ) (r : ClientRequest) : Option Code :=
  if r.key = "" then some .invalidArgument
  else if srv.isShardHosted (getShardForKey r.key numShards) then none
  else some .notFound

/-- The three answer with the code of the checks they begin with. -/
theorem code_eq (srv : Server) (numShards now : ℤ) (r : ClientRequest) :
    r.code srv numShards now = errorCode (srv.shardOf numShards r.key) := by
  cases r with
  | get key => exact errorCode_map _ _
  | set key value ttlMs => exact errorCode_map _ _
  | delete key => exact errorCode_map _ _

end ClientRequest

namespace Server

variable {st : ShardMapState} {srv srv' : Server}

/-- **What the checks answer**: `NotFound` for a shard that is not hosted, whatever the key. -/
theorem errorCode_shardOf (srv : Server) (numShards : ℤ) (key : String) :
    errorCode (srv.shardOf numShards key) =
      if srv.isShardHosted (getShardForKey key numShards) then
        if key = "" then some .invalidArgument else none
      else some .notFound := by
  cases hs : srv.shards.lookup (int32 (getShardForKey key numShards)) with
  | none => simp [shardOf, isShardHosted, hs, errorCode]
  | some kvShard =>
    simp only [shardOf, isShardHosted, hs, Option.isSome_some, if_true]
    split_ifs <;> rfl

/-- A request that is answered with an error leaves the shards alone. -/
theorem shards_of_error {r : ClientRequest} {now : ℤ} (h : srv.step st (r.event now) = some srv')
    (herr : r.code srv st.numShards now ≠ none) : srv'.shards = srv.shards := by
  rw [ClientRequest.code_eq] at herr
  cases r with
  | get key =>
    obtain ⟨-, rfl⟩ := step_get_iff.mp h
    rfl
  | set key value ttlMs =>
    obtain ⟨-, ⟨_, -, rfl⟩ | ⟨_, _, hok, -⟩⟩ := step_set_iff.mp h
    · rfl
    · exact absurd (by rw [ClientRequest.key, hok]; rfl) herr
  | delete key =>
    obtain ⟨-, ⟨_, -, rfl⟩ | ⟨_, _, hok, -⟩⟩ := step_delete_iff.mp h
    · rfl
    · exact absurd (by rw [ClientRequest.key, hok]; rfl) herr

/-- A request changes at most the entry of its key, and only if it is a write. -/
theorem entry_of_request {r : ClientRequest} {now : ℤ} (h : srv.step st (r.event now) = some srv') {shard : ℤ}
    {k : String} (hne : srv'.entry shard k ≠ srv.entry shard k) :
    r.isWrite = true ∧ shard = int32 (getShardForKey r.key st.numShards) ∧ k = r.key := by
  have hchange := entry_cases h shard k
  cases r with
  | get key =>
    cases hchange with
    | same hsame => exact absurd hsame hne
  | set key value ttlMs =>
    cases hchange with
    | same hsame => exact absurd hsame hne
    | set hshard _ _ => exact ⟨rfl, (shardOf_eq_ok_iff.mp hshard).1, rfl⟩
  | delete key =>
    cases hchange with
    | same hsame => exact absurd hsame hne
    | delete hshard _ => exact ⟨rfl, (shardOf_eq_ok_iff.mp hshard).1, rfl⟩

/-- No request changes which shards are hosted. -/
theorem hosts_of_request {r : ClientRequest} {now : ℤ} (h : srv.step st (r.event now) = some srv') (shard : ℤ) :
    srv'.Hosts shard ↔ srv.Hosts shard := by
  rcases hosts_cases h shard with hsame | ⟨caller, he, -⟩ | ⟨caller, index, he, -⟩
  · exact hsame
  · cases r <;> cases he
  · cases r <;> cases he

end Server

/-- **Error codes and what a request changes**, for every state of a server and every request.
The code is the one asked for if and only if the key is not empty or the server hosts the
shard the empty key falls into. A request answered with an error leaves all shards as they
are. A successful `Set` or `Delete` changes at most the entry of its own key in the shard of
that key, a `Get` changes no entry, and none of them changes which shards are hosted. -/
theorem request_errors (st : ShardMapState) (srv : Server) (r : ClientRequest) (now : ℤ) :
    (r.code srv st.numShards now = r.wanted srv st.numShards ↔
      r.key ≠ "" ∨ srv.isShardHosted (getShardForKey "" st.numShards) = true) ∧
    ∀ srv', srv.step st (r.event now) = some srv' →
      (r.code srv st.numShards now ≠ none → srv'.shards = srv.shards) ∧
      (∀ shard k, srv'.entry shard k ≠ srv.entry shard k →
        r.isWrite = true ∧ shard = int32 (getShardForKey r.key st.numShards) ∧ k = r.key) ∧
      ∀ shard, srv'.Hosts shard ↔ srv.Hosts shard := by
  refine ⟨?_, fun srv' h => ⟨Server.shards_of_error h, fun shard k => Server.entry_of_request h,
    Server.hosts_of_request h⟩⟩
  rw [ClientRequest.code_eq, Server.errorCode_shardOf, ClientRequest.wanted]
  by_cases hkey : r.key = ""
  · -- the empty key: the first check must let it through to the second
    rw [hkey]
    by_cases hhosted : srv.isShardHosted (getShardForKey "" st.numShards) = true <;> simp [hhosted]
  · by_cases hhosted : srv.isShardHosted (getShardForKey r.key st.numShards) = true <;> simp [hkey, hhosted]

/-- Two shards, the first of them on `n1`. -/
def firstOfTwo : ShardMapState where
  nodes := AList.insert "n1" ⟨"localhost", 9001⟩ ∅
  shardsToNodes := AList.insert 1 ["n1"] ∅
  numShards := 2

/-- `n1` starts. -/
def startEvents : List Event :=
  [.startUpdate .makeKvServer, .addShard .makeKvServer 1 0, .fetchGiveUp .makeKvServer 0, .relock .makeKvServer,
    .finishUpdate .makeKvServer]

/-- `n1` once it has started. -/
def startedServer : Server :=
  (run (Server.step firstOfTwo) (makeKvServer "n1" 0) startEvents).get (by decide +kernel)

/-- `n1` stores a value, which changes nothing under any other key. -/
theorem request_errors_startedServer : ∃ srv', startedServer.step firstOfTwo (.set "a" "v" 1000 5) = some srv' ∧
    srv'.entry 1 "a" = some ⟨"v", 5, 1000⟩ ∧ ∀ shard, srv'.entry shard "c" = startedServer.entry shard "c" := by
  have hstep : (startedServer.step firstOfTwo (.set "a" "v" 1000 5)).isSome = true := by decide +kernel
  obtain ⟨srv', hsrv'⟩ := Option.isSome_iff_exists.mp hstep
  have hentry : (startedServer.step firstOfTwo (.set "a" "v" 1000 5)).map (fun srv' => srv'.entry 1 "a") =
      some (some ⟨"v", 5, 1000⟩) := by decide +kernel
  rw [hsrv', Option.map_some, Option.some.injEq] at hentry
  refine ⟨srv', hsrv', hentry, fun shard => ?_⟩
  by_contra hne
  have h := ((request_errors firstOfTwo startedServer (.set "a" "v" 1000) 5).2 srv' hsrv').2.1 shard "c" hne
  exact absurd h.2.2 (by decide)

/-- **An empty key is not always an invalid argument**: of two shards the empty key falls into
the second, and `n1`, which hosts the first, answers all three requests that the shard is not
hosted. -/
theorem empty_key_not_found :
    run (Server.step firstOfTwo) (makeKvServer "n1" 0) startEvents = some startedServer ∧
      ∀ value ttlMs now, startedServer.get 2 "" now = .error ⟨.notFound, "shard not hosted"⟩ ∧
        startedServer.set 2 "" value ttlMs now = .error ⟨.notFound, "shard not hosted"⟩ ∧
        startedServer.delete 2 "" = .error ⟨.notFound, "shard not hosted"⟩ := by
  refine ⟨run_eq_some_get _ _, ?_⟩
  have hshard : startedServer.shardOf 2 "" = .error ⟨.notFound, "shard not hosted"⟩ := by
    have hlookup : startedServer.shards.lookup (int32 (getShardForKey "" 2)) = none := by decide +kernel
    rw [Server.shardOf, hlookup]
  intro value ttlMs now
  rw [Server.get, Server.set, Server.delete, hshard]
  exact ⟨rfl, rfl, rfl⟩

end Cs426.Kv
