import Mathlib.Logic.Function.Basic
import Cs426.Kv.Shard
import Cs426.Kv.ShardMap

/-!
# A key-value server

`KvServerImpl` (`lab4/kv/server.go`): the four request handlers, the background `cleanup`
of its shards, and `handleShardMapUpdate` with its goroutines.

## The model

A server is a machine that takes one `Event` at a time. What other threads, other nodes,
the clock and the random number generator do is in the event.

* A request handler runs under `server.mu` and is one event. The lock is held by whoever is
  between the two `Lock`/`Unlock` pairs of `handleShardMapUpdate`; a request waits for it.
  `cleanup` does not take it. That `cleanup` removes keys in the middle of the loop of
  `GetShardContents`, which reads the map of the shard after it has released `shard.mu`, is
  left out: each of the two loops is one event.
* `handleShardMapUpdate` is run by `MakeKvServer` and by `shardMapListenLoop`, so at most
  twice at a time. It is cut where other threads can come in: `startUpdate` takes the lock,
  compares the shard map with the hosted shards and drops the removed ones; `addShard`
  creates the entry of one added shard and starts the goroutine that fetches its contents
  (after the last one the lock is released); `fetchReply` and `fetchGiveUp` are the steps of
  these goroutines; `relock` takes the lock again when all responses are there; `install`
  stores one copied value; `finishUpdate` releases the lock.
* `now` is the last reading of the clock on this node. Readings do not decrease.

A panic is the absence of a step: `rand.Intn` of an empty list of nodes, and installing into
a shard that is not there. Responses carry the shard they were requested for, which the code
does not keep; it only says where a copied value comes from.
-/

namespace Cs426.Kv

/-- The gRPC codes the servers and the client use; any other one is an `other`. -/
inductive Code where
  | notFound
  | invalidArgument
  | other (code : ℕ)
deriving DecidableEq

structure Status where
  code : Code
  message : String
deriving DecidableEq

structure GetResponse where
  value : String
  wasFound : Bool
deriving DecidableEq

/-- A goroutine in `fetchShardContent`: the shard it copies, and the nodes it has yet to
ask, the next one first. -/
structure Fetch where
  shard : ℤ
  rest : List String
deriving DecidableEq

/-- A response in `resCh`, with the shard it was requested for. -/
structure Result where
  shard : ℤ
  values : List GetShardValue
deriving DecidableEq

/-- How far a call of `handleShardMapUpdate` has come. -/
inductive Handler where
  /-- Not running. -/
  | idle
  /-- Entries are created for the shards in `todo`, under the lock; when there are none left
  the lock is free and the responses are awaited. -/
  | copying (todo : List ℤ) (fetches : List Fetch) (results : List Result)
  /-- The copied values are stored, under the lock. -/
  | installing (values : List (ℤ × GetShardValue))
deriving DecidableEq

/-- Who calls `handleShardMapUpdate`. -/
inductive Caller where
  | makeKvServer
  | shardMapListenLoop
deriving DecidableEq

structure Server where
  nodeName : String
  shards : AList fun _ : ℤ => KvShard
  handlers : Caller → Handler
  now : ℤ

/-- The server `MakeKvServer` builds, before its first `handleShardMapUpdate`. -/
def makeKvServer (nodeName : String) (now : ℤ) : Server := ⟨nodeName, ∅, fun _ => .idle, now⟩

/-- The call holds `server.mu`. -/
def Handler.holdsLock : Handler → Bool
  | idle => false
  | copying todo _ _ => !todo.isEmpty
  | installing _ => true

/-- What can happen at a server. -/
inductive Event where
  | get (key : String) (now : ℤ)
  | set (key value : String) (ttlMs now : ℤ)
  | delete (key : String) (now : ℤ)
  | getShardContents (shard : ℤ) (visits : List Visit) (finish : ℤ)
  | cleanup (shard : ℤ) (clock : String → ℤ) (finish : ℤ)
  | startUpdate (caller : Caller)
  /-- The start index of `fetchShardContent` is drawn here. -/
  | addShard (caller : Caller) (shard : ℤ) (index : ℕ)
  /-- The call of the `f`-th goroutine to its next node returns: values, or an error. -/
  | fetchReply (caller : Caller) (f : ℕ) (answer : Option (List GetShardValue)) (now : ℤ)
  /-- The `f`-th goroutine has no node left to ask. -/
  | fetchGiveUp (caller : Caller) (f : ℕ)
  | relock (caller : Caller)
  | install (caller : Caller) (now : ℤ)
  | finishUpdate (caller : Caller)

namespace Server

def isShardHosted (srv : Server) (shard : ℤ) : Bool :=
  (srv.shards.lookup (int32 shard)).isSome

/-- `server.mu` is held by a call of `handleShardMapUpdate`. -/
def locked (srv : Server) : Bool :=
  (srv.handlers .makeKvServer).holdsLock || (srv.handlers .shardMapListenLoop).holdsLock

/-! ### Requests -/

/-- The checks `Get`, `Set` and `Delete` begin with, and the shard they then work on. -/
def shardOf (srv : Server) (numShards : ℤ) (key : String) : Except Status (ℤ × KvShard) :=
  let shard := int32 (getShardForKey key numShards)
  match srv.shards.lookup shard with
  | none => .error ⟨.notFound, "shard not hosted"⟩
  | some kvShard => if key = "" then .error ⟨.invalidArgument, "key cannot be empty"⟩ else .ok (shard, kvShard)

def get (srv : Server) (numShards : ℤ) (key : String) (now : ℤ) : Except Status GetResponse :=
  (srv.shardOf numShards key).map fun s =>
    match s.2.get key now with
    | none => ⟨"", false⟩
    | some obj => ⟨obj.value, true⟩

def set (srv : Server) (numShards : ℤ) (key value : String) (ttlMs now : ℤ) : Except Status Server :=
  (srv.shardOf numShards key).map fun s =>
    { srv with shards := srv.shards.insert s.1 (s.2.set key value ttlMs now) }

def delete (srv : Server) (numShards : ℤ) (key : String) : Except Status Server :=
  (srv.shardOf numShards key).map fun s => { srv with shards := srv.shards.insert s.1 (s.2.delete key) }

def getShardContents (srv : Server) (shard : ℤ) (visits : List Visit) : Except Status (List GetShardValue) :=
  match srv.shards.lookup shard with
  | none => .error ⟨.notFound, "shard not hosted"⟩
  | some kvShard => .ok (kvShard.contents visits)

/-! ### `handleShardMapUpdate` -/

/-- Shards to be added. -/
def added (srv : Server) (st : ShardMapState) : List ℤ :=
  (st.fetchShards srv.nodeName).filter fun shard => shard ∉ srv.shards.keys

/-- Shards to be removed. -/
def removed (srv : Server) (st : ShardMapState) : List ℤ :=
  srv.shards.keys.filter fun shard => shard ∉ st.fetchShards srv.nodeName

/-- The nodes `fetchShardContent` asks, in order: from the start index on and around, the
server itself left out. -/
def fetchOrder (srv : Server) (nodes : List String) (index : ℕ) : List String :=
  (nodes.rotate index).filter (· != srv.nodeName)

/-- The call `caller` has come to `handler`. -/
def setHandler (srv : Server) (caller : Caller) (handler : Handler) : Server :=
  { srv with handlers := Function.update srv.handlers caller handler }

/-- The server after one event, the shard map being `st`. -/
def step (st : ShardMapState) (srv : Server) : Event → Option Server
  | .get _ now =>
    if srv.locked = false ∧ srv.now ≤ now then some { srv with now := now } else none
  | .set key value ttlMs now =>
    if srv.locked = false ∧ srv.now ≤ now then
      match srv.set st.numShards key value ttlMs now with
      | .ok srv' => some { srv' with now := now }
      | .error _ => some { srv with now := now }
    else none
  | .delete key now =>
    if srv.locked = false ∧ srv.now ≤ now then
      match srv.delete st.numShards key with
      | .ok srv' => some { srv' with now := now }
      | .error _ => some { srv with now := now }
    else none
  | .getShardContents shard visits finish =>
    if srv.locked = false ∧ InTime srv.now finish visits ∧
        ∀ kvShard ∈ srv.shards.lookup shard, kvShard.Iterates visits then
      some { srv with now := finish }
    else none
  | .cleanup shard clock finish =>
    (srv.shards.lookup shard).bind fun kvShard =>
      if srv.now ≤ finish ∧ ∀ key ∈ kvShard.data.keys, srv.now ≤ clock key ∧ clock key ≤ finish then
        some { srv with shards := srv.shards.insert shard (kvShard.cleanup clock), now := finish }
      else none
  | .startUpdate caller =>
    match srv.handlers caller with
    | .idle =>
      if srv.locked = false then
        let kept := { srv with shards := Expiry.eraseAll (srv.removed st) srv.shards }
        if srv.added st = [] then some kept else some (kept.setHandler caller (.copying (srv.added st) [] []))
      else none
    | _ => none
  | .addShard caller shard index =>
    match srv.handlers caller with
    | .copying todo fetches results =>
      if shard ∈ todo ∧ index < (st.nodesForShard shard).length then
        let fetch : Fetch := ⟨shard, srv.fetchOrder (st.nodesForShard shard) index⟩
        some ({ srv with shards := srv.shards.insert shard makeKvShard }.setHandler caller
          (.copying (todo.erase shard) (fetches ++ [fetch]) results))
      else none
    | _ => none
  | .fetchReply caller f answer now =>
    match srv.handlers caller with
    | .copying todo fetches results =>
      match fetches[f]? with
      | some ⟨shard, _ :: rest⟩ =>
        if srv.now ≤ now then
          match answer with
          | some values => some ({ srv with now := now }.setHandler caller
              (.copying todo (fetches.eraseIdx f) (results ++ [Result.mk shard values])))
          | none => some ({ srv with now := now }.setHandler caller
              (.copying todo (fetches.set f (Fetch.mk shard rest)) results))
        else none
      | _ => none
    | _ => none
  | .fetchGiveUp caller f =>
    match srv.handlers caller with
    | .copying todo fetches results =>
      match fetches[f]? with
      | some ⟨shard, []⟩ =>
        some (srv.setHandler caller (.copying todo (fetches.eraseIdx f) (results ++ [Result.mk shard []])))
      | _ => none
    | _ => none
  | .relock caller =>
    match srv.handlers caller with
    | .copying [] [] results =>
      if srv.locked = false then
        some (srv.setHandler caller (.installing (results.flatMap fun r => r.values.map (r.shard, ·))))
      else none
    | _ => none
  | .install caller now =>
    match srv.handlers caller with
    | .installing ((_, v) :: values) =>
      let shard := int32 (getShardForKey v.key st.numShards)
      (srv.shards.lookup shard).bind fun kvShard =>
        if srv.now ≤ now then
          some ({ srv with shards := srv.shards.insert shard (kvShard.set v.key v.value v.ttlMsRemaining now)
                           now := now }.setHandler caller (.installing values))
        else none
    | _ => none
  | .finishUpdate caller =>
    match srv.handlers caller with
    | .installing [] => some (srv.setHandler caller .idle)
    | _ => none

/-! ### The events, one by one -/

section Steps

variable {st : ShardMapState} {srv srv' : Server}

theorem shardOf_eq_ok_iff {numShards : ℤ} {key : String} {shard : ℤ} {kvShard : KvShard} :
    srv.shardOf numShards key = .ok (shard, kvShard) ↔
      shard = int32 (getShardForKey key numShards) ∧ srv.shards.lookup shard = some kvShard ∧ key ≠ "" := by
  unfold shardOf
  constructor
  · intro h
    simp only at h
    split at h
    · cases h
    · next found hfound =>
      split_ifs at h with hkey
      cases h
      exact ⟨rfl, hfound, hkey⟩
  · rintro ⟨rfl, hfound, hkey⟩
    simp [hfound, hkey]

theorem step_get_iff {key : String} {now : ℤ} : srv.step st (.get key now) = some srv' ↔
    (srv.locked = false ∧ srv.now ≤ now) ∧ srv' = { srv with now := now } := by
  simp only [step]
  split_ifs with h <;> simp [h, eq_comm (a := srv')]

theorem step_set_iff {key value : String} {ttlMs now : ℤ} : srv.step st (.set key value ttlMs now) = some srv' ↔
    (srv.locked = false ∧ srv.now ≤ now) ∧
    ((∃ e, srv.shardOf st.numShards key = .error e ∧ srv' = { srv with now := now }) ∨
      ∃ shard kvShard, srv.shardOf st.numShards key = .ok (shard, kvShard) ∧
        srv' = { srv with shards := srv.shards.insert shard (kvShard.set key value ttlMs now), now := now }) := by
  simp only [step, set]
  split_ifs with h
  · cases hs : srv.shardOf st.numShards key with
    | error e => simp [h, Except.map, eq_comm (a := srv')]
    | ok s =>
      obtain ⟨shard, kvShard⟩ := s
      simp [h, Except.map, eq_comm (a := srv')]
  · simp [h]

theorem step_delete_iff {key : String} {now : ℤ} : srv.step st (.delete key now) = some srv' ↔
    (srv.locked = false ∧ srv.now ≤ now) ∧
    ((∃ e, srv.shardOf st.numShards key = .error e ∧ srv' = { srv with now := now }) ∨
      ∃ shard kvShard, srv.shardOf st.numShards key = .ok (shard, kvShard) ∧
        srv' = { srv with shards := srv.shards.insert shard (kvShard.delete key), now := now }) := by
  simp only [step, delete]
  split_ifs with h
  · cases hs : srv.shardOf st.numShards key with
    | error e => simp [h, Except.map, eq_comm (a := srv')]
    | ok s =>
      obtain ⟨shard, kvShard⟩ := s
      simp [h, Except.map, eq_comm (a := srv')]
  · simp [h]

theorem step_getShardContents_iff {shard : ℤ} {visits : List Visit} {finish : ℤ} :
    srv.step st (.getShardContents shard visits finish) = some srv' ↔
      (srv.locked = false ∧ InTime srv.now finish visits ∧
        ∀ kvShard, srv.shards.lookup shard = some kvShard → kvShard.Iterates visits) ∧
      srv' = { srv with now := finish } := by
  simp only [step, Option.mem_def, Option.ite_none_right_eq_some, Option.some.injEq, eq_comm (a := srv')]

theorem step_cleanup_iff {shard : ℤ} {clock : String → ℤ} {finish : ℤ} :
    srv.step st (.cleanup shard clock finish) = some srv' ↔ ∃ kvShard, srv.shards.lookup shard = some kvShard ∧
      (srv.now ≤ finish ∧ ∀ key ∈ kvShard.data.keys, srv.now ≤ clock key ∧ clock key ≤ finish) ∧
      srv' = { srv with shards := srv.shards.insert shard (kvShard.cleanup clock), now := finish } := by
  simp only [step, Option.bind_eq_some_iff, Option.ite_none_right_eq_some, Option.some.injEq, eq_comm (a := srv')]

theorem step_startUpdate_iff {caller : Caller} : srv.step st (.startUpdate caller) = some srv' ↔
    srv.handlers caller = .idle ∧ srv.locked = false ∧
    srv' = { srv with
      shards := Expiry.eraseAll (srv.removed st) srv.shards
      handlers := if srv.added st = [] then srv.handlers
        else Function.update srv.handlers caller (.copying (srv.added st) [] []) } := by
  simp only [step]
  cases hh : srv.handlers caller with
  | idle =>
    split_ifs with hl ha <;> simp [hl, setHandler, eq_comm (a := srv')]
  | copying | installing => simp

theorem step_addShard_iff {caller : Caller} {shard : ℤ} {index : ℕ} :
    srv.step st (.addShard caller shard index) = some srv' ↔ ∃ todo fetches results,
      srv.handlers caller = .copying todo fetches results ∧
      (shard ∈ todo ∧ index < (st.nodesForShard shard).length) ∧
      srv' = { srv with
        shards := srv.shards.insert shard makeKvShard
        handlers := Function.update srv.handlers caller (.copying (todo.erase shard)
          (fetches ++ [⟨shard, srv.fetchOrder (st.nodesForShard shard) index⟩]) results) } := by
  simp only [step]
  cases hh : srv.handlers caller with
  | copying todo fetches results => simp [and_assoc, setHandler, eq_comm (a := srv')]
  | idle | installing => simp

theorem step_fetchReply_iff {caller : Caller} {f : ℕ} {answer : Option (List GetShardValue)} {now : ℤ} :
    srv.step st (.fetchReply caller f answer now) = some srv' ↔ ∃ todo fetches results shard node rest,
      srv.handlers caller = .copying todo fetches results ∧ fetches[f]? = some ⟨shard, node :: rest⟩ ∧
      srv.now ≤ now ∧
      srv' = { srv with
        now := now
        handlers := Function.update srv.handlers caller (match answer with
          | some values => .copying todo (fetches.eraseIdx f) (results ++ [⟨shard, values⟩])
          | none => .copying todo (fetches.set f ⟨shard, rest⟩) results) } := by
  simp only [step]
  cases hh : srv.handlers caller with
  | copying todo fetches results =>
    cases hf : fetches[f]? with
    | none => simp [hf]
    | some fetch =>
      obtain ⟨shard, rest⟩ := fetch
      cases rest with
      | nil => simp [hf]
      | cons node rest =>
        split_ifs with h
        · cases answer <;> simp [h, hf, setHandler, eq_comm (a := srv')]
        · simp [h, hf]
  | idle | installing => simp

theorem step_fetchGiveUp_iff {caller : Caller} {f : ℕ} : srv.step st (.fetchGiveUp caller f) = some srv' ↔
    ∃ todo fetches results shard, srv.handlers caller = .copying todo fetches results ∧
      fetches[f]? = some ⟨shard, []⟩ ∧
      srv' = srv.setHandler caller (.copying todo (fetches.eraseIdx f) (results ++ [⟨shard, []⟩])) := by
  simp only [step]
  cases hh : srv.handlers caller with
  | copying todo fetches results =>
    cases hf : fetches[f]? with
    | none => simp [hf]
    | some fetch =>
      obtain ⟨shard, rest⟩ := fetch
      cases rest <;> simp [hf, eq_comm (a := srv')]
  | idle | installing => simp

theorem step_relock_iff {caller : Caller} : srv.step st (.relock caller) = some srv' ↔
    ∃ results, srv.handlers caller = .copying [] [] results ∧ srv.locked = false ∧
      srv' = srv.setHandler caller (.installing (results.flatMap fun r => r.values.map (r.shard, ·))) := by
  simp only [step]
  cases hh : srv.handlers caller with
  | copying todo fetches results =>
    cases todo <;> cases fetches <;> simp [eq_comm (a := srv')]
  | idle | installing => simp

theorem step_install_iff {caller : Caller} {now : ℤ} : srv.step st (.install caller now) = some srv' ↔
    ∃ shard v values kvShard, srv.handlers caller = .installing ((shard, v) :: values) ∧
      srv.shards.lookup (int32 (getShardForKey v.key st.numShards)) = some kvShard ∧ srv.now ≤ now ∧
      srv' = { srv with
        shards := srv.shards.insert (int32 (getShardForKey v.key st.numShards))
          (kvShard.set v.key v.value v.ttlMsRemaining now)
        now := now
        handlers := Function.update srv.handlers caller (.installing values) } := by
  simp only [step]
  cases hh : srv.handlers caller with
  | installing values =>
    cases values with
    | nil => simp
    | cons sv values =>
      obtain ⟨shard, v⟩ := sv
      simp [Option.bind_eq_some_iff, setHandler, eq_comm (a := srv')]
  | idle | copying => simp

theorem step_finishUpdate_iff {caller : Caller} : srv.step st (.finishUpdate caller) = some srv' ↔
    srv.handlers caller = .installing [] ∧ srv' = srv.setHandler caller .idle := by
  simp only [step]
  cases hh : srv.handlers caller with
  | installing values => cases values <;> simp [eq_comm (a := srv')]
  | idle | copying => simp

end Steps

end Server

end Cs426.Kv
