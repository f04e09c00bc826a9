import Cs426.Lib.Machine
import Cs426.Kv.Effects

/-!
# Writes that are acknowledged while a shard is being copied

A server that gains a shard hosts it, empty, from the moment it has created its entry, and
releases its lock while it waits for the contents: requests for the shard are served before
the copy is there. This module follows one key through that time.

## The argument

From an acknowledged write on, what `Get` finds is what the write left (`Shows`), as long as
nothing else is stored under the key and the shard stays. `entry_cases` says what else could
happen to it: a later write, the removal of the shard, its creation anew, which the lock
excludes, the removal by `cleanup` when it has expired, which does not show, and the
installation of a copied value.

## What is proved

* `acknowledged_write_kept` — if no copied value of the key is installed after an
  acknowledged `Set` or `Delete`, every later `Get` answers as the write promised.
* `acknowledged_write_undone` — if one is, the write is undone: the install stores the older
  value of the snapshot over the newer one.
-/

namespace Cs426.Kv

open Cs426.Machine

namespace Server

/-- A server alone: the shard map in force and the event are the label, and the answers of
the other nodes are anything. -/
def act (srv : Server) (l : ShardMapState × Event) : Option Server := srv.step l.1 l.2

/-- The event is a `Set` or a `Delete` of `key` that is acknowledged. -/
def acks (srv : Server) (l : ShardMapState × Event) (key : String) : Bool :=
  match l.2 with
  | .set k value ttlMs now => k == key && (srv.set l.1.numShards k value ttlMs now).isOk
  | .delete k _ => k == key && (srv.delete l.1.numShards k).isOk
  | _ => false

/-- The event stores a copied value of `key`. -/
def installs (srv : Server) (l : ShardMapState × Event) (key : String) : Bool :=
  match l.2 with
  | .install caller _ =>
    match srv.handlers caller with
    | .installing ((_, v) :: _) => v.key == key
    | _ => false
  | _ => false

/-- The event is not an update that takes `shard` away. -/
def keeps (srv : Server) (l : ShardMapState × Event) (shard : ℤ) : Bool :=
  match l.2 with
  | .startUpdate _ => shard ∈ l.1.fetchShards srv.nodeName
  | _ => true

/-- From now on the server shows under `key` of `shard` what a server with `obj` there would
show. -/
def Shows (srv : Server) (shard : ℤ) (key : String) (obj : Option KvObject) : Prop :=
  srv.Hosts shard ∧ ∀ t, srv.now ≤ t → (srv.entry shard key).filter (live t) = obj.filter (live t)

variable {srv srv' : Server} {st : ShardMapState} {e : Event} {shard : ℤ} {key : String} {obj : Option KvObject}

theorem Hosts.step (hs : srv.Hosts shard) (h : srv.step st e = some srv') (hkeep : srv.keeps (st, e) shard = true) :
    srv'.Hosts shard := by
  rcases hosts_cases h shard with hiff | ⟨caller, rfl, hiff⟩ | ⟨_, _, -, hs'⟩
  · exact hiff.mpr hs
  · exact hiff.mpr ⟨hs, by simpa [keeps] using hkeep⟩
  · exact hs'

/-- **What shows goes on showing** while the shard is kept and nothing else is stored under
the key. -/
theorem Shows.step (hshow : srv.Shows shard key obj) (hw : srv.Wf) (h : srv.step st e = some srv')
    (hkeep : srv.keeps (st, e) shard = true) (hacks : srv.acks (st, e) key = false)
    (hinst : srv.installs (st, e) key = false) : srv'.Shows shard key obj := by
  obtain ⟨hhost, hshow⟩ := hshow
  refine ⟨hhost.step h hkeep, fun t ht => ?_⟩
  have hold := hshow t ((now_le_step h).trans ht)
  cases entry_cases h shard key with
  | same heq => rw [heq, hold]
  | set hs => simp [acks, Server.set, hs, Except.map, Except.isOk, Except.toBool] at hacks
  | delete hs => simp [acks, Server.delete, hs, Except.map, Except.isOk, Except.toBool] at hacks
  | install hh hkey => simp [installs, hh, hkey] at hinst
  | expire hobj hnone hdead =>
    -- what `cleanup` removed had expired, and did not show any more
    rw [hnone, ← hold, hobj, Option.filter_none, Option.filter_some, if_neg]
    intro hl
    simp [live_antitone ht hl] at hdead
  | drop hmem => simp [keeps, hmem] at hkeep
  | create hmem => exact absurd hhost ((hw.fresh _).2 shard hmem)

/-- What a write leaves under its key. -/
def written : Event → Option KvObject
  | .set _ value ttlMs now => some ⟨value, now, ttlMs⟩
  | _ => none

/-- What `Get` owes at the moment `t` to a client whose last acknowledged write it was. -/
def owed (t : ℤ) : Event → GetResponse
  | .set _ value ttlMs now => if (t - now) / 1000000 < ttlMs then ⟨value, true⟩ else ⟨"", false⟩
  | _ => ⟨"", false⟩

theorem shardOf_of_acks (h : srv.acks (st, e) key = true) : ∃ kvShard,
    srv.shardOf st.numShards key = .ok (int32 (getShardForKey key st.numShards), kvShard) := by
  have hok : (srv.shardOf st.numShards key).isOk = true := by
    cases e with
    | set k value ttlMs now =>
      simp only [acks, Bool.and_eq_true, beq_iff_eq] at h
      obtain ⟨rfl, h⟩ := h
      cases hs : srv.shardOf st.numShards k <;> simp_all [Server.set, Except.map, Except.isOk, Except.toBool]
    | delete k now =>
      simp only [acks, Bool.and_eq_true, beq_iff_eq] at h
      obtain ⟨rfl, h⟩ := h
      cases hs : srv.shardOf st.numShards k <;> simp_all [Server.delete, Except.map, Except.isOk, Except.toBool]
    | _ => simp [acks] at h
  cases hs : srv.shardOf st.numShards key with
  | error => simp [hs, Except.isOk, Except.toBool] at hok
  | ok s =>
    obtain ⟨shard, kvShard⟩ := s
    obtain ⟨rfl, -, -⟩ := shardOf_eq_ok_iff.mp hs
    exact ⟨kvShard, rfl⟩

/-- An acknowledged write shows. -/
theorem Shows.of_acks (hacks : srv.acks (st, e) key = true) (h : srv.step st e = some srv') :
    srv'.Shows (int32 (getShardForKey key st.numShards)) key (written e) := by
  obtain ⟨kvShard, hs⟩ := shardOf_of_acks hacks
  cases e with
  | set k value ttlMs now =>
    obtain rfl : k = key := by simpa [acks] using (Bool.and_eq_true_iff.mp hacks).1
    obtain ⟨-, ⟨_, herr, -⟩ | ⟨_, _, hs', rfl⟩⟩ := step_set_iff.mp h
    · simp [hs] at herr
    · obtain ⟨rfl, rfl⟩ : _ ∧ _ := by simpa using hs.symm.trans hs'
      refine ⟨(hosts_insert rfl).mpr (.inl rfl), fun t _ => ?_⟩
      rw [entry_replaced rfl, KvShard.lookup_set, if_pos rfl]
      rfl
  | delete k now =>
    obtain rfl : k = key := by simpa [acks] using (Bool.and_eq_true_iff.mp hacks).1
    obtain ⟨-, ⟨_, herr, -⟩ | ⟨_, _, hs', rfl⟩⟩ := step_delete_iff.mp h
    · simp [hs] at herr
    · obtain ⟨rfl, rfl⟩ : _ ∧ _ := by simpa using hs.symm.trans hs'
      refine ⟨(hosts_insert rfl).mpr (.inl rfl), fun t _ => ?_⟩
      rw [entry_replaced rfl, KvShard.lookup_delete, if_pos rfl]
      rfl
  | _ => simp [acks] at hacks

theorem storedTime_le_of_step (h : srv.step st e = some srv') (obj : KvObject) (hobj : written e = some obj) :
    obj.storedTime ≤ srv'.now := by
  cases e with
  | set k value ttlMs now =>
    cases hobj
    obtain ⟨-, ⟨_, -, rfl⟩ | ⟨_, _, -, rfl⟩⟩ := step_set_iff.mp h <;> exact le_rfl
  | _ => cases hobj

/-- What shows is what `Get` answers. -/
theorem Shows.get_eq {numShards t : ℤ} (hshow : srv.Shows (int32 (getShardForKey key numShards)) key obj)
    (hkey : key ≠ "") (ht : srv.now ≤ t) : srv.get numShards key t =
      .ok (match obj.filter (live t) with | none => ⟨"", false⟩ | some obj => ⟨obj.value, true⟩) := by
  obtain ⟨kvShard, hs⟩ := hosts_iff.mp hshow.1
  have hok : srv.shardOf numShards key = .ok (int32 (getShardForKey key numShards), kvShard) :=
    shardOf_eq_ok_iff.mpr ⟨rfl, hs, hkey⟩
  rw [← hshow.2 t ht, entry_of_lookup hs, Server.get, hok, Except.map, KvShard.get_eq_visible]
  rfl

theorem Shows.get_eq_owed {numShards t : ℤ} (hkey : key ≠ "") (ht : srv.now ≤ t)
    (hshow : srv.Shows (int32 (getShardForKey key numShards)) key (written e))
    (hpast : ∀ obj, written e = some obj → obj.storedTime ≤ srv.now) :
    srv.get numShards key t = .ok (owed t e) := by
  rw [hshow.get_eq hkey ht]
  cases e with
  | set k value ttlMs now =>
    have hnow : now ≤ srv.now := hpast _ rfl
    have hlive : live t ⟨value, now, ttlMs⟩ = true ↔ (t - now) / 1000000 < ttlMs := by
      rw [live_iff, milliseconds_of_nonneg (by simp only; omega)]
    by_cases hl : live t ⟨value, now, ttlMs⟩ = true
    · simp [written, owed, Option.filter_some, hl, hlive.mp hl]
    · simp [written, owed, Option.filter_some, hl, mt hlive.mpr hl]
  | _ => rfl

/-- **An acknowledged write is kept** by a run that keeps the shard and neither acknowledges
another write of the key nor installs a copied value of it: every later `Get` answers what
the write promised, whatever else the calls of `handleShardMapUpdate` and the other requests
do, and however they interleave. -/
theorem acknowledged_write_kept (nodeName : String) (t₀ : ℤ) {srv₁ srv₂ srv₃ : Server} {st : ShardMapState}
    {w : Event} {key : String} (ls₁ ls₂ : List (ShardMapState × Event))
    (h₁ : run act (makeKvServer nodeName t₀) ls₁ = some srv₁) (hacks : srv₁.acks (st, w) key = true)
    (hw : srv₁.step st w = some srv₂) (h₂ : run act srv₂ ls₂ = some srv₃)
    (hspared : Along act (fun srv l => srv.keeps l (int32 (getShardForKey key st.numShards)) = true ∧
      srv.acks l key = false ∧ srv.installs l key = false) srv₂ ls₂) :
    ∀ t, srv₃.now ≤ t → srv₃.get st.numShards key t = .ok (owed t w) := by
  intro t ht
  have hwf₁ : srv₁.Wf := run_inductive (fun _ _ _ hwf hs => hwf.step hs) (Wf.makeKvServer nodeName t₀) h₁
  have hkey : key ≠ "" := by
    obtain ⟨kvShard, hs⟩ := shardOf_of_acks hacks
    exact (shardOf_eq_ok_iff.mp hs).2.2
  -- carried along the run: the server is well formed, the write shows, and it lies in the past
  obtain ⟨-, hshow, hpast⟩ := run_invariant
    (I := fun srv => srv.Wf ∧ srv.Shows (int32 (getShardForKey key st.numShards)) key (written w) ∧
      ∀ obj, written w = some obj → obj.storedTime ≤ srv.now)
    (fun srv l srv' ⟨hwf, hshow, hpast⟩ ⟨hkeep, hno, hinst⟩ hs => ⟨hwf.step hs,
      hshow.step hwf hs hkeep hno hinst, fun obj hobj => (hpast obj hobj).trans (now_le_step hs)⟩)
    hspared ⟨hwf₁.step hw, Shows.of_acks hacks hw, storedTime_le_of_step hw⟩ h₂
  exact hshow.get_eq_owed hkey ht hpast

/-! ### A run with a copy -/

/-- Both nodes host the only shard. -/
def bothNodes : ShardMapState := .oneShard ["n1", "n2"] ["n1", "n2"]

/-- Node `n1` learns that it hosts the shard, creates it, and starts to fetch it from `n2`. -/
def beginCopy : List (ShardMapState × Event) :=
  [(bothNodes, .startUpdate .shardMapListenLoop), (bothNodes, .addShard .shardMapListenLoop 1 0)]

/-- The snapshot of `n2`, with one value, arrives and is installed. -/
def endCopy (key value : String) : List (ShardMapState × Event) :=
  [(bothNodes, .fetchReply .shardMapListenLoop 0 (some [⟨key, value, 500⟩]) 6),
   (bothNodes, .relock .shardMapListenLoop), (bothNodes, .install .shardMapListenLoop 7),
   (bothNodes, .finishUpdate .shardMapListenLoop)]

/-- The server `n1` while it waits for the snapshot. -/
def awaiting : Server := (run act (makeKvServer "n1" 0) beginCopy).get (by decide +kernel)

/-- The copy brings another key: the `Set` is kept. -/
theorem acknowledged_write_kept_otherKey :
    ∃ srv₂ srv₃, awaiting.step bothNodes (.set "k" "new" 1000 5) = some srv₂ ∧
      run act srv₂ (endCopy "j" "old") = some srv₃ ∧ srv₃.get 1 "k" 8 = .ok ⟨"new", true⟩ := by
  refine ⟨(awaiting.step bothNodes (.set "k" "new" 1000 5)).get (by decide +kernel), _, (Option.some_get _).symm,
    run_eq_some_get _ (by decide +kernel), ?_⟩
  exact acknowledged_write_kept "n1" 0 beginCopy (endCopy "j" "old") (run_eq_some_get _ (by decide +kernel))
    (by decide +kernel) (Option.some_get _).symm (run_eq_some_get _ (by decide +kernel)) (by decide +kernel) 8
    (by decide +kernel)

/-- The write `w` is acknowledged while `n1` waits for a snapshot with an older value of the
key; no other write of the key follows and the shard stays, but in the end `Get` finds that
older value. -/
def UndoneByCopy (w : Event) : Prop :=
  ∃ srv₂ srv₃ : Server,
    run act (makeKvServer "n1" 0) beginCopy = some awaiting ∧ awaiting.acks (bothNodes, w) "k" = true ∧
    awaiting.step bothNodes w = some srv₂ ∧ run act srv₂ (endCopy "k" "old") = some srv₃ ∧
    Along act (fun srv l => srv.keeps l (int32 (getShardForKey "k" 1)) = true ∧ srv.acks l "k" = false) srv₂
      (endCopy "k" "old") ∧
    srv₃.now ≤ 8 ∧ srv₃.get 1 "k" 8 = .ok ⟨"old", true⟩ ∧ owed 8 w ≠ ⟨"old", true⟩

/-- **A copy undoes an acknowledged write**: a `Set` that `n1` acknowledges while it waits for
the snapshot is overwritten by the older value of the snapshot, and the key of an
acknowledged `Delete` comes back. -/
theorem acknowledged_write_undone :
    UndoneByCopy (.set "k" "new" 1000 5) ∧ UndoneByCopy (.delete "k" 5) := by
  constructor <;>
    exact ⟨_, _, run_eq_some_get _ _, by decide +kernel, (Option.some_get (by decide +kernel)).symm,
      run_eq_some_get _ (by decide +kernel), by decide +kernel, by decide +kernel, by decide +kernel, by decide +kernel⟩

end Server

end Cs426.Kv
