import Mathlib.Data.List.Rotate
import Cs426.Kv.Server

/-!
# What one event changes

The events of a server seen through what it stores and what it is copying: the object under
a key of a shard (`entry`), the shards it hosts (`Hosts`), and, for each running call of
`handleShardMapUpdate`, the shards it has yet to create, its goroutines, and the copied
values it has yet to install. Every invariant of servers and clusters is derived from the
case lemmas of this module.

## What is proved

* `entry_cases`, `hosts_cases`, `handler_cases` — everything an event can do to an entry, to
  the set of hosted shards, and to a running call.
* `Wf.step` — the lock of the server does its work: at most one call holds it, and what a
  call is about to create is not there yet.
-/

namespace Cs426.Kv

namespace Handler

/-- The added shards whose entries have yet to be created. -/
def todo : Handler → List ℤ
  | copying todo _ _ => todo
  | _ => []

/-- The goroutines still asking. -/
def fetches : Handler → List Fetch
  | copying _ fetches _ => fetches
  | _ => []

/-- The copied values that have yet to be installed, each with the shard it was requested
for. -/
def values : Handler → List (ℤ × GetShardValue)
  | idle => []
  | copying _ _ results => results.flatMap fun r => r.values.map (r.shard, ·)
  | installing values => values

theorem holdsLock_of_mem_todo {h : Handler} {shard : ℤ} (hmem : shard ∈ h.todo) : h.holdsLock = true := by
  cases h with
  | copying todo fetches results =>
    have : todo ≠ [] := List.ne_nil_of_mem hmem
    simp [holdsLock, this]
  | idle | installing => simp [todo] at hmem

end Handler

namespace Server

variable {st : ShardMapState} {srv srv' : Server} {e : Event}

/-- The object under a key of a shard, expired or not. -/
def entry (srv : Server) (shard : ℤ) (key : String) : Option KvObject :=
  (srv.shards.lookup shard).bind fun kvShard => kvShard.data.lookup key

def Hosts (srv : Server) (shard : ℤ) : Prop := shard ∈ srv.shards

instance (srv : Server) (shard : ℤ) : Decidable (srv.Hosts shard) :=
  inferInstanceAs (Decidable (shard ∈ srv.shards))

theorem hosts_iff {shard : ℤ} : srv.Hosts shard ↔ ∃ kvShard, srv.shards.lookup shard = some kvShard := by
  rw [Hosts, ← AList.lookup_isSome, Option.isSome_iff_exists]

theorem hosts_of_entry {shard : ℤ} {key : String} {obj : KvObject} (h : srv.entry shard key = some obj) :
    srv.Hosts shard := by
  obtain ⟨kvShard, hs, -⟩ := Option.bind_eq_some_iff.mp h
  exact hosts_iff.mpr ⟨kvShard, hs⟩

theorem entry_of_lookup {shard : ℤ} {kvShard : KvShard} (h : srv.shards.lookup shard = some kvShard) (key : String) :
    srv.entry shard key = kvShard.data.lookup key := by
  rw [entry, h, Option.bind_some]

/-- What `GetShardContents` lists, the server stores. -/
theorem entry_of_mem_contents {shard : ℤ} {visits : List Visit} {values : List GetShardValue}
    (h : srv.getShardContents shard visits = .ok values) {v : GetShardValue} (hv : v ∈ values) :
    ∃ w ∈ visits, ∃ obj, srv.entry shard w.key = some obj ∧
      v = ⟨w.key, obj.value, obj.ttlMs - milliseconds (w.readAt - obj.storedTime)⟩ := by
  unfold getShardContents at h
  cases hs : srv.shards.lookup shard with
  | none => simp [hs] at h
  | some kvShard =>
    rw [hs, Except.ok.injEq] at h
    subst h
    obtain ⟨w, hw, hlisted⟩ := KvShard.mem_contents_iff.mp hv
    obtain ⟨obj, hobj, -, rfl⟩ := KvShard.listed_eq_some_iff.mp hlisted
    exact ⟨w, hw, obj, (entry_of_lookup hs _).trans hobj, rfl⟩

/-- The object under a key after the shard `shard` has been replaced. -/
theorem entry_insert {shards : AList fun _ : ℤ => KvShard} {shard s : ℤ} {kvShard : KvShard} {key : String} :
    ((shards.insert shard kvShard).lookup s).bind (fun kvShard => kvShard.data.lookup key) =
      if s = shard then kvShard.data.lookup key
      else (shards.lookup s).bind fun kvShard => kvShard.data.lookup key := by
  by_cases hs : s = shard
  · subst hs
    simp
  · simp [hs]

theorem mem_added {shard : ℤ} : shard ∈ srv.added st ↔ shard ∈ st.fetchShards srv.nodeName ∧ ¬ srv.Hosts shard := by
  simp [added, Hosts, AList.mem_keys]

theorem lookup_kept {shard : ℤ} : (Expiry.eraseAll (srv.removed st) srv.shards).lookup shard =
    if shard ∈ st.fetchShards srv.nodeName then srv.shards.lookup shard else none := by
  rw [Expiry.lookup_eraseAll]
  by_cases hmem : shard ∈ st.fetchShards srv.nodeName
  · rw [if_pos hmem, if_neg (by simp [removed, hmem])]
  · rw [if_neg hmem]
    by_cases hk : shard ∈ srv.shards.keys
    · rw [if_pos (by simp [removed, hmem, hk])]
    · rw [if_neg (by simp [removed, hk]), AList.lookup_eq_none.mpr hk]

/-! ### Names and clocks -/

theorem nodeName_step (h : srv.step st e = some srv') : srv'.nodeName = srv.nodeName := by
  cases e with
  | get => obtain ⟨-, rfl⟩ := step_get_iff.mp h; rfl
  | set => obtain ⟨-, ⟨_, -, rfl⟩ | ⟨_, _, -, rfl⟩⟩ := step_set_iff.mp h <;> rfl
  | delete => obtain ⟨-, ⟨_, -, rfl⟩ | ⟨_, _, -, rfl⟩⟩ := step_delete_iff.mp h <;> rfl
  | getShardContents => obtain ⟨-, rfl⟩ := step_getShardContents_iff.mp h; rfl
  | cleanup => obtain ⟨_, -, -, rfl⟩ := step_cleanup_iff.mp h; rfl
  | startUpdate => obtain ⟨-, -, rfl⟩ := step_startUpdate_iff.mp h; rfl
  | addShard => obtain ⟨_, _, _, -, -, rfl⟩ := step_addShard_iff.mp h; rfl
  | fetchReply => obtain ⟨_, _, _, _, _, _, -, -, -, rfl⟩ := step_fetchReply_iff.mp h; rfl
  | fetchGiveUp => obtain ⟨_, _, _, _, -, -, rfl⟩ := step_fetchGiveUp_iff.mp h; rfl
  | relock => obtain ⟨_, -, -, rfl⟩ := step_relock_iff.mp h; rfl
  | install => obtain ⟨_, _, _, _, -, -, -, rfl⟩ := step_install_iff.mp h; rfl
  | finishUpdate => obtain ⟨-, rfl⟩ := step_finishUpdate_iff.mp h; rfl

/-- The clock does not go back. -/
theorem now_le_step (h : srv.step st e = some srv') : srv.now ≤ srv'.now := by
  cases e with
  | get => obtain ⟨⟨-, hnow⟩, rfl⟩ := step_get_iff.mp h; exact hnow
  | set => obtain ⟨⟨-, hnow⟩, ⟨_, -, rfl⟩ | ⟨_, _, -, rfl⟩⟩ := step_set_iff.mp h <;> exact hnow
  | delete => obtain ⟨⟨-, hnow⟩, ⟨_, -, rfl⟩ | ⟨_, _, -, rfl⟩⟩ := step_delete_iff.mp h <;> exact hnow
  | getShardContents =>
    obtain ⟨⟨-, hin, -⟩, rfl⟩ := step_getShardContents_iff.mp h
    exact hin.start_le_finish
  | cleanup => obtain ⟨_, -, ⟨hnow, -⟩, rfl⟩ := step_cleanup_iff.mp h; exact hnow
  | startUpdate => obtain ⟨-, -, rfl⟩ := step_startUpdate_iff.mp h; exact le_rfl
  | addShard => obtain ⟨_, _, _, -, -, rfl⟩ := step_addShard_iff.mp h; exact le_rfl
  | fetchReply => obtain ⟨_, _, _, _, _, _, -, -, hnow, rfl⟩ := step_fetchReply_iff.mp h; exact hnow
  | fetchGiveUp => obtain ⟨_, _, _, _, -, -, rfl⟩ := step_fetchGiveUp_iff.mp h; exact le_rfl
  | relock => obtain ⟨_, -, -, rfl⟩ := step_relock_iff.mp h; exact le_rfl
  | install => obtain ⟨_, _, _, _, -, -, hnow, rfl⟩ := step_install_iff.mp h; exact hnow
  | finishUpdate => obtain ⟨-, rfl⟩ := step_finishUpdate_iff.mp h; exact le_rfl

/-! ### Stored objects -/

/-- What an event can do to the object under `key` of `shard`. -/
inductive EntryChange (st : ShardMapState) (srv srv' : Server) (shard : ℤ) (key : String) : Event → Prop
  | same {e : Event} : srv'.entry shard key = srv.entry shard key → EntryChange st srv srv' shard key e
  | set {value : String} {ttlMs now : ℤ} {kvShard : KvShard} :
      srv.shardOf st.numShards key = .ok (shard, kvShard) → srv'.entry shard key = some ⟨value, now, ttlMs⟩ →
      srv'.now = now → EntryChange st srv srv' shard key (.set key value ttlMs now)
  | delete {now : ℤ} {kvShard : KvShard} : srv.shardOf st.numShards key = .ok (shard, kvShard) →
      srv'.entry shard key = none → EntryChange st srv srv' shard key (.delete key now)
  | install {caller : Caller} {now s : ℤ} {v : GetShardValue} {values : List (ℤ × GetShardValue)} :
      srv.handlers caller = .installing ((s, v) :: values) → v.key = key →
      shard = int32 (getShardForKey key st.numShards) →
      srv'.entry shard key = some ⟨v.value, now, v.ttlMsRemaining⟩ → srv'.now = now →
      EntryChange st srv srv' shard key (.install caller now)
  | expire {clock : String → ℤ} {finish : ℤ} {obj : KvObject} : srv.entry shard key = some obj →
      srv'.entry shard key = none → live srv'.now obj = false →
      EntryChange st srv srv' shard key (.cleanup shard clock finish)
  | drop {caller : Caller} : shard ∉ st.fetchShards srv.nodeName → srv'.entry shard key = none →
      EntryChange st srv srv' shard key (.startUpdate caller)
  | create {caller : Caller} {index : ℕ} : shard ∈ (srv.handlers caller).todo → srv'.entry shard key = none →
      EntryChange st srv srv' shard key (.addShard caller shard index)

/-- One hosted shard is replaced by one that differs at one key: what becomes of an entry. -/
theorem entry_replace {s : ℤ} {kvShard kvShard' : KvShard} (hs : srv.shards.lookup s = some kvShard)
    (hs' : srv'.shards = srv.shards.insert s kvShard') {shard : ℤ} {key : String}
    (hsame : shard = s → kvShard'.data.lookup key = kvShard.data.lookup key) :
    srv'.entry shard key = srv.entry shard key := by
  rw [entry, hs', entry_insert]
  split_ifs with h
  · subst h
    rw [hsame rfl, entry_of_lookup hs]
  · rfl

theorem entry_replaced {s : ℤ} {kvShard' : KvShard} (hs' : srv'.shards = srv.shards.insert s kvShard')
    (key : String) : srv'.entry s key = kvShard'.data.lookup key := by
  rw [entry, hs', entry_insert, if_pos rfl]

/-- **What an event can do to a stored object.** -/
theorem entry_cases (h : srv.step st e = some srv') (shard : ℤ) (key : String) :
    EntryChange st srv srv' shard key e := by
  cases e with
  | get =>
    obtain ⟨-, rfl⟩ := step_get_iff.mp h
    exact .same rfl
  | getShardContents =>
    obtain ⟨-, rfl⟩ := step_getShardContents_iff.mp h
    exact .same rfl
  | set k value ttlMs now =>
    obtain ⟨-, ⟨_, -, rfl⟩ | ⟨s, kvShard, hs, rfl⟩⟩ := step_set_iff.mp h
    · exact .same rfl
    · by_cases hk : shard = s ∧ key = k
      · obtain ⟨rfl, rfl⟩ := hk
        exact .set hs ((entry_replaced rfl key).trans (by simp [KvShard.lookup_set])) rfl
      · refine .same (entry_replace (shardOf_eq_ok_iff.mp hs).2.1 rfl fun hsh => ?_)
        rw [KvShard.lookup_set, if_neg fun hkey => hk ⟨hsh, hkey⟩]
  | delete k now =>
    obtain ⟨-, ⟨_, -, rfl⟩ | ⟨s, kvShard, hs, rfl⟩⟩ := step_delete_iff.mp h
    · exact .same rfl
    · by_cases hk : shard = s ∧ key = k
      · obtain ⟨rfl, rfl⟩ := hk
        exact .delete hs ((entry_replaced rfl key).trans (by simp [KvShard.lookup_delete]))
      · refine .same (entry_replace (shardOf_eq_ok_iff.mp hs).2.1 rfl fun hsh => ?_)
        rw [KvShard.lookup_delete, if_neg fun hkey => hk ⟨hsh, hkey⟩]
  | cleanup s clock finish =>
    obtain ⟨kvShard, hs, ⟨-, hclock⟩, hsrv'⟩ := step_cleanup_iff.mp h
    have hshards : srv'.shards = srv.shards.insert s (kvShard.cleanup clock) := by rw [hsrv']
    by_cases hsh : shard = s
    · subst hsh
      have hcleaned := (entry_replaced hshards key).trans (KvShard.lookup_cleanup kvShard clock key)
      cases hobj : kvShard.data.lookup key with
      | none => exact .same (by rw [hcleaned, entry_of_lookup hs, hobj, Option.filter_none])
      | some obj =>
        rw [hobj] at hcleaned
        cases hl : live (clock key) obj with
        | true => exact .same (by rw [hcleaned, entry_of_lookup hs, hobj, Option.filter_some, if_pos hl])
        | false =>
          have hle := (hclock key (AList.mem_keys.mp (AList.lookup_isSome.mp (by simp [hobj])))).2
          refine .expire ((entry_of_lookup hs key).trans hobj) (by rw [hcleaned, Option.filter_some, hl]; rfl) ?_
          by_contra hl'
          rw [hsrv', Bool.not_eq_false] at hl'
          simp [live_antitone hle hl'] at hl
    · exact .same (entry_replace hs hshards fun h => absurd h hsh)
  | startUpdate caller =>
    obtain ⟨-, -, rfl⟩ := step_startUpdate_iff.mp h
    by_cases hmem : shard ∈ st.fetchShards srv.nodeName
    · refine .same ?_
      simp only [entry, lookup_kept, if_pos hmem]
    · refine .drop hmem ?_
      simp only [entry, lookup_kept, if_neg hmem, Option.bind_none]
  | addShard caller s index =>
    obtain ⟨todo, fetches, results, hh, ⟨htodo, -⟩, rfl⟩ := step_addShard_iff.mp h
    by_cases hsh : shard = s
    · subst hsh
      exact .create (by rw [hh]; exact htodo) (by simp [entry, makeKvShard])
    · refine .same ?_
      simp only [entry, entry_insert, if_neg hsh]
  | fetchReply =>
    obtain ⟨_, _, _, _, _, _, -, -, -, rfl⟩ := step_fetchReply_iff.mp h
    exact .same rfl
  | fetchGiveUp =>
    obtain ⟨_, _, _, _, -, -, rfl⟩ := step_fetchGiveUp_iff.mp h
    exact .same rfl
  | relock =>
    obtain ⟨_, -, -, rfl⟩ := step_relock_iff.mp h
    exact .same rfl
  | install caller now =>
    obtain ⟨s, v, values, kvShard, hh, hs, -, rfl⟩ := step_install_iff.mp h
    by_cases hk : shard = int32 (getShardForKey v.key st.numShards) ∧ key = v.key
    · obtain ⟨rfl, rfl⟩ := hk
      exact .install hh rfl rfl ((entry_replaced rfl v.key).trans (by simp [KvShard.lookup_set])) rfl
    · refine .same (entry_replace hs rfl fun hsh => ?_)
      rw [KvShard.lookup_set, if_neg fun hkey => hk ⟨hsh, hkey⟩]
  | finishUpdate =>
    obtain ⟨-, rfl⟩ := step_finishUpdate_iff.mp h
    exact .same rfl

/-! ### Hosted shards -/

theorem hosts_insert {s shard : ℤ} {kvShard : KvShard} (hs' : srv'.shards = srv.shards.insert s kvShard) :
    srv'.Hosts shard ↔ shard = s ∨ srv.Hosts shard := by
  rw [Hosts, hs', AList.mem_insert, Hosts]

theorem hosts_replace {s shard : ℤ} {kvShard kvShard' : KvShard} (hs : srv.shards.lookup s = some kvShard)
    (hs' : srv'.shards = srv.shards.insert s kvShard') : srv'.Hosts shard ↔ srv.Hosts shard := by
  rw [hosts_insert hs']
  refine ⟨?_, Or.inr⟩
  rintro (rfl | h)
  · exact hosts_iff.mpr ⟨kvShard, hs⟩
  · exact h

/-- **What an event can do to the set of hosted shards.** -/
theorem hosts_cases (h : srv.step st e = some srv') (shard : ℤ) :
    (srv'.Hosts shard ↔ srv.Hosts shard) ∨
    (∃ caller, e = .startUpdate caller ∧
      (srv'.Hosts shard ↔ srv.Hosts shard ∧ shard ∈ st.fetchShards srv.nodeName)) ∨
    ∃ caller index, e = .addShard caller shard index ∧ srv'.Hosts shard := by
  cases e with
  | get =>
    obtain ⟨-, rfl⟩ := step_get_iff.mp h
    exact .inl Iff.rfl
  | getShardContents =>
    obtain ⟨-, rfl⟩ := step_getShardContents_iff.mp h
    exact .inl Iff.rfl
  | set =>
    obtain ⟨-, ⟨_, -, rfl⟩ | ⟨_, _, hs, rfl⟩⟩ := step_set_iff.mp h
    · exact .inl Iff.rfl
    · exact .inl (hosts_replace (shardOf_eq_ok_iff.mp hs).2.1 rfl)
  | delete =>
    obtain ⟨-, ⟨_, -, rfl⟩ | ⟨_, _, hs, rfl⟩⟩ := step_delete_iff.mp h
    · exact .inl Iff.rfl
    · exact .inl (hosts_replace (shardOf_eq_ok_iff.mp hs).2.1 rfl)
  | cleanup =>
    obtain ⟨_, hs, -, rfl⟩ := step_cleanup_iff.mp h
    exact .inl (hosts_replace hs rfl)
  | startUpdate caller =>
    obtain ⟨-, -, rfl⟩ := step_startUpdate_iff.mp h
    refine .inr (.inl ⟨caller, rfl, ?_⟩)
    simp only [hosts_iff, lookup_kept]
    split_ifs with hmem <;> simp [hmem]
  | addShard caller s index =>
    obtain ⟨_, _, _, -, -, rfl⟩ := step_addShard_iff.mp h
    by_cases hsh : shard = s
    · subst hsh
      exact .inr (.inr ⟨caller, index, rfl, (hosts_insert rfl).mpr (.inl rfl)⟩)
    · refine .inl ((hosts_insert rfl).trans ?_)
      simp [hsh]
  | fetchReply =>
    obtain ⟨_, _, _, _, _, _, -, -, -, rfl⟩ := step_fetchReply_iff.mp h
    exact .inl Iff.rfl
  | fetchGiveUp =>
    obtain ⟨_, _, _, _, -, -, rfl⟩ := step_fetchGiveUp_iff.mp h
    exact .inl Iff.rfl
  | relock =>
    obtain ⟨_, -, -, rfl⟩ := step_relock_iff.mp h
    exact .inl Iff.rfl
  | install =>
    obtain ⟨_, _, _, _, -, hs, -, rfl⟩ := step_install_iff.mp h
    exact .inl (hosts_replace hs rfl)
  | finishUpdate =>
    obtain ⟨-, rfl⟩ := step_finishUpdate_iff.mp h
    exact .inl Iff.rfl

/-! ### Running calls -/

/-- What an event can do to the call `c` of `handleShardMapUpdate`. -/
inductive HandlerChange (st : ShardMapState) (srv srv' : Server) (c : Caller) : Event → Prop
  | same {e : Event} : srv'.handlers c = srv.handlers c → HandlerChange st srv srv' c e
  | start : srv.handlers c = .idle → srv.locked = false → srv'.handlers c = .copying (srv.added st) [] [] →
      HandlerChange st srv srv' c (.startUpdate c)
  | add {shard : ℤ} {index : ℕ} {todo : List ℤ} {fetches : List Fetch} {results : List Result} :
      srv.handlers c = .copying todo fetches results → shard ∈ todo →
      srv'.handlers c = .copying (todo.erase shard)
        (fetches ++ [⟨shard, srv.fetchOrder (st.nodesForShard shard) index⟩]) results →
      HandlerChange st srv srv' c (.addShard c shard index)
  | reply {f : ℕ} {vs : List GetShardValue} {now shard : ℤ} {node : String} {rest : List String} {todo : List ℤ}
      {fetches : List Fetch} {results : List Result} :
      srv.handlers c = .copying todo fetches results → fetches[f]? = some ⟨shard, node :: rest⟩ →
      srv'.handlers c = .copying todo (fetches.eraseIdx f) (results ++ [⟨shard, vs⟩]) → srv'.now = now →
      HandlerChange st srv srv' c (.fetchReply c f (some vs) now)
  | refuse {f : ℕ} {now shard : ℤ} {node : String} {rest : List String} {todo : List ℤ}
      {fetches : List Fetch} {results : List Result} :
      srv.handlers c = .copying todo fetches results → fetches[f]? = some ⟨shard, node :: rest⟩ →
      srv'.handlers c = .copying todo (fetches.set f ⟨shard, rest⟩) results → srv'.now = now →
      HandlerChange st srv srv' c (.fetchReply c f none now)
  | giveUp {f : ℕ} {shard : ℤ} {todo : List ℤ} {fetches : List Fetch} {results : List Result} :
      srv.handlers c = .copying todo fetches results → fetches[f]? = some ⟨shard, []⟩ →
      srv'.handlers c = .copying todo (fetches.eraseIdx f) (results ++ [⟨shard, []⟩]) →
      HandlerChange st srv srv' c (.fetchGiveUp c f)
  | relock {results : List Result} : srv.handlers c = .copying [] [] results → srv.locked = false →
      srv'.handlers c = .installing (results.flatMap fun r => r.values.map (r.shard, ·)) →
      HandlerChange st srv srv' c (.relock c)
  | install {now : ℤ} {sv : ℤ × GetShardValue} {values : List (ℤ × GetShardValue)} :
      srv.handlers c = .installing (sv :: values) → srv'.handlers c = .installing values →
      HandlerChange st srv srv' c (.install c now)
  | finish : srv.handlers c = .installing [] → srv'.handlers c = .idle →
      HandlerChange st srv srv' c (.finishUpdate c)

/-- **What an event can do to a running call.** -/
theorem handler_cases (h : srv.step st e = some srv') (c : Caller) : HandlerChange st srv srv' c e := by
  -- an event of another call leaves this one alone
  have other : ∀ {caller : Caller} {handler : Handler}, caller ≠ c →
      srv'.handlers = Function.update srv.handlers caller handler → HandlerChange st srv srv' c e := by
    intro caller handler hne hupd
    exact .same (by rw [hupd, Function.update_of_ne hne.symm])
  cases e with
  | get =>
    obtain ⟨-, rfl⟩ := step_get_iff.mp h
    exact .same rfl
  | getShardContents =>
    obtain ⟨-, rfl⟩ := step_getShardContents_iff.mp h
    exact .same rfl
  | set => obtain ⟨-, ⟨_, -, rfl⟩ | ⟨_, _, -, rfl⟩⟩ := step_set_iff.mp h <;> exact .same rfl
  | delete => obtain ⟨-, ⟨_, -, rfl⟩ | ⟨_, _, -, rfl⟩⟩ := step_delete_iff.mp h <;> exact .same rfl
  | cleanup =>
    obtain ⟨_, -, -, rfl⟩ := step_cleanup_iff.mp h
    exact .same rfl
  | startUpdate caller =>
    obtain ⟨hh, hl, rfl⟩ := step_startUpdate_iff.mp h
    by_cases ha : srv.added st = []
    · exact .same (by simp only [if_pos ha])
    · by_cases hc : caller = c
      · subst hc
        exact .start hh hl (by simp [ha])
      · exact other hc (by simp only [if_neg ha]; rfl)
  | addShard caller =>
    obtain ⟨_, _, _, hh, ⟨hmem, -⟩, rfl⟩ := step_addShard_iff.mp h
    by_cases hc : caller = c
    · subst hc
      exact .add hh hmem (by simp)
    · exact other hc rfl
  | fetchReply caller f answer =>
    obtain ⟨_, _, _, _, _, _, hh, hf, -, rfl⟩ := step_fetchReply_iff.mp h
    by_cases hc : caller = c
    · subst hc
      cases answer with
      | none => exact .refuse hh hf (by simp) rfl
      | some values => exact .reply hh hf (by simp) rfl
    · exact other hc rfl
  | fetchGiveUp caller =>
    obtain ⟨_, _, _, _, hh, hf, rfl⟩ := step_fetchGiveUp_iff.mp h
    by_cases hc : caller = c
    · subst hc
      exact .giveUp hh hf (by simp [setHandler])
    · exact other hc rfl
  | relock caller =>
    obtain ⟨_, hh, hl, rfl⟩ := step_relock_iff.mp h
    by_cases hc : caller = c
    · subst hc
      exact .relock hh hl (by simp [setHandler])
    · exact other hc rfl
  | install caller =>
    obtain ⟨_, _, _, _, hh, -, -, rfl⟩ := step_install_iff.mp h
    by_cases hc : caller = c
    · subst hc
      exact .install hh (by simp)
    · exact other hc rfl
  | finishUpdate caller =>
    obtain ⟨hh, rfl⟩ := step_finishUpdate_iff.mp h
    by_cases hc : caller = c
    · subst hc
      exact .finish hh (by simp [setHandler])
    · exact other hc rfl

/-- Some goroutine is fetching the shard and has yet to ask the nodes `rest`. -/
def Fetching (srv : Server) (shard : ℤ) (rest : List String) : Prop :=
  ∃ c, ⟨shard, rest⟩ ∈ (srv.handlers c).fetches

/-- Some copied value requested for the shard has yet to be installed. -/
def Pending (srv : Server) (shard : ℤ) (v : GetShardValue) : Prop :=
  ∃ c, (shard, v) ∈ (srv.handlers c).values

section Calls

variable {shard : ℤ} {v : GetShardValue} {rest : List String}

/-- Where a value to be installed comes from. -/
theorem pending_cases (h : srv.step st e = some srv') (hp : srv'.Pending shard v) : srv.Pending shard v ∨
    ∃ c f vs node rest, e = .fetchReply c f (some vs) srv'.now ∧
      (srv.handlers c).fetches[f]? = some ⟨shard, node :: rest⟩ ∧ v ∈ vs := by
  obtain ⟨c, hv⟩ := hp
  cases handler_cases h c with
  | same hh => exact .inl ⟨c, hh ▸ hv⟩
  | start _ _ hh' | finish _ hh' => simp [hh', Handler.values] at hv
  | add hh _ hh' | refuse hh _ hh' | relock hh _ hh' =>
    rw [hh'] at hv
    exact .inl ⟨c, hh ▸ hv⟩
  | install hh hh' =>
    rw [hh'] at hv
    exact .inl ⟨c, hh ▸ List.mem_cons_of_mem _ hv⟩
  | giveUp hh _ hh' =>
    rw [hh'] at hv
    refine .inl ⟨c, ?_⟩
    simpa [hh, Handler.values] using hv
  | @reply f vs now s node rest _ _ results hh hf hh' hnow =>
    rw [hh', Handler.values, List.flatMap_append, List.mem_append] at hv
    rcases hv with hv | hv
    · exact .inl ⟨c, hh ▸ hv⟩
    · simp only [List.flatMap_cons, List.flatMap_nil, List.append_nil, List.mem_map, Prod.mk.injEq] at hv
      obtain ⟨_, hmem, rfl, rfl⟩ := hv
      exact .inr ⟨c, f, vs, node, rest, by rw [hnow], by rw [hh]; exact hf, hmem⟩

/-- What becomes of a value to be installed. -/
theorem pending_step (h : srv.step st e = some srv') (hp : srv.Pending shard v) : srv'.Pending shard v ∨
    ∃ c now values, e = .install c now ∧ srv.handlers c = .installing ((shard, v) :: values) := by
  obtain ⟨c, hv⟩ := hp
  cases handler_cases h c with
  | same hh => exact .inl ⟨c, hh ▸ hv⟩
  | start hh | finish hh => simp [hh, Handler.values] at hv
  | add hh _ hh' | refuse hh _ hh' | relock hh _ hh' =>
    rw [hh] at hv
    exact .inl ⟨c, hh' ▸ hv⟩
  | reply hh _ hh' | giveUp hh _ hh' =>
    rw [hh] at hv
    refine .inl ⟨c, ?_⟩
    rw [hh', Handler.values, List.flatMap_append]
    exact List.mem_append_left _ hv
  | @install now sv values hh hh' =>
    rw [hh, Handler.values] at hv
    rcases List.mem_cons.mp hv with rfl | hv
    · exact .inr ⟨c, now, values, rfl, hh⟩
    · exact .inl ⟨c, hh' ▸ hv⟩

/-- Where a goroutine comes from. -/
theorem fetching_cases (h : srv.step st e = some srv') (hf : srv'.Fetching shard rest) : srv.Fetching shard rest ∨
    (∃ node, srv.Fetching shard (node :: rest)) ∨
    ∃ c index, e = .addShard c shard index ∧ shard ∈ (srv.handlers c).todo ∧
      rest = srv.fetchOrder (st.nodesForShard shard) index := by
  obtain ⟨c, hf⟩ := hf
  cases handler_cases h c with
  | same hh => exact .inl ⟨c, hh ▸ hf⟩
  | start _ _ hh' | finish _ hh' | relock _ _ hh' | install _ hh' => simp [hh', Handler.fetches] at hf
  | @add s index _ _ _ hh hmem hh' =>
    rw [hh', Handler.fetches, List.mem_append] at hf
    rcases hf with hf | hf
    · exact .inl ⟨c, hh ▸ hf⟩
    · obtain ⟨rfl, rfl⟩ : shard = s ∧ rest = _ := by simpa using hf
      exact .inr (.inr ⟨c, index, rfl, by rw [hh]; exact hmem, rfl⟩)
  | reply hh _ hh' | giveUp hh _ hh' =>
    rw [hh'] at hf
    exact .inl ⟨c, hh ▸ List.mem_of_mem_eraseIdx hf⟩
  | @refuse f _ s node _ _ _ _ hh hf' hh' =>
    rw [hh'] at hf
    rcases List.mem_or_eq_of_mem_set hf with hf | hf
    · exact .inl ⟨c, hh ▸ hf⟩
    · cases hf
      exact .inr (.inl ⟨node, c, hh ▸ List.mem_of_getElem? hf'⟩)

/-- What becomes of a goroutine. -/
theorem fetching_step (h : srv.step st e = some srv') (hf : srv.Fetching shard rest) : srv'.Fetching shard rest ∨
    rest = [] ∨ ∃ c f answer, e = .fetchReply c f answer srv'.now ∧
      (srv.handlers c).fetches[f]? = some ⟨shard, rest⟩ := by
  obtain ⟨c, hf⟩ := hf
  cases handler_cases h c with
  | same hh => exact .inl ⟨c, hh ▸ hf⟩
  | start hh | finish hh | relock hh | install hh => simp [hh, Handler.fetches] at hf
  | add hh _ hh' =>
    rw [hh] at hf
    exact .inl ⟨c, hh' ▸ List.mem_append_left _ hf⟩
  | @reply f vs now s node _ _ fetches _ hh hf' hh' hnow =>
    rw [hh] at hf
    obtain ⟨i, hi⟩ := List.mem_iff_getElem?.mp hf
    by_cases hif : i = f
    · subst hif
      exact .inr (.inr ⟨c, i, some vs, by rw [hnow], by rw [hh]; exact hi⟩)
    · exact .inl ⟨c, hh' ▸ List.mem_eraseIdx_iff_getElem?.mpr ⟨i, hif, hi⟩⟩
  | @giveUp f s _ fetches _ hh hf' hh' =>
    rw [hh] at hf
    obtain ⟨i, hi⟩ := List.mem_iff_getElem?.mp hf
    by_cases hif : i = f
    · subst hif
      change fetches[i]? = _ at hi
      rw [hf'] at hi
      cases hi
      exact .inr (.inl rfl)
    · exact .inl ⟨c, hh' ▸ List.mem_eraseIdx_iff_getElem?.mpr ⟨i, hif, hi⟩⟩
  | @refuse f now s node rest' _ fetches _ hh hf' hh' hnow =>
    rw [hh] at hf
    obtain ⟨i, hi⟩ := List.mem_iff_getElem?.mp hf
    by_cases hif : i = f
    · subst hif
      exact .inr (.inr ⟨c, i, none, by rw [hnow], by rw [hh]; exact hi⟩)
    · refine .inl ⟨c, hh' ▸ List.mem_iff_getElem?.mpr ⟨i, ?_⟩⟩
      exact (List.getElem?_set_ne (Ne.symm hif)).trans hi

/-- An installed value is stored where its key hashes to. -/
theorem entry_of_install {c : Caller} {now : ℤ} {values : List (ℤ × GetShardValue)}
    (h : srv.step st (.install c now) = some srv') (hh : srv.handlers c = .installing ((shard, v) :: values)) :
    srv'.entry (int32 (getShardForKey v.key st.numShards)) v.key = some ⟨v.value, now, v.ttlMsRemaining⟩ := by
  obtain ⟨_, w, _, kvShard, hh', -, -, rfl⟩ := step_install_iff.mp h
  rw [hh, Handler.installing.injEq, List.cons.injEq, Prod.mk.injEq] at hh'
  obtain ⟨⟨-, rfl⟩, -⟩ := hh'
  rw [entry_replaced rfl, KvShard.lookup_set, if_pos rfl]

/-- A reply with values: they wait to be installed. -/
theorem pending_of_reply {c : Caller} {f : ℕ} {vs : List GetShardValue} {now : ℤ}
    (h : srv.step st (.fetchReply c f (some vs) now) = some srv')
    (hf : (srv.handlers c).fetches[f]? = some ⟨shard, rest⟩) (hv : v ∈ vs) : srv'.Pending shard v := by
  obtain ⟨todo, fetches, results, s, node, rest', hh, hf', -, rfl⟩ := step_fetchReply_iff.mp h
  rw [hh, Handler.fetches, hf', Option.some.injEq, Fetch.mk.injEq] at hf
  obtain ⟨rfl, rfl⟩ := hf
  refine ⟨c, ?_⟩
  simp [Handler.values, hv]

/-- A failed call: the goroutine goes on to the next node. -/
theorem fetching_of_refusal {c : Caller} {f : ℕ} {now : ℤ} {node : String}
    (h : srv.step st (.fetchReply c f none now) = some srv')
    (hf : (srv.handlers c).fetches[f]? = some ⟨shard, node :: rest⟩) : srv'.Fetching shard rest := by
  obtain ⟨todo, fetches, results, s, node', rest', hh, hf', -, rfl⟩ := step_fetchReply_iff.mp h
  rw [hh, Handler.fetches, hf', Option.some.injEq, Fetch.mk.injEq, List.cons.injEq] at hf
  obtain ⟨rfl, rfl, rfl⟩ := hf
  have hlt : f < fetches.length := (List.getElem?_eq_some_iff.mp hf').1
  refine ⟨c, ?_⟩
  simp only [Function.update_self, Handler.fetches]
  exact List.mem_set hlt _

/-- A new shard is fetched from all nodes the map lists for it, the server itself left out. -/
theorem fetching_of_add {c : Caller} {index : ℕ} (h : srv.step st (.addShard c shard index) = some srv') :
    srv'.Fetching shard (srv.fetchOrder (st.nodesForShard shard) index) := by
  obtain ⟨todo, fetches, results, hh, -, rfl⟩ := step_addShard_iff.mp h
  exact ⟨c, by simp [Handler.fetches]⟩

theorem mem_fetchOrder {nodes : List String} {index : ℕ} {node : String} :
    node ∈ srv.fetchOrder nodes index ↔ node ∈ nodes ∧ node ≠ srv.nodeName := by
  simp [fetchOrder]

end Calls

/-! ### The lock -/

/-- What holds of every server: stored objects were stored in the past, at most one call
holds the lock, and the shards a call is about to create are distinct and not there. -/
structure Wf (srv : Server) : Prop where
  stored : ∀ shard key obj, srv.entry shard key = some obj → obj.storedTime ≤ srv.now
  exclusive : ∀ c c', (srv.handlers c).holdsLock = true → (srv.handlers c').holdsLock = true → c = c'
  fresh : ∀ c, (srv.handlers c).todo.Nodup ∧ ∀ shard ∈ (srv.handlers c).todo, ¬ srv.Hosts shard

theorem locked_iff : srv.locked = true ↔ ∃ c, (srv.handlers c).holdsLock = true := by
  rw [locked, Bool.or_eq_true]
  constructor
  · rintro (h | h)
    exacts [⟨_, h⟩, ⟨_, h⟩]
  · rintro ⟨c, h⟩
    cases c
    exacts [.inl h, .inr h]

/-- A call comes to hold the lock only when it is free, and then no other call moves. -/
theorem holdsLock_cases (h : srv.step st e = some srv') {c : Caller} (hc : (srv'.handlers c).holdsLock = true) :
    (srv.handlers c).holdsLock = true ∨
      srv.locked = false ∧ ∀ c', c' ≠ c → srv'.handlers c' = srv.handlers c' := by
  cases handler_cases h c with
  | same hh => exact .inl (hh ▸ hc)
  | start _ hl _ =>
    refine .inr ⟨hl, fun c' hne => ?_⟩
    cases handler_cases h c' with
    | same hh' => exact hh'
    | start => exact absurd rfl hne
  | relock _ hl _ =>
    refine .inr ⟨hl, fun c' hne => ?_⟩
    cases handler_cases h c' with
    | same hh' => exact hh'
    | relock => exact absurd rfl hne
  | add hh hmem _ => exact .inl (Handler.holdsLock_of_mem_todo (by rw [hh]; exact hmem))
  | reply hh _ hh' | refuse hh _ hh' | giveUp hh _ hh' =>
    rw [hh'] at hc
    exact .inl (hh ▸ hc)
  | install hh => exact .inl (by rw [hh]; rfl)
  | finish _ hh' => simp [hh', Handler.holdsLock] at hc

/-- Where a shard to be created comes from. -/
theorem todo_cases (h : srv.step st e = some srv') {c : Caller} {shard : ℤ}
    (hs : shard ∈ (srv'.handlers c).todo) : shard ∈ (srv.handlers c).todo ∨ shard ∈ srv.added st := by
  cases handler_cases h c with
  | same hh => exact .inl (hh ▸ hs)
  | start _ _ hh' => exact .inr (by rwa [hh'] at hs)
  | add hh _ hh' =>
    rw [hh'] at hs
    exact .inl (hh ▸ List.mem_of_mem_erase hs)
  | reply hh _ hh' | refuse hh _ hh' | giveUp hh _ hh' =>
    rw [hh'] at hs
    exact .inl (hh ▸ hs)
  | relock _ _ hh' | install _ hh' | finish _ hh' => simp [hh', Handler.todo] at hs

namespace Wf

theorem makeKvServer (nodeName : String) (now : ℤ) : (makeKvServer nodeName now).Wf where
  stored := by simp [entry, Kv.makeKvServer]
  exclusive := by simp [Kv.makeKvServer, Handler.holdsLock]
  fresh := by simp [Kv.makeKvServer, Handler.todo]

theorem todo_nodup (hw : srv.Wf) (h : srv.step st e = some srv') (c : Caller) : (srv'.handlers c).todo.Nodup := by
  have hnodup := (hw.fresh c).1
  cases handler_cases h c with
  | same hh => exact hh ▸ hnodup
  | start _ _ hh' =>
    rw [hh']
    exact (List.nodup_dedup _).filter _
  | add hh _ hh' =>
    rw [hh] at hnodup
    rw [hh']
    exact List.Nodup.erase _ hnodup
  | reply hh _ hh' | refuse hh _ hh' | giveUp hh _ hh' =>
    rw [hh] at hnodup
    exact hh' ▸ hnodup
  | relock _ _ hh' | install _ hh' | finish _ hh' => simp [hh', Handler.todo]

/-- A shard that some call is about to create is not there after the event either: only
the call that holds the lock creates shards, and each of them once. -/
theorem todo_unhosted (hw : srv.Wf) (h : srv.step st e = some srv') {c : Caller} {shard : ℤ}
    (hs : shard ∈ (srv'.handlers c).todo) : ¬ srv'.Hosts shard := by
  have hnew : ¬ srv.Hosts shard := by
    rcases todo_cases h hs with hs | hs
    · exact (hw.fresh c).2 shard hs
    · exact (mem_added.mp hs).2
  intro hhost
  rcases hosts_cases h shard with hiff | ⟨_, -, hiff⟩ | ⟨c', index, rfl, -⟩
  · exact hnew (hiff.mp hhost)
  · exact hnew (hiff.mp hhost).1
  · obtain ⟨todo, fetches, results, hh, ⟨hmem, -⟩, rfl⟩ := step_addShard_iff.mp h
    have hmem' : shard ∈ (srv.handlers c').todo := by
      rw [hh]
      exact hmem
    by_cases hc : c = c'
    · subst hc
      have hnodup := (hw.fresh c).1
      rw [hh] at hnodup
      simp only [Function.update_self, Handler.todo] at hs
      exact hnodup.not_mem_erase hs
    · simp only [Function.update_of_ne hc] at hs
      exact hc (hw.exclusive c c' (Handler.holdsLock_of_mem_todo hs) (Handler.holdsLock_of_mem_todo hmem'))

theorem stored_step (hw : srv.Wf) (h : srv.step st e = some srv') {shard : ℤ} {key : String} {obj : KvObject}
    (hobj : srv'.entry shard key = some obj) : obj.storedTime ≤ srv'.now := by
  cases entry_cases h shard key with
  | same heq => exact (hw.stored shard key obj (heq ▸ hobj)).trans (now_le_step h)
  | set _ hnew hnow | install _ _ _ hnew hnow =>
    rw [hnew, Option.some.injEq] at hobj
    subst hobj
    exact hnow.ge
  | delete _ hnone | drop _ hnone | create _ hnone | expire _ hnone => simp [hnone] at hobj

/-- **Every event keeps a server well formed.** -/
theorem step (hw : srv.Wf) (h : srv.step st e = some srv') : srv'.Wf where
  stored := fun _ _ _ hobj => hw.stored_step h hobj
  exclusive := by
    intro c c' hc hc'
    -- whoever has just taken the lock found it free
    have key : ∀ {c c' : Caller}, srv.locked = false → (∀ d, d ≠ c → srv'.handlers d = srv.handlers d) →
        (srv'.handlers c').holdsLock = true → c = c' := by
      intro c c' hl hsame hc'
      by_contra hne
      rw [hsame c' (Ne.symm hne)] at hc'
      simp [locked_iff.mpr ⟨c', hc'⟩] at hl
    rcases holdsLock_cases h hc with hold | ⟨hl, hsame⟩
    · rcases holdsLock_cases h hc' with hold' | ⟨hl', hsame'⟩
      · exact hw.exclusive c c' hold hold'
      · exact (key hl' hsame' hc).symm
    · exact key hl hsame hc'
  fresh := fun c => ⟨hw.todo_nodup h c, fun _ hs => hw.todo_unhosted h hs⟩

end Wf

end Server

end Cs426.Kv
