import Cs426.Kv.Shard

/-!
# The shard is a map with expiry times

The operations of one shard, in any order and at non-decreasing moments, against the map
they are meant to maintain: under each key the last value set and not deleted since, for as
long as its TTL lasts. `cleanup` is not an operation of that map.

## The model

A `Request` says what is called and when: at one moment, or in an interval for the two
loops over the map. `Serves` is what one call may answer and leave behind. It leaves open
what Go leaves open: the order in which the map is visited and, within the interval, the
clock readings. `Runs` is a sequence of calls with all the answers it gives.

## The argument

The stored map and the intended one look the same from the present moment on (`Refines`).
`cleanup` keeps it so because what it removes has expired, and expired objects stay so. Two
stored maps that look the same from now on (`AgreeFrom`) can give the same answers: the one
call that also depends on what cannot be seen is the loop of `GetShardContents`, which may
come across expired objects that `cleanup` has removed from the other map; it lists none of
them, wherever in the loop they come (`transfer`).

## What is proved

* `shard_refines_expiring_map` — `Get` and `GetShardContents` read the intended map, and
  the answers to a sequence of calls do not depend on the `cleanup` calls among them.
-/

namespace Cs426.Kv

open Cs426.Expiry

/-- A call on a shard. -/
inductive Request where
  | set (key value : String) (ttlMs now : ℤ)
  | delete (key : String) (now : ℤ)
  | get (key : String) (now : ℤ)
  | getShardContents (start finish : ℤ)
  | cleanup (start finish : ℤ)

/-- What a call answers. -/
inductive Response where
  | done
  | object (obj : Option KvObject)
  | values (values : List GetShardValue)

namespace Request

def start : Request → ℤ
  | set _ _ _ now | delete _ now | get _ now => now
  | getShardContents start _ | cleanup start _ => start

def finish : Request → ℤ
  | set _ _ _ now | delete _ now | get _ now => now
  | getShardContents _ finish | cleanup _ finish => finish

def isCleanup : Request → Bool
  | cleanup _ _ => true
  | _ => false

/-- The call is a `Set` or a `Delete` of `k`. -/
def writes (k : String) : Request → Bool
  | set key _ _ _ => key == k
  | delete key _ => key == k
  | _ => false

end Request

/-- The calls are made one after the other, from the moment `t` to the moment `t'`. -/
def Chronological : ℤ → List Request → ℤ → Prop
  | t, [], t' => t ≤ t'
  | t, r :: rs, t' => t ≤ r.start ∧ r.start ≤ r.finish ∧ Chronological r.finish rs t'

/-- One call: what it may answer, and the shard it leaves. -/
def Serves (shard : KvShard) : Request → List Response → KvShard → Prop
  | .set key value ttlMs now, rs, shard' => rs = [.done] ∧ shard' = shard.set key value ttlMs now
  | .delete key _, rs, shard' => rs = [.done] ∧ shard' = shard.delete key
  | .get key now, rs, shard' => rs = [.object (shard.get key now)] ∧ shard' = shard
  | .getShardContents start finish, rs, shard' =>
    shard' = shard ∧ ∃ visits, shard.Iterates visits ∧ InTime start finish visits ∧
      rs = [.values (shard.contents visits)]
  | .cleanup start finish, rs, shard' =>
    rs = [] ∧ ∃ clock : String → ℤ, (∀ key ∈ shard.data, start ≤ clock key ∧ clock key ≤ finish) ∧
      shard' = shard.cleanup clock

/-- A sequence of calls with all its answers. -/
inductive Runs : KvShard → List Request → List Response → KvShard → Prop
  | nil {shard : KvShard} : Runs shard [] [] shard
  | cons {shard shard' shard'' : KvShard} {r : Request} {reqs : List Request} {rs rs' : List Response} :
      Serves shard r rs shard' → Runs shard' reqs rs' shard'' → Runs shard (r :: reqs) (rs ++ rs') shard''

/-! ### The intended map -/

/-- The last call that wrote `k`. -/
def lastWrite (k : String) (reqs : List Request) : Option Request :=
  (reqs.filter (Request.writes k)).getLast?

/-- What the map is meant to hold under a key whose last write is given. -/
def intended : Option Request → Option KvObject
  | some (.set _ value ttlMs now) => some ⟨value, now, ttlMs⟩
  | _ => none

theorem lastWrite_concat (k : String) (reqs : List Request) (r : Request) :
    lastWrite k (reqs ++ [r]) = if r.writes k then some r else lastWrite k reqs := by
  unfold lastWrite
  rw [List.filter_append]
  cases hr : r.writes k <;> simp [hr]

theorem lastWrite_eq_some {k : String} {reqs : List Request} {r : Request} (h : lastWrite k reqs = some r) :
    r ∈ reqs ∧ r.writes k = true :=
  List.mem_filter.mp (List.mem_of_getLast? h)

theorem Chronological.le_finish {t t' : ℤ} {reqs : List Request} (h : Chronological t reqs t') : t ≤ t' := by
  induction reqs generalizing t with
  | nil => exact h
  | cons r reqs ih =>
    have := ih h.2.2
    have := h.1
    have := h.2.1
    omega

theorem Chronological.mem {t t' : ℤ} {reqs : List Request} (h : Chronological t reqs t') {r : Request}
    (hr : r ∈ reqs) : r.finish ≤ t' := by
  induction reqs generalizing t with
  | nil => simp at hr
  | cons q reqs ih =>
    rcases List.mem_cons.mp hr with rfl | hr
    · exact h.2.2.le_finish
    · exact ih h.2.2 hr

/-- From the moment `t` on, the shard looks like the map the calls `reqs` were to build. -/
def Refines (t : ℤ) (shard : KvShard) (reqs : List Request) : Prop :=
  ∀ t', t ≤ t' → ∀ k, visible live t' shard.data k = (intended (lastWrite k reqs)).filter (live t')

namespace Refines

variable {t : ℤ} {shard shard' : KvShard} {reqs : List Request} {r : Request} {rs : List Response}

theorem mono {t' : ℤ} (h : Refines t shard reqs) (htt' : t ≤ t') : Refines t' shard reqs :=
  fun _ ht => h _ (htt'.trans ht)

/-- A call that writes nothing and changes nothing a reader sees. -/
theorem unwritten (h : Refines t shard reqs) (hr : ∀ k, r.writes k = false)
    (hagree : AgreeFrom live t shard.data shard'.data) : Refines t shard' (reqs ++ [r]) := by
  intro t' ht k
  rw [← hagree ht k, h t' ht k, lastWrite_concat, hr k]
  rfl

theorem init : Refines t makeKvShard [] :=
  fun _ _ _ => rfl

/-- **One call keeps the shard in step with the map.** -/
theorem step (h : Refines t shard reqs) (hstart : t ≤ r.start) (hfin : r.start ≤ r.finish)
    (hs : Serves shard r rs shard') : Refines r.finish shard' (reqs ++ [r]) := by
  have h' := h.mono (hstart.trans hfin)
  cases r with
  | set key value ttlMs now =>
    obtain ⟨-, rfl⟩ := hs
    intro t' ht k
    rw [KvShard.set, visible_insert, h' t' ht k, lastWrite_concat]
    by_cases hk : k = key
    · simp [hk, Request.writes, intended]
    · simp [hk, Ne.symm hk, Request.writes]
  | delete key now =>
    obtain ⟨-, rfl⟩ := hs
    intro t' ht k
    rw [KvShard.delete, visible_erase, h' t' ht k, lastWrite_concat]
    by_cases hk : k = key
    · simp [hk, Request.writes, intended]
    · simp [hk, Ne.symm hk, Request.writes]
  | get key now =>
    obtain ⟨-, rfl⟩ := hs
    exact h'.unwritten (fun _ => rfl) (AgreeFrom.refl _ _)
  | getShardContents start finish =>
    obtain ⟨rfl, -⟩ := hs
    exact h'.unwritten (fun _ => rfl) (AgreeFrom.refl _ _)
  | cleanup start finish =>
    obtain ⟨-, clock, hclock, rfl⟩ := hs
    exact h'.unwritten (fun _ => rfl) (KvShard.agreeFrom_cleanup fun k hk => (hclock k hk).2)

/-- A whole run does. -/
theorem of_runs {past : List Request} {t t' : ℤ} (hruns : Runs shard reqs rs shard') :
    Refines t shard past → Chronological t reqs t' → Refines t' shard' (past ++ reqs) := by
  induction hruns generalizing past t with
  | nil =>
    intro h hc
    rw [List.append_nil]
    exact h.mono hc
  | cons hs _ ih =>
    intro h hc
    rw [List.append_cons]
    exact ih (h.step hc.1 hc.2.1 hs) hc.2.2

/-- What `Get` finds, in terms of the last write. -/
theorem get_value_iff {t' : ℤ} (h : Refines t shard reqs) (hreqs : ∀ r ∈ reqs, r.finish ≤ t) (ht : t ≤ t')
    (k v : String) : (∃ obj, shard.get k t' = some obj ∧ obj.value = v) ↔
      ∃ ttlMs t₀, lastWrite k reqs = some (.set k v ttlMs t₀) ∧ (t' - t₀) / 1000000 < ttlMs := by
  rw [KvShard.get_eq_visible, h t' ht k]
  cases hw : lastWrite k reqs with
  | none => simp [intended]
  | some r =>
    obtain ⟨hr, hk⟩ := lastWrite_eq_some hw
    cases r with
    | set key value ttlMs now =>
      have hnow : now ≤ t := hreqs _ hr
      have hkey : key = k := by simpa [Request.writes] using hk
      subst hkey
      have hlive : live t' ⟨value, now, ttlMs⟩ = true ↔ (t' - now) / 1000000 < ttlMs := by
        rw [live_iff, milliseconds_of_nonneg (by simp only; omega)]
      simp only [intended, Option.filter_eq_some_iff, Option.some.injEq, Request.set.injEq, true_and]
      constructor
      · rintro ⟨_, ⟨rfl, hl⟩, rfl⟩
        exact ⟨ttlMs, now, ⟨rfl, rfl, rfl⟩, hlive.mp hl⟩
      · rintro ⟨_, _, ⟨rfl, rfl, rfl⟩, hl⟩
        exact ⟨_, ⟨rfl, hlive.mpr hl⟩, rfl⟩
    | delete | get | getShardContents | cleanup => simp [intended]

end Refines

/-! ### `cleanup` is unobservable -/

/-- The visits of a loop over one map, turned into visits of a loop over a map that looks
the same: keys the other map does not have are passed over, and the keys only the other map
has come last. -/
def transfer (shard : KvShard) (finish : ℤ) (visits : List Visit) : List Visit :=
  (visits.filter fun v => v.key ∈ shard.data.keys) ++
    (shard.data.keys.filter fun k => k ∉ visits.map Visit.key).map fun k => ⟨k, finish, finish⟩

section Transfer

variable {t start finish : ℤ} {shard₁ shard₂ : KvShard} {visits : List Visit}

theorem transfer_iterates (h : shard₁.Iterates visits) (shard₂ : KvShard) (finish : ℤ) :
    shard₂.Iterates (transfer shard₂ finish visits) := by
  have hnodup : (visits.map Visit.key).Nodup := h.nodup_iff.mpr shard₁.data.keys_nodup
  have hkeys : (transfer shard₂ finish visits).map Visit.key =
      (visits.map Visit.key).filter (· ∈ shard₂.data.keys) ++
        shard₂.data.keys.filter fun k => k ∉ visits.map Visit.key := by
    simp [transfer, List.filter_map, Function.comp_def]
  unfold KvShard.Iterates
  rw [hkeys, List.perm_ext_iff_of_nodup _ shard₂.data.keys_nodup]
  · intro k
    rw [List.mem_append, List.mem_filter, List.mem_filter]
    by_cases hk : k ∈ visits.map Visit.key <;> simp [hk]
  · refine List.nodup_append.mpr ⟨hnodup.filter _, shard₂.data.keys_nodup.filter _, ?_⟩
    intro k hk k' hk' hkk'
    subst hkk'
    have hvisited := (List.mem_filter.mp hk).1
    have hunvisited := (List.mem_filter.mp hk').2
    simp only [decide_eq_true_eq] at hunvisited
    exact hunvisited hvisited

theorem transfer_contents (hagree : AgreeFrom live t shard₁.data shard₂.data) (ht : t ≤ start)
    (h : shard₁.Iterates visits) (hin : InTime start finish visits) :
    shard₂.contents (transfer shard₂ finish visits) = shard₁.contents visits := by
  have hlisted : ∀ v : Visit, t ≤ v.testedAt → shard₂.listed v = shard₁.listed v := by
    intro v hv
    rw [KvShard.listed_eq_map_get, KvShard.listed_eq_map_get, KvShard.get_eq_visible, KvShard.get_eq_visible,
      hagree hv]
  have hnone : ∀ (shard : KvShard) (v : Visit), v.key ∉ shard.data.keys → shard.listed v = none := by
    intro shard v hv
    rw [KvShard.listed, AList.lookup_eq_none.mpr hv, Option.bind_none]
  unfold KvShard.contents transfer
  rw [List.filterMap_append, List.filterMap_map, List.filterMap_filter]
  have hlast : (shard₂.data.keys.filter fun k => k ∉ visits.map Visit.key).filterMap
      (shard₂.listed ∘ fun k => ⟨k, finish, finish⟩) = [] := by
    -- the keys only the second map has are expired, or the first one would show them
    refine List.filterMap_eq_nil_iff.mpr fun k hk => ?_
    have hk := (List.mem_filter.mp hk).2
    rw [decide_eq_true_eq, h.mem_iff] at hk
    exact (hlisted _ (ht.trans hin.start_le_finish)).trans (hnone shard₁ _ hk)
  rw [hlast, List.append_nil]
  refine List.filterMap_congr fun v hv => ?_
  rw [← hlisted v (ht.trans (hin.mem hv).1)]
  by_cases hk : v.key ∈ shard₂.data.keys
  · simp [hk]
  · simp [hk, hnone shard₂ v hk]

end Transfer

section Unobservable

variable {t t' : ℤ} {shard₁ shard₂ shard₁' : KvShard} {r : Request} {reqs : List Request} {rs : List Response}

/-- A call other than `cleanup` can be answered alike by a shard that looks the same. -/
theorem Serves.transfer (hagree : AgreeFrom live t shard₁.data shard₂.data) (ht : t ≤ r.start)
    (hfin : r.start ≤ r.finish) (hr : r.isCleanup = false) (hs : Serves shard₁ r rs shard₁') :
    ∃ shard₂', Serves shard₂ r rs shard₂' ∧ AgreeFrom live r.finish shard₁'.data shard₂'.data := by
  have hagree' := hagree.mono (ht.trans hfin)
  cases r with
  | set key value ttlMs now =>
    obtain ⟨rfl, rfl⟩ := hs
    exact ⟨_, ⟨rfl, rfl⟩, hagree'.insert key _⟩
  | delete key now =>
    obtain ⟨rfl, rfl⟩ := hs
    exact ⟨_, ⟨rfl, rfl⟩, hagree'.erase key⟩
  | get key now =>
    obtain ⟨rfl, rfl⟩ := hs
    refine ⟨shard₂, ⟨?_, rfl⟩, hagree'⟩
    have hseen : visible live now shard₁'.data key = visible live now shard₂.data key := hagree ht key
    rw [KvShard.get_eq_visible, KvShard.get_eq_visible, hseen]
  | getShardContents start finish =>
    obtain ⟨rfl, visits, hit, hin, rfl⟩ := hs
    refine ⟨shard₂, ⟨rfl, Kv.transfer shard₂ finish visits, transfer_iterates hit shard₂ finish, ?_, ?_⟩, hagree'⟩
    · exact (hin.filter _).append_finish _
    · rw [transfer_contents hagree ht hit hin]
  | cleanup start finish => cases hr

/-- What a run answers it can answer without its `cleanup` calls. -/
theorem Runs.remove_cleanup (hruns : Runs shard₁ reqs rs shard₁') :
    ∀ {shard₂ : KvShard} {t : ℤ}, AgreeFrom live t shard₁.data shard₂.data → Chronological t reqs t' →
      ∃ shard₂', Runs shard₂ (reqs.filter fun r => !r.isCleanup) rs shard₂' := by
  induction hruns with
  | nil => exact fun _ _ => ⟨_, .nil⟩
  | @cons shard₁ shard₁' _ r reqs _ _ hs _ ih =>
    intro shard₂ t hagree ⟨ht, hfin, hc⟩
    cases hr : r.isCleanup with
    | false =>
      obtain ⟨shard₂', hs', hagree'⟩ := hs.transfer hagree ht hfin hr
      obtain ⟨shard₂'', hruns⟩ := ih hagree' hc
      rw [List.filter_cons_of_pos (by simp [hr])]
      exact ⟨shard₂'', .cons hs' hruns⟩
    | true =>
      cases r with
      | cleanup start finish =>
        obtain ⟨rfl, clock, hclock, rfl⟩ := hs
        have hclean := KvShard.agreeFrom_cleanup fun k hk => (hclock k hk).2
        rw [List.filter_cons_of_neg (by simp [hr])]
        exact ih (hclean.symm.trans (hagree.mono (ht.trans hfin))) hc
      | set | delete | get | getShardContents => cases hr

/-- What a run answers it can answer with any number of `cleanup` calls in it. -/
theorem Runs.insert_cleanup (reqs : List Request) {shard₂' : KvShard} :
    ∀ {shard₁ shard₂ : KvShard} {rs : List Response} {t : ℤ}, AgreeFrom live t shard₂.data shard₁.data →
      Chronological t reqs t' → Runs shard₂ (reqs.filter fun r => !r.isCleanup) rs shard₂' →
      ∃ shard₁', Runs shard₁ reqs rs shard₁' := by
  induction reqs with
  | nil =>
    intro shard₁ shard₂ rs t _ _ hruns
    cases hruns
    exact ⟨shard₁, .nil⟩
  | cons r reqs ih =>
    intro shard₁ shard₂ rs t hagree ⟨ht, hfin, hc⟩ hruns
    cases hr : r.isCleanup with
    | false =>
      rw [List.filter_cons_of_pos (by simp [hr])] at hruns
      obtain _ | ⟨hs, hruns⟩ := hruns
      obtain ⟨shard₁', hs', hagree'⟩ := hs.transfer hagree ht hfin hr
      obtain ⟨shard₁'', hruns'⟩ := ih hagree' hc hruns
      exact ⟨shard₁'', .cons hs' hruns'⟩
    | true =>
      rw [List.filter_cons_of_neg (by simp [hr])] at hruns
      cases r with
      | cleanup start finish =>
        -- any reading of the clock will do: here every object is tested at the end
        have hclean : AgreeFrom live finish shard₁.data (shard₁.cleanup fun _ => finish).data :=
          KvShard.agreeFrom_cleanup fun _ _ => le_rfl
        obtain ⟨shard₁', hruns'⟩ := ih ((hagree.mono (ht.trans hfin)).trans hclean) hc hruns
        have hs : Serves shard₁ (.cleanup start finish) [] (shard₁.cleanup fun _ => finish) :=
          ⟨rfl, _, fun _ _ => ⟨hfin, le_rfl⟩, rfl⟩
        exact ⟨shard₁', .cons hs hruns'⟩
      | set | delete | get | getShardContents => cases hr

end Unobservable

/-- **The shard refines a map with expiry times, and `cleanup` is unobservable.** After any
calls at non-decreasing moments: `Get` of `k` at `t` finds the value `v` exactly if the last
write of `k` was a `Set` to `v` whose TTL, in whole milliseconds, has not passed; a loop of
`GetShardContents` lists a key, once and with its value, exactly if `Get` would find it when
the loop tests it; and any calls that are the same but for `cleanup` can be answered the
same. -/
theorem shard_refines_expiring_map {reqs : List Request} {rs : List Response} {shard : KvShard} {t₀ t₁ : ℤ}
    (hc : Chronological t₀ reqs t₁) (hruns : Runs makeKvShard reqs rs shard) :
    (∀ (k v : String) (t : ℤ), t₁ ≤ t → ((∃ obj, shard.get k t = some obj ∧ obj.value = v) ↔
      ∃ ttlMs t', lastWrite k reqs = some (.set k v ttlMs t') ∧ (t - t') / 1000000 < ttlMs)) ∧
    (∀ (start finish : ℤ) (visits : List Visit), t₁ ≤ start → shard.Iterates visits → InTime start finish visits →
      ((shard.contents visits).map GetShardValue.key).Nodup ∧
      (∀ v ∈ visits, ∀ value, (∃ gv ∈ shard.contents visits, gv.key = v.key ∧ gv.value = value) ↔
        ∃ obj, shard.get v.key v.testedAt = some obj ∧ obj.value = value) ∧
      ∀ k, (∀ v ∈ visits, v.key ≠ k) → (∀ gv ∈ shard.contents visits, gv.key ≠ k) ∧ ∀ t, shard.get k t = none) ∧
    ∀ (reqs' : List Request) (t₀' t₁' : ℤ), Chronological t₀' reqs' t₁' →
      reqs'.filter (fun r => !r.isCleanup) = reqs.filter (fun r => !r.isCleanup) →
      ∃ shard', Runs makeKvShard reqs' rs shard' := by
  have hrefines := Refines.of_runs hruns Refines.init hc
  refine ⟨fun k v t ht => ?_, fun start finish visits _ hit _ => ⟨?_, fun v hv value => ?_, fun k hk => ?_⟩,
    fun reqs' t₀' t₁' hc' hsame => ?_⟩
  · exact hrefines.get_value_iff (fun r hr => hc.mem hr) ht k v
  · exact KvShard.contents_keys_nodup hit
  · exact KvShard.mem_contents_key_iff hit hv value
  · have hkey : k ∉ shard.data.keys := by
      rw [← hit.mem_iff]
      simpa using hk
    refine ⟨fun gv hgv => ?_, fun t => by rw [KvShard.get, AList.lookup_eq_none.mpr hkey]⟩
    obtain ⟨v, hv, hlisted⟩ := KvShard.mem_contents_iff.mp hgv
    rw [KvShard.listed_key hlisted]
    exact hk v hv
  · obtain ⟨shard', hruns'⟩ := hruns.remove_cleanup (AgreeFrom.refl _ _) hc
    rw [← hsame] at hruns'
    exact hruns'.insert_cleanup reqs' (AgreeFrom.refl _ _) hc'

/-- An object set for 5 ms is found after 4 ms, a `cleanup` and the `Delete` of another key
in between. -/
theorem shard_refines_expiring_map_cleaned :
    ∃ rs shard obj, Runs makeKvShard [.set "k" "v" 5 0, .cleanup 1000000 2000000, .delete "j" 2000000] rs shard ∧
      shard.get "k" 4000000 = some obj ∧ obj.value = "v" := by
  have hruns : Runs makeKvShard [.set "k" "v" 5 0, .cleanup 1000000 2000000, .delete "j" 2000000]
      ([.done] ++ ([] ++ ([.done] ++ []))) (((makeKvShard.set "k" "v" 5 0).cleanup fun _ => 1000000).delete "j") :=
    .cons ⟨rfl, rfl⟩ (.cons ⟨rfl, _, fun _ _ => by decide, rfl⟩ (.cons ⟨rfl, rfl⟩ .nil))
  have hc : Chronological 0 [.set "k" "v" 5 0, .cleanup 1000000 2000000, .delete "j" 2000000] 3000000 := by
    simp [Chronological, Request.start, Request.finish]
  obtain ⟨obj, hobj, hv⟩ := ((shard_refines_expiring_map hc hruns).1 "k" "v" 4000000 (by decide)).mpr
    ⟨5, 0, by simp [lastWrite, Request.writes], by decide⟩
  exact ⟨_, _, obj, hruns, hobj, hv⟩

end Cs426.Kv
