import Mathlib.Data.Int.Order.Basic
import Cs426.Lib.Expiry

/-!
# One shard of a key-value server

`kvObject`, `kvShard` and `hasExpired` of `lab4/kv/server.go`.

## The model

A moment is an integer number of nanoseconds. Go's monotonic clock readings are 64-bit
nanosecond counts, so the difference of two of them does not overflow, and `time.Since` is a
subtraction. Each operation takes the clock readings it makes as arguments: `Set` and `Get`
make one, `cleanup` one for each object it looks at, and the loop of `GetShardContents` one
to test an object and a second one for `TtlMsRemaining`. A Go map is a finite map
(`AList`); the order in which a `range` loop visits it is an argument too.

`cleanup` runs in a goroutine of its own (`ttlMonitor`) and takes only the shard's lock,
and `Data` hands the map out after releasing that lock; here each of the two loops is one
step. `Shutdown` only stops `ttlMonitor`.

## What is proved

* `get_eq_visible` — `Get` sees exactly the live objects.
* `agreeFrom_cleanup` — `cleanup` removes nothing a later reader could see.
* `live_copy` — an object copied to another node lives at least as long as the original.
-/

namespace Cs426.Kv

open Cs426.Expiry

/-- `Duration.Milliseconds`: whole milliseconds, truncated towards zero. -/
def milliseconds (d : ℤ) : ℤ := d.tdiv 1000000

theorem milliseconds_mono {d d' : ℤ} (h : d ≤ d') : milliseconds d ≤ milliseconds d' :=
  Int.tdiv_le_tdiv (by decide) h

theorem milliseconds_of_nonneg {d : ℤ} (h : 0 ≤ d) : milliseconds d = d / 1000000 :=
  Int.tdiv_eq_ediv_of_nonneg h

/-- A stored value, when it was stored, and how long it is to live. -/
structure KvObject where
  value : String
  storedTime : ℤ
  ttlMs : ℤ
deriving DecidableEq

def hasExpired (now : ℤ) (obj : KvObject) : Bool :=
  decide (obj.ttlMs ≤ milliseconds (now - obj.storedTime))

/-- An object that has not expired. -/
def live (now : ℤ) (obj : KvObject) : Bool := !hasExpired now obj

theorem live_iff {now : ℤ} {obj : KvObject} :
    live now obj = true ↔ milliseconds (now - obj.storedTime) < obj.ttlMs := by
  simp [live, hasExpired]

/-- What has expired stays expired. -/
theorem live_antitone ⦃t t' : ℤ⦄ ⦃obj : KvObject⦄ (h : t ≤ t') (hl : live t' obj = true) : live t obj = true := by
  rw [live_iff] at hl ⊢
  exact lt_of_le_of_lt (milliseconds_mono (by omega)) hl

/-- What is stored later lives longer. -/
theorem live_of_storedTime_le {value : String} {storedTime storedTime' ttlMs t : ℤ} (h : storedTime ≤ storedTime')
    (hl : live t ⟨value, storedTime, ttlMs⟩ = true) : live t ⟨value, storedTime', ttlMs⟩ = true := by
  rw [live_iff] at hl ⊢
  exact lt_of_le_of_lt (milliseconds_mono (by simp only; omega)) hl

/-- **A copy does not expire before its original.** The remaining time of an object, read
at `readAt` and stored again at any later moment, covers every moment the object covers. -/
theorem live_copy {obj : KvObject} {readAt storedAt t : ℤ} (hstored : obj.storedTime ≤ readAt)
    (hread : readAt ≤ storedAt) (ht : storedAt ≤ t) (hl : live t obj = true) (value : String) :
    live t ⟨value, storedAt, obj.ttlMs - milliseconds (readAt - obj.storedTime)⟩ = true := by
  rw [live_iff] at hl ⊢
  change milliseconds (t - storedAt) < obj.ttlMs - milliseconds (readAt - obj.storedTime)
  rw [milliseconds_of_nonneg (by omega)] at hl
  rw [milliseconds_of_nonneg (by omega), milliseconds_of_nonneg (by omega)]
  -- the milliseconds before the reading and those after the copy do not add up to more
  omega

/-! ### The shard -/

structure KvShard where
  data : AList fun _ : String => KvObject

/-- One value of a `GetShardContentsResponse`. -/
structure GetShardValue where
  key : String
  value : String
  ttlMsRemaining : ℤ
deriving DecidableEq

/-- The loop of `GetShardContents` comes to a key: when it tests the object, and when it
reads the clock for the remaining time. -/
structure Visit where
  key : String
  testedAt : ℤ
  readAt : ℤ

/-- The visits of one loop are made one after the other, from `start` to `finish`. -/
def InTime : ℤ → ℤ → List Visit → Prop
  | start, finish, [] => start ≤ finish
  | start, finish, v :: vs => start ≤ v.testedAt ∧ v.testedAt ≤ v.readAt ∧ InTime v.readAt finish vs

instance : ∀ (start finish : ℤ) (visits : List Visit), Decidable (InTime start finish visits)
  | start, finish, [] => inferInstanceAs (Decidable (start ≤ finish))
  | start, finish, v :: vs =>
    have := instDecidableInTime v.readAt finish vs
    inferInstanceAs (Decidable (start ≤ v.testedAt ∧ v.testedAt ≤ v.readAt ∧ InTime v.readAt finish vs))

namespace InTime

variable {start finish : ℤ} {visits : List Visit}

theorem start_le_finish (h : InTime start finish visits) : start ≤ finish := by
  induction visits generalizing start with
  | nil => exact h
  | cons v vs ih =>
    have := ih h.2.2
    have := h.1
    have := h.2.1
    omega

theorem mono {start' : ℤ} (h : InTime start finish visits) (hle : start' ≤ start) : InTime start' finish visits := by
  cases visits with
  | nil => exact hle.trans h
  | cons v vs => exact ⟨hle.trans h.1, h.2⟩

/-- Every reading of the loop lies between its start and its finish. -/
theorem mem (h : InTime start finish visits) {v : Visit} (hv : v ∈ visits) :
    start ≤ v.testedAt ∧ v.testedAt ≤ v.readAt ∧ v.readAt ≤ finish := by
  induction visits generalizing start with
  | nil => simp at hv
  | cons w vs ih =>
    rcases List.mem_cons.mp hv with rfl | hv
    · exact ⟨h.1, h.2.1, h.2.2.start_le_finish⟩
    · have := ih h.2.2 hv
      have := h.1
      have := h.2.1
      omega

theorem filter (h : InTime start finish visits) (p : Visit → Bool) : InTime start finish (visits.filter p) := by
  induction visits generalizing start with
  | nil => exact h
  | cons v vs ih =>
    rw [List.filter_cons]
    split
    · exact ⟨h.1, h.2.1, ih h.2.2⟩
    · exact (ih h.2.2).mono (h.1.trans h.2.1)

/-- More keys can be visited at the very end. -/
theorem append_finish (h : InTime start finish visits) (keys : List String) :
    InTime start finish (visits ++ keys.map fun k => ⟨k, finish, finish⟩) := by
  induction visits generalizing start with
  | nil =>
    induction keys generalizing start with
    | nil => exact h
    | cons k keys ih => exact ⟨h, le_rfl, ih le_rfl⟩
  | cons v vs ih => exact ⟨h.1, h.2.1, ih h.2.2⟩

end InTime

def makeKvShard : KvShard := ⟨∅⟩

namespace KvShard

def get (shard : KvShard) (key : String) (now : ℤ) : Option KvObject :=
  match shard.data.lookup key with
  | none => none
  | some obj => if hasExpired now obj then none else some obj

def set (shard : KvShard) (key value : String) (ttlMs now : ℤ) : KvShard :=
  ⟨shard.data.insert key ⟨value, now, ttlMs⟩⟩

def delete (shard : KvShard) (key : String) : KvShard :=
  ⟨shard.data.erase key⟩

/-- The keys `cleanup` finds expired, the object under each key being tested at the moment
`clock` gives for it. -/
def expired (shard : KvShard) (clock : String → ℤ) : List String :=
  (shard.data.entries.filter fun e => hasExpired (clock e.1) e.2).map Sigma.fst

def cleanup (shard : KvShard) (clock : String → ℤ) : KvShard :=
  ⟨eraseAll (shard.expired clock) shard.data⟩

/-- One iteration of the loop of `GetShardContents`: what is appended to the response. -/
def listed (shard : KvShard) (v : Visit) : Option GetShardValue :=
  (shard.data.lookup v.key).bind fun obj =>
    if hasExpired v.testedAt obj then none
    else some ⟨v.key, obj.value, obj.ttlMs - milliseconds (v.readAt - obj.storedTime)⟩

/-- The loop of `GetShardContents` over `Data()`. -/
def contents (shard : KvShard) (visits : List Visit) : List GetShardValue :=
  visits.filterMap shard.listed

/-- A `range` loop over the map visits every key once, in some order. -/
def Iterates (shard : KvShard) (visits : List Visit) : Prop :=
  (visits.map Visit.key).Perm shard.data.keys

instance (shard : KvShard) (visits : List Visit) : Decidable (shard.Iterates visits) :=
  inferInstanceAs (Decidable (List.Perm _ _))

variable {shard : KvShard} {key : String} {obj : KvObject}

theorem get_eq_visible (shard : KvShard) (key : String) (now : ℤ) :
    shard.get key now = visible live now shard.data key := by
  unfold get visible
  cases h : shard.data.lookup key with
  | none => rfl
  | some obj => cases he : hasExpired now obj <;> simp [Option.filter, live, he]

theorem get_eq_some_iff {now : ℤ} :
    shard.get key now = some obj ↔ shard.data.lookup key = some obj ∧ live now obj = true := by
  rw [get_eq_visible, visible_eq_some_iff]

theorem lookup_set (shard : KvShard) (key value : String) (ttlMs now : ℤ) (k : String) :
    (shard.set key value ttlMs now).data.lookup k =
      if k = key then some ⟨value, now, ttlMs⟩ else shard.data.lookup k := by
  unfold set
  by_cases hk : k = key
  · subst hk
    simp
  · simp [hk]

theorem lookup_delete (shard : KvShard) (key k : String) :
    (shard.delete key).data.lookup k = if k = key then none else shard.data.lookup k := by
  unfold delete
  by_cases hk : k = key
  · subst hk
    simp
  · simp [hk]

theorem mem_expired_iff {clock : String → ℤ} :
    key ∈ shard.expired clock ↔ ∃ obj, shard.data.lookup key = some obj ∧ live (clock key) obj = false := by
  have hmem : ∀ obj, shard.data.lookup key = some obj ↔ (⟨key, obj⟩ : Sigma fun _ : String => KvObject) ∈
      shard.data.entries := fun obj => AList.mem_lookup_iff
  simp [expired, hmem, live]

/-- `cleanup` keeps an object exactly if it finds it live. -/
theorem lookup_cleanup (shard : KvShard) (clock : String → ℤ) (key : String) :
    (shard.cleanup clock).data.lookup key = (shard.data.lookup key).filter (live (clock key)) := by
  unfold cleanup
  rw [lookup_eraseAll]
  split_ifs with hk
  · obtain ⟨obj, hobj, hdead⟩ := mem_expired_iff.mp hk
    simp [hobj, Option.filter_some, hdead]
  · cases hobj : shard.data.lookup key with
    | none => rfl
    | some obj =>
      have hlive : live (clock key) obj = true := by
        by_contra hdead
        exact hk (mem_expired_iff.mpr ⟨obj, hobj, by simpa using hdead⟩)
      rw [Option.filter_some, if_pos hlive]

/-- `cleanup` removes nothing that could be seen at the end of it or later. -/
theorem agreeFrom_cleanup {clock : String → ℤ} {finish : ℤ} (h : ∀ key ∈ shard.data, clock key ≤ finish) :
    AgreeFrom live finish shard.data (shard.cleanup clock).data := by
  refine agreeFrom_eraseAll live_antitone fun k hk obj hobj => ?_
  obtain ⟨obj', hobj', hdead⟩ := mem_expired_iff.mp hk
  rw [hobj] at hobj'
  cases hobj'
  exact ⟨clock k, h k (AList.lookup_isSome.mp (by simp [hobj])), hdead⟩

/-- What the loop lists for a key is what `Get` would have found when the key was tested. -/
theorem listed_eq_map_get (shard : KvShard) (v : Visit) :
    shard.listed v = (shard.get v.key v.testedAt).map fun obj =>
      ⟨v.key, obj.value, obj.ttlMs - milliseconds (v.readAt - obj.storedTime)⟩ := by
  unfold listed get
  cases shard.data.lookup v.key with
  | none => rfl
  | some obj => cases he : hasExpired v.testedAt obj <;> simp [he]

theorem listed_eq_some_iff {v : Visit} {gv : GetShardValue} :
    shard.listed v = some gv ↔ ∃ obj, shard.data.lookup v.key = some obj ∧ live v.testedAt obj = true ∧
      gv = ⟨v.key, obj.value, obj.ttlMs - milliseconds (v.readAt - obj.storedTime)⟩ := by
  simp [listed_eq_map_get, get_eq_some_iff, and_assoc, eq_comm (a := gv)]

theorem listed_key {v : Visit} {gv : GetShardValue} (h : shard.listed v = some gv) : gv.key = v.key := by
  obtain ⟨obj, -, -, rfl⟩ := listed_eq_some_iff.mp h
  rfl

theorem mem_contents_iff {visits : List Visit} {gv : GetShardValue} :
    gv ∈ shard.contents visits ↔ ∃ v ∈ visits, shard.listed v = some gv :=
  List.mem_filterMap

/-- A key is listed at most once, and only if it is stored. -/
theorem contents_keys_sublist (shard : KvShard) (visits : List Visit) :
    ((shard.contents visits).map GetShardValue.key).Sublist (visits.map Visit.key) := by
  unfold contents
  induction visits with
  | nil => simp
  | cons v vs ih =>
    rw [List.filterMap_cons]
    split
    · exact ih.cons _
    · next gv hgv =>
      rw [List.map_cons, List.map_cons, listed_key hgv]
      exact ih.cons_cons _

theorem contents_keys_nodup {visits : List Visit} (h : shard.Iterates visits) :
    ((shard.contents visits).map GetShardValue.key).Nodup :=
  (h.nodup_iff.mpr shard.data.keys_nodup).sublist (contents_keys_sublist shard visits)

/-- A loop lists a key with its value exactly if `Get` would find it when it is tested. -/
theorem mem_contents_key_iff {visits : List Visit} (h : shard.Iterates visits) {v : Visit} (hv : v ∈ visits)
    (value : String) : (∃ gv ∈ shard.contents visits, gv.key = v.key ∧ gv.value = value) ↔
      ∃ obj, shard.get v.key v.testedAt = some obj ∧ obj.value = value := by
  have hnodup : (visits.map Visit.key).Nodup := h.nodup_iff.mpr shard.data.keys_nodup
  constructor
  · rintro ⟨gv, hgv, hkey, rfl⟩
    obtain ⟨w, hw, hlisted⟩ := mem_contents_iff.mp hgv
    -- no other visit is of this key
    obtain rfl : w = v := List.inj_on_of_nodup_map hnodup hw hv ((listed_key hlisted).symm.trans hkey)
    obtain ⟨obj, hobj, hlive, rfl⟩ := listed_eq_some_iff.mp hlisted
    exact ⟨obj, get_eq_some_iff.mpr ⟨hobj, hlive⟩, rfl⟩
  · rintro ⟨obj, hobj, rfl⟩
    obtain ⟨hobj, hlive⟩ := get_eq_some_iff.mp hobj
    exact ⟨_, mem_contents_iff.mpr ⟨v, hv, listed_eq_some_iff.mpr ⟨obj, hobj, hlive, rfl⟩⟩, rfl, rfl⟩

end KvShard

end Cs426.Kv
