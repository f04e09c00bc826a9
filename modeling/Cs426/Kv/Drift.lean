import Mathlib.Algebra.BigOperators.Group.List.Basic
import Cs426.Kv.Effects

/-!
# How long a migrated key lives

A copied object carries its remaining time in whole milliseconds, and its time starts anew
when it is installed (`GetShardContents` and `handleShardMapUpdate` in `lab4/kv/server.go`).
Both work in one direction: the elapsed time is rounded down, and the time between the
reading and the installing is not counted. So an object that goes from node to node lives
longer with every copy, by the delay of that copy and by less than a millisecond more.

Moments are nanoseconds on one scale for all nodes.

## What is proved

* `hasExpired_iff` — an object expires at the instant `expiry`, `ttlMs` after it was stored.
* `expiry_copy` — what one copy does to that instant.
* `copies_drift` — what any chain of copies does to it.
-/

namespace Cs426.Kv

namespace KvObject

/-- The instant from which on the object counts as expired. -/
def expiry (obj : KvObject) : ℤ := obj.storedTime + obj.ttlMs * 1000000

/-- Once stored, an object has expired just when the instant has come. -/
theorem hasExpired_iff {obj : KvObject} {now : ℤ} (h : obj.storedTime ≤ now) :
    hasExpired now obj = true ↔ obj.expiry ≤ now := by
  rw [hasExpired, decide_eq_true_eq, milliseconds_of_nonneg (by omega), expiry]
  omega

/-- What becomes of the instant when the time remaining at `readAt` is stored at `storedAt`:
it moves by the time in between and by what is rounded off, less than a millisecond. -/
theorem expiry_copy {obj : KvObject} {readAt : ℤ} (h : obj.storedTime ≤ readAt) (storedAt : ℤ) (value : String) :
    let copy : KvObject := ⟨value, storedAt, obj.ttlMs - milliseconds (readAt - obj.storedTime)⟩
    obj.expiry + (storedAt - readAt) ≤ copy.expiry ∧ copy.expiry < obj.expiry + (storedAt - readAt) + 1000000 := by
  simp only [expiry, milliseconds_of_nonneg (show 0 ≤ readAt - obj.storedTime by omega)]
  omega

end KvObject

/-- One copy: when the remaining time was read, and when it was stored again. -/
structure Hop where
  readAt : ℤ
  storedAt : ℤ

/-- How long it took. -/
def Hop.delay (h : Hop) : ℤ := h.storedAt - h.readAt

/-- An object goes from node to node, `hops` being the copies: a node stores it and lists it in
answer to `GetShardContents`, and a call of `handleShardMapUpdate` on the next one installs
what was listed. -/
inductive CopyChain (key : String) : KvObject → List Hop → KvObject → Prop
  | refl {obj : KvObject} : CopyChain key obj [] obj
  | copy {obj obj' last : KvObject} {src dst dst' : Server} {shard s : ℤ} {kvShard : KvShard} {v : Visit}
      {value : GetShardValue} {st : ShardMapState} {caller : Caller} {values : List (ℤ × GetShardValue)}
      {storedAt : ℤ} {hops : List Hop} :
      src.shards.lookup shard = some kvShard → v.key = key → kvShard.data.lookup key = some obj →
      kvShard.listed v = some value → obj.storedTime ≤ v.readAt → v.readAt ≤ storedAt →
      dst.handlers caller = .installing ((s, value) :: values) → dst.step st (.install caller storedAt) = some dst' →
      dst'.entry (int32 (getShardForKey key st.numShards)) key = some obj' → CopyChain key obj' hops last →
      CopyChain key obj (⟨v.readAt, storedAt⟩ :: hops) last

/-- What is listed and then installed is the object with its remaining time. -/
theorem installed_eq {key : String} {obj obj' : KvObject} {kvShard : KvShard} {v : Visit} {value : GetShardValue}
    {dst dst' : Server} {st : ShardMapState} {caller : Caller} {s storedAt : ℤ} {values : List (ℤ × GetShardValue)}
    (hkey : v.key = key) (hobj : kvShard.data.lookup key = some obj) (hlisted : kvShard.listed v = some value)
    (hinst : dst.handlers caller = .installing ((s, value) :: values))
    (hstep : dst.step st (.install caller storedAt) = some dst')
    (hobj' : dst'.entry (int32 (getShardForKey key st.numShards)) key = some obj') :
    obj' = ⟨obj.value, storedAt, obj.ttlMs - milliseconds (v.readAt - obj.storedTime)⟩ := by
  subst hkey
  obtain ⟨found, hfound, -, rfl⟩ := KvShard.listed_eq_some_iff.mp hlisted
  obtain rfl : found = obj := Option.some.inj (hfound.symm.trans hobj)
  have hentry := Server.entry_of_install hstep hinst
  exact Option.some.inj (hobj'.symm.trans hentry)

namespace CopyChain

variable {key : String} {obj last : KvObject} {hops : List Hop}

/-- The instant of the last copy, between the sum of the delays and a millisecond more for
each copy. -/
theorem expiry_bounds (h : CopyChain key obj hops last) :
    obj.expiry + (hops.map Hop.delay).sum ≤ last.expiry ∧
      (hops ≠ [] → last.expiry < obj.expiry + (hops.map Hop.delay).sum + hops.length * 1000000) := by
  induction h with
  | refl => simp
  | @copy obj obj' last _ _ _ _ _ _ v _ _ _ _ storedAt hops _ hkey hobj hlisted hstored _ hinst hstep hobj' _ ih =>
    have hone := KvObject.expiry_copy hstored storedAt obj.value
    rw [← installed_eq hkey hobj hlisted hinst hstep hobj'] at hone
    simp only [List.map_cons, List.sum_cons, List.length_cons, Hop.delay]
    refine ⟨by omega, fun _ => ?_⟩
    -- after the last copy nothing more is rounded off
    by_cases hnil : hops = []
    · subst hnil
      have := ih.1
      cases ‹CopyChain key obj' [] last›
      simp only [List.map_nil, List.sum_nil, List.length_nil]
      push_cast
      omega
    · have := ih.2 hnil
      push_cast
      omega

/-- Delays are not negative, and the last copy was stored after the object was. -/
theorem storedTime_le (h : CopyChain key obj hops last) :
    obj.storedTime ≤ last.storedTime ∧ 0 ≤ (hops.map Hop.delay).sum := by
  induction h with
  | refl => simp
  | @copy obj obj' last _ _ _ _ _ _ v _ _ _ _ storedAt hops _ hkey hobj hlisted hstored hread hinst hstep hobj' _ ih =>
    have hcopy := installed_eq hkey hobj hlisted hinst hstep hobj'
    have hstoredAt : obj'.storedTime = storedAt := by rw [hcopy]
    simp only [List.map_cons, List.sum_cons, Hop.delay]
    omega

end CopyChain

/-- **The drift of a migrated key is bounded by the delays of its copies.** A key is stored at
`t₀` to live `ttlMs`, and goes through a chain of copies, at least one: each is read when the
object before it was stored already, and stored when it has been read. The instant at which
the last copy expires is at least the original one and the sum of all delays, and exceeds that
by less than a millisecond for each copy. So the last copy never expires before the original
would have. -/
theorem copies_drift {key value : String} {t₀ ttlMs : ℤ} {hops : List Hop} {last : KvObject} (hne : hops ≠ [])
    (h : CopyChain key ⟨value, t₀, ttlMs⟩ hops last) :
    t₀ + ttlMs * 1000000 + (hops.map Hop.delay).sum ≤ last.expiry ∧
    last.expiry < t₀ + ttlMs * 1000000 + (hops.map Hop.delay).sum + hops.length * 1000000 ∧
    ∀ now, last.storedTime ≤ now → hasExpired now last = true → hasExpired now ⟨value, t₀, ttlMs⟩ = true := by
  obtain ⟨hlow, hhigh⟩ := h.expiry_bounds
  obtain ⟨hstored, hdelay⟩ := h.storedTime_le
  refine ⟨hlow, hhigh hne, fun now hnow hexp => ?_⟩
  rw [KvObject.hasExpired_iff hnow] at hexp
  rw [KvObject.hasExpired_iff (hstored.trans hnow)]
  omega

/-- A node that stores one object in its only shard. -/
def storing (obj : KvObject) : Server := ⟨"n1", AList.insert 1 ⟨AList.insert "k" obj ∅⟩ ∅, fun _ => .idle, 0⟩

/-- A node that is about to install one value into its only shard. -/
def receiving (value : GetShardValue) : Server :=
  ⟨"n2", AList.insert 1 makeKvShard ∅, fun _ => .installing [(1, value)], 0⟩

/-- One copy between such nodes. -/
theorem copyChain_hop {obj last : KvObject} {testedAt readAt storedAt : ℤ} {hops : List Hop}
    (hlive : live testedAt obj = true) (hstored : obj.storedTime ≤ readAt) (hread : readAt ≤ storedAt)
    (h0 : 0 ≤ storedAt)
    (h : CopyChain "k" ⟨obj.value, storedAt, obj.ttlMs - milliseconds (readAt - obj.storedTime)⟩ hops last) :
    CopyChain "k" obj (⟨readAt, storedAt⟩ :: hops) last := by
  have hdata : (⟨AList.insert "k" obj ∅⟩ : KvShard).data.lookup "k" = some obj := AList.lookup_insert _
  have hlisted := KvShard.listed_eq_some_iff (v := ⟨"k", testedAt, readAt⟩).mpr ⟨obj, hdata, hlive, rfl⟩
  have hsrc : (storing obj).shards.lookup 1 = some ⟨AList.insert "k" obj ∅⟩ := AList.lookup_insert _
  generalize hvalue : (⟨"k", obj.value, obj.ttlMs - milliseconds (readAt - obj.storedTime)⟩ : GetShardValue) = value
    at hlisted
  have hdst : (receiving value).handlers .makeKvServer = .installing [(1, value)] := rfl
  have hlookup : (receiving value).shards.lookup (int32 (getShardForKey value.key 1)) = some makeKvShard := by
    have hshard : int32 (getShardForKey value.key 1) = 1 := by simp [getShardForKey, int32]
    rw [hshard]
    exact AList.lookup_insert _
  have hstep : (receiving value).step (.oneShard [] []) (.install .makeKvServer storedAt) = some _ :=
    Server.step_install_iff.mpr ⟨1, value, [], makeKvShard, hdst, hlookup, h0, rfl⟩
  have hentry := Server.entry_of_install hstep hdst
  subst hvalue
  exact .copy hsrc rfl hdata hlisted hstored hread hdst hstep hentry h

/-- Ten milliseconds to live. Read after one and a half, stored two and a half later; read
again after another three, stored one later. -/
theorem copyChain_twice : CopyChain "k" ⟨"v", 0, 10⟩ [⟨1500000, 4000000⟩, ⟨7000000, 8000000⟩] ⟨"v", 8000000, 6⟩ := by
  have hfirst : live 1000000 ⟨"v", 0, 10⟩ = true := by decide
  have hsecond : live 6000000 ⟨"v", 4000000, 9⟩ = true := by decide
  exact copyChain_hop hfirst (by decide) (by decide) (by decide)
    (copyChain_hop hsecond (by decide) (by decide) (by decide) .refl)

/-- The last copy expires at 14 ms, half a millisecond after the original instant and the
delays. -/
theorem copies_drift_twice : (⟨"v", 8000000, 6⟩ : KvObject).expiry = 14000000 ∧
    0 + 10 * 1000000 + (2500000 + (1000000 + 0)) ≤ (⟨"v", 8000000, 6⟩ : KvObject).expiry :=
  ⟨rfl, (copies_drift (by simp) copyChain_twice).1⟩

end Cs426.Kv
