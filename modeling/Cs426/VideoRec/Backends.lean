import Mathlib.Data.Finset.Card
import Cs426.VideoRec.Basic

/-!
# The services behind the recommendations

`GetUser` (`lab1/user_service/server_lib/server_lib.go`) and `GetVideo`
(`lab1/video_service/server_lib/server_lib.go`), as `VideoRecService` uses them: a database, a
largest batch size, and the checks of a request. A mock client calls the same code.

## The model

A database is a function from ids, `none` where nothing is stored. What `MaybeInject` answers is
a parameter of the call; it may also never answer, and then there is no call to speak of. Between
the services a request may get lost, with any error.

## What is proved

* `mem_deduplicateIds`, `nodup_deduplicateIds`, `length_deduplicateIds_eq_iff` — what
  `deduplicateIds` does.
* `lookupLoop_append` — a lookup of two lists is one lookup after the other.
* `getUser_of_valid`, `getVideo_of_valid` — a request that passes the checks is looked up.
-/

namespace Cs426.VideoRec

/-! ### The servers -/

def Code.invalidArgument : Code := .other 3

def Code.notFound : Code := .other 5

def Code.internal : Code := .other 13

/-- The loop of `GetUser` and of `GetVideo` over the ids, with `infos` found before. -/
def lookupLoop {α : Type*} (notFound : UInt64 → Status) (db : UInt64 → Option α) :
    List UInt64 → List α → Except Status (List α)
  | [], infos => .ok infos
  | id :: ids, infos =>
    match db id with
    | some info => lookupLoop notFound db ids (infos ++ [info])
    | none => .error (notFound id)

structure UserServiceServer where
  maxBatchSize : ℤ
  users : UInt64 → Option UserInfo

namespace UserServiceServer

def notFound (userId : UInt64) : Status :=
  ⟨.notFound, "UserService: user " ++ toString userId ++
    " cannot be found, it may have been deleted or never existed in the first place."⟩

def getUser (db : UserServiceServer) (shouldError : Bool) (userIds : List UInt64) : Except Status (List UserInfo) :=
  if shouldError then .error ⟨.internal, "UserService: (injected) internal error!"⟩
  else if userIds.length = 0 then
    .error ⟨.invalidArgument, "UserService: user_ids in GetUserRequest should not be empty"⟩
  else if db.maxBatchSize < userIds.length then
    .error ⟨.invalidArgument, "UserService: user_ids exceeded the max batch size " ++ toString db.maxBatchSize⟩
  else lookupLoop notFound db.users userIds []

end UserServiceServer

structure VideoServiceServer where
  maxBatchSize : ℤ
  videos : UInt64 → Option VideoInfo

namespace VideoServiceServer

def notFound (videoId : UInt64) : Status :=
  ⟨.notFound, "VideoService: video " ++ toString videoId ++
    " cannot be found, it may have been deleted or never existed in the first place."⟩

/-- The same as `getUser`, but for one more check: no id may be asked for twice. -/
def getVideo (db : VideoServiceServer) (shouldError : Bool) (videoIds : List UInt64) : Except Status (List VideoInfo) :=
  if shouldError then .error ⟨.internal, "VideoService: (injected) internal error!"⟩
  else if videoIds.length = 0 then
    .error ⟨.invalidArgument, "VideoService: video_ids in GetVideoRequest should not be empty"⟩
  else if db.maxBatchSize < videoIds.length then
    .error ⟨.invalidArgument, "VideoService: video_ids exceeded the max batch size " ++ toString db.maxBatchSize⟩
  else if (deduplicateIds videoIds).length ≠ videoIds.length then
    .error ⟨.invalidArgument, "VideoService: duplicate IDs found in video_ids"⟩
  else lookupLoop notFound db.videos videoIds []

end VideoServiceServer

/-- What becomes of a request: it is handled, with or without an injected failure, or lost. -/
inductive Delivery where
  | handled (shouldError : Bool)
  | lost (err : Status)

/-- The answers of the two services, where the `k`-th `GetUser` and the `k`-th `GetVideo` request of
a call fare as `user k` and `video k` say. -/
def Backend.ofServers (udb : UserServiceServer) (vdb : VideoServiceServer) (user video : ℕ → Delivery) : Backend where
  getUser k ids :=
    match user k with
    | .handled shouldError => udb.getUser shouldError ids
    | .lost err => .error err
  getVideo k ids :=
    match video k with
    | .handled shouldError => vdb.getVideo shouldError ids
    | .lost err => .error err

/-! ### `deduplicateIds` -/

theorem mem_dedupLoop {set ids : List UInt64} {id : UInt64} : id ∈ dedupLoop set ids ↔ id ∈ ids ∧ id ∉ set := by
  induction ids generalizing set with
  | nil => simp [dedupLoop]
  | cons x ids ih =>
    rw [dedupLoop]
    by_cases hx : x ∈ set
    · rw [if_pos hx, ih]
      grind
    · rw [if_neg hx, List.mem_cons, ih]
      grind

theorem nodup_dedupLoop (set ids : List UInt64) : (dedupLoop set ids).Nodup := by
  induction ids generalizing set with
  | nil => exact List.nodup_nil
  | cons x ids ih =>
    rw [dedupLoop]
    by_cases hx : x ∈ set
    · rw [if_pos hx]
      exact ih set
    · rw [if_neg hx, List.nodup_cons]
      exact ⟨fun hmem => (mem_dedupLoop.mp hmem).2 (List.mem_cons_self ..), ih (x :: set)⟩

@[simp] theorem mem_deduplicateIds {ids : List UInt64} {id : UInt64} : id ∈ deduplicateIds ids ↔ id ∈ ids := by
  simp [deduplicateIds, mem_dedupLoop]

theorem nodup_deduplicateIds (ids : List UInt64) : (deduplicateIds ids).Nodup := nodup_dedupLoop [] ids

/-- As many as there are different ids. -/
theorem length_deduplicateIds (ids : List UInt64) : (deduplicateIds ids).length = ids.toFinset.card := by
  rw [← List.toFinset_card_of_nodup (nodup_deduplicateIds ids)]
  congr 1
  ext id
  simp

theorem length_deduplicateIds_le (ids : List UInt64) : (deduplicateIds ids).length ≤ ids.length := by
  rw [length_deduplicateIds]
  exact List.toFinset_card_le ids

/-- The check for duplicates finds them. -/
theorem length_deduplicateIds_eq_iff {ids : List UInt64} : (deduplicateIds ids).length = ids.length ↔ ids.Nodup := by
  rw [length_deduplicateIds]
  exact (Multiset.toFinset_card_eq_card_iff_nodup (m := (ids : Multiset UInt64))).trans Multiset.coe_nodup

/-! ### Lookups -/

section Lookup

variable {α : Type*} {notFound : UInt64 → Status} {db : UInt64 → Option α}

/-- What was found before stays in front. -/
theorem lookupLoop_acc (ids : List UInt64) (infos : List α) :
    lookupLoop notFound db ids infos = (lookupLoop notFound db ids []).map (infos ++ ·) := by
  induction ids generalizing infos with
  | nil => simp [lookupLoop, Except.map]
  | cons id ids ih =>
    cases hid : db id with
    | none => simp [lookupLoop, hid, Except.map]
    | some info =>
      simp only [lookupLoop, hid]
      rw [ih, ih ([] ++ [info])]
      cases lookupLoop notFound db ids [] <;> simp [Except.map]

theorem lookupLoop_append (xs ys : List UInt64) : lookupLoop notFound db (xs ++ ys) [] =
    (lookupLoop notFound db xs []).bind fun found => (lookupLoop notFound db ys []).map (found ++ ·) := by
  suffices h : ∀ infos, lookupLoop notFound db (xs ++ ys) infos =
      (lookupLoop notFound db xs infos).bind fun found => lookupLoop notFound db ys found by
    simp only [h, ← lookupLoop_acc]
  induction xs with
  | nil => exact fun infos => rfl
  | cons id xs ih =>
    intro infos
    cases hid : db id with
    | none => simp [lookupLoop, hid, Except.bind]
    | some info => simpa [lookupLoop, hid] using ih (infos ++ [info])

theorem lookupLoop_cons (id : UInt64) (ids : List UInt64) : lookupLoop notFound db (id :: ids) [] =
    match db id with
    | some info => (lookupLoop notFound db ids []).map (info :: ·)
    | none => .error (notFound id) := by
  rw [lookupLoop]
  cases db id with
  | none => rfl
  | some info => exact lookupLoop_acc ids [info]

/-- A lookup finds what is stored under each of the ids, in order. -/
theorem lookupLoop_eq_ok_iff {ids : List UInt64} {infos : List α} : lookupLoop notFound db ids [] = .ok infos ↔
    List.Forall₂ (fun id info => db id = some info) ids infos := by
  induction ids generalizing infos with
  | nil => simp [lookupLoop, eq_comm]
  | cons id ids ih =>
    rw [lookupLoop_cons, List.forall₂_cons_left_iff]
    cases hid : db id with
    | none => simp
    | some info =>
      cases hrest : lookupLoop notFound db ids [] with
      | error err => simp [Except.map, ← ih, hrest]
      | ok rest => simp [Except.map, ← ih, hrest, eq_comm]

/-- It succeeds if and only if all of them are known. -/
theorem lookupLoop_isOk_iff {ids : List UInt64} :
    (∃ infos, lookupLoop notFound db ids [] = .ok infos) ↔ ∀ id ∈ ids, ∃ info, db id = some info := by
  induction ids with
  | nil => simp [lookupLoop]
  | cons id ids ih =>
    rw [lookupLoop_cons, List.forall_mem_cons, ← ih]
    cases hid : db id with
    | none => simp
    | some info => cases lookupLoop notFound db ids [] <;> simp [Except.map]

/-- It fails with the message about an unknown id. -/
theorem lookupLoop_error {ids : List UInt64} {err : Status} (h : lookupLoop notFound db ids [] = .error err) :
    ∃ id ∈ ids, err = notFound id := by
  induction ids with
  | nil => cases h
  | cons id ids ih =>
    rw [lookupLoop_cons] at h
    cases hid : db id with
    | none =>
      rw [hid] at h
      exact ⟨id, List.mem_cons_self .., (Except.error.inj h).symm⟩
    | some info =>
      cases hrest : lookupLoop notFound db ids [] with
      | ok infos => simp [hid, hrest, Except.map] at h
      | error err' =>
        obtain rfl : err' = err := by simpa [hid, hrest, Except.map] using h
        obtain ⟨id', hid', rfl⟩ := ih hrest
        exact ⟨id', List.mem_cons_of_mem _ hid', rfl⟩

end Lookup

/-! ### Requests -/

/-- A `GetUser` request that passes the checks is looked up. -/
theorem UserServiceServer.getUser_of_valid {db : UserServiceServer} {ids : List UInt64} (hne : ids ≠ [])
    (hlength : ids.length ≤ db.maxBatchSize) : db.getUser false ids = lookupLoop notFound db.users ids [] := by
  rw [getUser, if_neg Bool.false_ne_true, if_neg (mt List.length_eq_zero_iff.mp hne), if_neg (not_lt.mpr hlength)]

/-- A `GetVideo` request that passes the checks is looked up. -/
theorem VideoServiceServer.getVideo_of_valid {db : VideoServiceServer} {ids : List UInt64} (hne : ids ≠ [])
    (hlength : ids.length ≤ db.maxBatchSize) (hnodup : ids.Nodup) :
    db.getVideo false ids = lookupLoop notFound db.videos ids [] := by
  rw [getVideo, if_neg Bool.false_ne_true, if_neg (mt List.length_eq_zero_iff.mp hne), if_neg (not_lt.mpr hlength),
    if_neg (not_not.mpr (length_deduplicateIds_eq_iff.mpr hnodup))]

namespace Backend

variable {udb : UserServiceServer} {vdb : VideoServiceServer} {user video : ℕ → Delivery} {k : ℕ} {ids : List UInt64}

/-- Users that are answered with are those stored under the ids. -/
theorem getUser_ofServers {infos : List UserInfo} (h : (ofServers udb vdb user video).getUser k ids = .ok infos) :
    List.Forall₂ (fun id info => udb.users id = some info) ids infos := by
  simp only [ofServers] at h
  split at h
  · rw [UserServiceServer.getUser] at h
    split_ifs at h
    exact lookupLoop_eq_ok_iff.mp h
  · cases h

/-- Videos that are answered with are those stored under the ids. -/
theorem getVideo_ofServers {infos : List VideoInfo} (h : (ofServers udb vdb user video).getVideo k ids = .ok infos) :
    List.Forall₂ (fun id info => vdb.videos id = some info) ids infos := by
  simp only [ofServers] at h
  split at h
  · rw [VideoServiceServer.getVideo] at h
    split_ifs at h
    exact lookupLoop_eq_ok_iff.mp h
  · cases h

end Backend

end Cs426.VideoRec
