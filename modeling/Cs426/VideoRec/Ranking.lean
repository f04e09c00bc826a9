import Cs426.VideoRec.Backends

/-!
# What is recommended

The second half of `GetTopVideos`: the videos liked by the users one subscribes to are looked
up, ranked by `BcryptRanker` (`lab1/ranker/ranker.go`), sorted and cut off at the limit.

`Rank` hashes the product of the coefficients. The hash is a parameter `digest`: all that matters
is that it is a function. What it is, and that the product is one too, although the source iterates
over a map in any order, is in `Ranker`.

## What is proved

* `topVideos_spec` — sorting and cutting off: a part with the highest scores.
* `recommend_ranked` — what a call that is not answered from the cache has been through.
* `top_videos_correct` — its answer is a correct top of the liked videos, for a positive limit.
* `limit_respected_iff` — a limit of `0` gives all videos from the cache, as it should, and no
  video otherwise (`limit_zero_differs`).
-/

namespace Cs426.VideoRec

open Cs426.Batches

/-! ### `BcryptRanker` -/

namespace BcryptRanker

/-- The loop of `Rank`, in 64 bits. -/
def dotProduct (userCoeffs videoCoeffs : Coefficients) : UInt64 :=
  userCoeffs.entries.foldl (fun product e =>
    match videoCoeffs.lookup e.1 with
    | some videoCoeff => product + e.2 * videoCoeff
    | none => product) 0

def rank (digest : UInt64 → UInt64) (userCoeffs videoCoeffs : Coefficients) : UInt64 :=
  digest (dotProduct userCoeffs videoCoeffs)

end BcryptRanker

/-! ### Sorting and the limit -/

section Top

variable {rank : Coefficients → Coefficients → UInt64} {sorter : Sorter} {user : UserInfo} {infos : List VideoInfo}
  {limit : ℤ}

/-- The number of videos that are kept. -/
theorem length_topVideos (hlimit : 0 ≤ limit) :
    ((topVideos rank sorter user infos limit).length : ℤ) = min limit infos.length := by
  simp only [topVideos, List.length_map, List.length_take, (sorter.perm _).length_eq]
  split_ifs <;> omega

/-- **The top**: what is kept has the highest scores, in order, and the rest none that are higher. -/
theorem topVideos_spec (rank : Coefficients → Coefficients → UInt64) (sorter : Sorter) (user : UserInfo)
    (infos : List VideoInfo) (limit : ℤ) : ∃ rest, (topVideos rank sorter user infos limit ++ rest).Perm infos ∧
    (topVideos rank sorter user infos limit ++ rest).Pairwise fun v w =>
      rank user.userCoefficients w.videoCoefficients ≤ rank user.userCoefficients v.videoCoefficients := by
  let pairs : List RankPair := infos.map fun vi => ⟨vi, rank user.userCoefficients vi.videoCoefficients⟩
  have hscore : ∀ p ∈ sorter.sort pairs, p.score = rank user.userCoefficients p.vi.videoCoefficients := by
    intro p hp
    obtain ⟨vi, -, rfl⟩ := List.mem_map.mp ((sorter.perm pairs).subset hp)
    rfl
  have hvi : (pairs.map RankPair.vi) = infos := by simp [pairs, Function.comp_def]
  obtain ⟨n, htop⟩ : ∃ n, topVideos rank sorter user infos limit = ((sorter.sort pairs).take n).map RankPair.vi :=
    ⟨_, rfl⟩
  refine ⟨((sorter.sort pairs).drop n).map RankPair.vi, ?_, ?_⟩
  · rw [htop, ← List.map_append, List.take_append_drop]
    exact ((sorter.perm pairs).map RankPair.vi).trans (.of_eq hvi)
  · rw [htop, ← List.map_append, List.take_append_drop, List.pairwise_map]
    refine (sorter.sorted pairs).imp_of_mem fun hp hq hle => ?_
    rwa [← hscore _ hp, ← hscore _ hq]

end Top

/-! ### The way there -/

/-- What a call with ranked videos has been through. -/
structure Ranked (cfg : Config) (b : Backend) (fuel : ℕ) (req : GetTopVideosRequest) (user : UserInfo)
    (candidates : List UInt64) (infos : List VideoInfo) : Prop where
  requester : ∃ others, b.getUser 0 [req.userId] = .ok (user :: others)
  liked : likedBySubscriptions cfg b fuel user.subscribedTo = some (.ok candidates)
  fetched : fetchVideos cfg b fuel (deduplicateIds candidates) = some (.ok infos)

theorem recommend_ranked {cfg : Config} {rank : Coefficients → Coefficients → UInt64} {sorter : Sorter} {b : Backend}
    {fuel : ℕ} {req : GetTopVideosRequest} {videos : List VideoInfo}
    (h : recommend cfg rank sorter b fuel req = some (.ranked videos)) :
    ∃ user candidates infos, Ranked cfg b fuel req user candidates infos ∧
      videos = topVideos rank sorter user infos req.limit := by
  rw [recommend] at h
  by_cases hclient : hasClient cfg cfg.mockUserFlag = true
  swap
  · rw [if_neg hclient] at h
    cases h
  rw [if_pos hclient] at h
  cases huser : b.getUser 0 [req.userId] with
  | error err => simp [huser] at h
  | ok users =>
    cases users with
    | nil => simp [huser] at h
    | cons user others =>
      rw [huser] at h
      obtain ⟨liked, hliked, h⟩ := Option.bind_eq_some_iff.mp h
      cases liked with
      | error err => simp at h
      | ok candidates =>
        obtain ⟨fetched, hfetched, h⟩ := Option.map_eq_some_iff.mp h
        cases fetched with
        | error err => cases h
        | ok infos =>
          refine ⟨user, candidates, infos, ⟨⟨others, huser⟩, hliked, hfetched⟩, ?_⟩
          exact (Outcome.ranked.inj h).symm

/-! ### The candidates -/

/-- The videos that the user with this id likes. -/
def UserServiceServer.likes (udb : UserServiceServer) (id : UInt64) : List UInt64 :=
  match udb.users id with
  | some info => info.likedVideos
  | none => []

/-- The videos liked by those a user subscribes to. -/
def UserServiceServer.liked (udb : UserServiceServer) (user : UserInfo) : List UInt64 :=
  user.subscribedTo.flatMap udb.likes

section Candidates

variable {udb : UserServiceServer} {vdb : VideoServiceServer} {userCalls videoCalls : ℕ → Delivery} {cfg : Config}
  {fuel : ℕ} {req : GetTopVideosRequest} {user : UserInfo} {candidates : List UInt64} {infos : List VideoInfo}

theorem flatMap_likedVideos {ids : List UInt64} {users : List UserInfo}
    (h : List.Forall₂ (fun id info => udb.users id = some info) ids users) :
    users.flatMap UserInfo.likedVideos = ids.flatMap udb.likes := by
  induction h with
  | nil => rfl
  | cons hid _ ih => rw [List.flatMap_cons, List.flatMap_cons, ih, UserServiceServer.likes, hid]

/-- The candidates are the liked videos, with repetitions. -/
theorem candidates_eq_liked
    (h : likedBySubscriptions cfg (.ofServers udb vdb userCalls videoCalls) fuel user.subscribedTo = some (.ok candidates)) :
    candidates = udb.liked user := by
  have hcall : ∀ k ids found, ((Backend.ofServers udb vdb userCalls videoCalls).getUser (k + 1) ids).map
      (·.flatMap UserInfo.likedVideos) = .ok found → found = ids.flatMap udb.likes := by
    intro k ids found hfound
    cases husers : (Backend.ofServers udb vdb userCalls videoCalls).getUser (k + 1) ids with
    | error err => simp [husers, Except.map] at hfound
    | ok users =>
      obtain rfl : users.flatMap UserInfo.likedVideos = found := by simpa [husers, Except.map] using hfound
      exact flatMap_likedVideos (Backend.getUser_ofServers husers)
  obtain ⟨⟨found, err⟩, hloop, h⟩ := Option.map_eq_some_iff.mp h
  cases err with
  | some err => cases h
  | none =>
    obtain rfl : found = candidates := by simpa using h
    obtain ⟨rest, rfl, hrest⟩ := batchLoop_rel (R := fun ids found => found = ids.flatMap udb.likes) rfl
      (fun hxs hys => by rw [hxs, hys, List.flatMap_append]) (fun c _ => hcall c.1 c.2) le_rfl hloop
    exact hrest

/-- Videos fetched are those stored under the ids, in order. -/
theorem forall₂_of_fetchVideos {ids : List UInt64}
    (h : fetchVideos cfg (.ofServers udb vdb userCalls videoCalls) fuel ids = some (.ok infos)) :
    List.Forall₂ (fun id info => vdb.videos id = some info) ids infos := by
  rw [fetchVideos] at h
  split_ifs at h
  obtain ⟨⟨found, err⟩, hloop, h⟩ := Option.map_eq_some_iff.mp h
  cases err with
  | some err => cases h
  | none =>
    obtain rfl : found = infos := by simpa using h
    obtain ⟨rest, rfl, hrest⟩ := batchLoop_rel
      (R := List.Forall₂ fun id info => vdb.videos id = some info) .nil (fun hxs hys => List.rel_append hxs hys)
      (fun _ _ _ hcall => Backend.getVideo_ofServers hcall) le_rfl hloop
    exact hrest

/-- The requester is the user stored under the requested id. -/
theorem Ranked.users_eq (h : Ranked cfg (.ofServers udb vdb userCalls videoCalls) fuel req user candidates infos) :
    udb.users req.userId = some user := by
  obtain ⟨others, hothers⟩ := h.requester
  have husers := Backend.getUser_ofServers hothers
  exact (List.forall₂_cons.mp husers).1

/-- A candidate is liked by someone the user subscribes to. -/
theorem mem_liked {id : UInt64} : id ∈ udb.liked user ↔
    ∃ other ∈ user.subscribedTo, ∃ info, udb.users other = some info ∧ id ∈ info.likedVideos := by
  rw [UserServiceServer.liked, List.mem_flatMap]
  refine exists_congr fun other => and_congr_right fun _ => ?_
  rw [UserServiceServer.likes]
  cases udb.users other <;> simp

/-- Where each video carries its own id, the ids of those found are the ids asked for. -/
theorem map_videoId {ids : List UInt64} (hids : ∀ id info, vdb.videos id = some info → info.videoId = id)
    (h : List.Forall₂ (fun id info => vdb.videos id = some info) ids infos) : infos.map VideoInfo.videoId = ids := by
  induction h with
  | nil => rfl
  | cons hid _ ih => rw [List.map_cons, ih, hids _ _ hid]

theorem stored_of_mem {ids : List UInt64} (hids : ∀ id info, vdb.videos id = some info → info.videoId = id)
    (h : List.Forall₂ (fun id info => vdb.videos id = some info) ids infos) :
    ∀ v ∈ infos, vdb.videos v.videoId = some v := by
  induction h with
  | nil => simp
  | cons hid _ ih =>
    refine List.forall_mem_cons.mpr ⟨?_, ih⟩
    rw [hids _ _ hid, hid]

end Candidates

/-! ### The answers -/

/-- **A personalised answer is a correct top.** Whatever gets lost or fails on the way: if the
call is answered with ranked videos, these are different videos, each liked by someone the
requester subscribes to, ordered by their score for the requester, as many as the limit allows,
and none that was left out has a higher score than one of them. -/
theorem top_videos_correct {udb : UserServiceServer} {vdb : VideoServiceServer} {userCalls videoCalls : ℕ → Delivery}
    {cfg : Config} {digest : UInt64 → UInt64} {sorter : Sorter} {fuel : ℕ} {req : GetTopVideosRequest}
    {videos : List VideoInfo} (hids : ∀ id info, vdb.videos id = some info → info.videoId = id)
    (hlimit : 0 < req.limit)
    (h : recommend cfg (BcryptRanker.rank digest) sorter (.ofServers udb vdb userCalls videoCalls) fuel req =
      some (.ranked videos)) :
    ∃ user, udb.users req.userId = some user ∧
      (videos.map VideoInfo.videoId).Nodup ∧
      (∀ v ∈ videos, vdb.videos v.videoId = some v ∧
        ∃ other ∈ user.subscribedTo, ∃ info, udb.users other = some info ∧ v.videoId ∈ info.likedVideos) ∧
      (videos.Pairwise fun v w => BcryptRanker.rank digest user.userCoefficients w.videoCoefficients ≤
        BcryptRanker.rank digest user.userCoefficients v.videoCoefficients) ∧
      (videos.length : ℤ) = min req.limit (udb.liked user).toFinset.card ∧
      ∀ id ∈ udb.liked user, id ∉ videos.map VideoInfo.videoId → ∃ omitted, vdb.videos id = some omitted ∧
        ∀ v ∈ videos, BcryptRanker.rank digest user.userCoefficients omitted.videoCoefficients ≤
          BcryptRanker.rank digest user.userCoefficients v.videoCoefficients := by
  obtain ⟨user, candidates, infos, hranked, rfl⟩ := recommend_ranked h
  obtain rfl := candidates_eq_liked hranked.liked
  have hfetched := forall₂_of_fetchVideos hranked.fetched
  have hmap := map_videoId hids hfetched
  have hlength : infos.length = (udb.liked user).toFinset.card := by
    rw [← length_deduplicateIds, ← hfetched.length_eq]
  obtain ⟨rest, hperm, hsorted⟩ := topVideos_spec (BcryptRanker.rank digest) sorter user infos req.limit
  obtain ⟨hpairwise, -, hrest⟩ := List.pairwise_append.mp hsorted
  have hnodup : ((topVideos (BcryptRanker.rank digest) sorter user infos req.limit ++ rest).map VideoInfo.videoId).Nodup := by
    rw [(hperm.map VideoInfo.videoId).nodup_iff, hmap]
    exact nodup_deduplicateIds _
  refine ⟨user, hranked.users_eq, ?_, fun v hv => ?_, hpairwise, ?_, fun id hid hout => ?_⟩
  · rw [List.map_append] at hnodup
    exact hnodup.of_append_left
  · have hv' : v ∈ infos := hperm.subset (List.mem_append_left _ hv)
    have hid : v.videoId ∈ deduplicateIds (udb.liked user) := hmap ▸ List.mem_map_of_mem hv'
    exact ⟨stored_of_mem hids hfetched v hv', mem_liked.mp (mem_deduplicateIds.mp hid)⟩
  · rw [length_topVideos hlimit.le, hlength]
  · have hid' : id ∈ infos.map VideoInfo.videoId := by rwa [hmap, mem_deduplicateIds]
    obtain ⟨omitted, homitted, rfl⟩ := List.mem_map.mp hid'
    refine ⟨omitted, stored_of_mem hids hfetched omitted homitted, fun v hv => ?_⟩
    rcases List.mem_append.mp (hperm.symm.subset homitted) with hmem | hmem
    · exact absurd (List.mem_map_of_mem hmem) hout
    · exact hrest v hv omitted hmem

/-! #### Two who like three videos -/

/-- The user `1` subscribes to `2` and `3`, who like `7`, `8` and `9`. -/
def threeLiked : UserServiceServer where
  maxBatchSize := 10
  users id :=
    if id = 1 then some ⟨1, [2, 3, 2], AList.singleton 0 1, []⟩
    else if id = 2 then some ⟨2, [], ∅, [7, 8]⟩
    else if id = 3 then some ⟨3, [], ∅, [8, 9]⟩
    else none

/-- A video whose only coefficient is its id. -/
def plainVideo (id : UInt64) : VideoInfo := ⟨id, "title", "author", "url", AList.singleton 0 id⟩

def threeVideos : VideoServiceServer where
  maxBatchSize := 10
  videos id := if id ∈ [7, 8, 9] then some (plainVideo id) else none

/-- Mock clients, and batches of two. -/
def byTwos : Config := makeVideoRecServiceServerWithMocks ⟨2, true, 4⟩

/-- Nothing fails. -/
def threeUp : Backend := .ofServers threeLiked threeVideos (fun _ => .handled false) fun _ => .handled false

/-- What a call of the user `1` comes to. -/
def recommendThree (limit : ℤ) : Option Outcome :=
  recommend byTwos (BcryptRanker.rank id) .insertion threeUp 5 ⟨1, limit⟩

theorem top_videos_correct_byTwos : recommendThree 2 = some (.ranked [plainVideo 9, plainVideo 8]) ∧
    ∃ user, threeLiked.users 1 = some user ∧ min (2 : ℤ) (threeLiked.liked user).toFinset.card = 2 := by
  have hrun : recommendThree 2 = some (.ranked [plainVideo 9, plainVideo 8]) := rfl
  have hids : ∀ id info, threeVideos.videos id = some info → info.videoId = id := by
    intro id info hinfo
    simp only [threeVideos] at hinfo
    split_ifs at hinfo
    exact (Option.some.inj hinfo) ▸ rfl
  have hlimit : 0 < (⟨1, 2⟩ : GetTopVideosRequest).limit := by decide
  obtain ⟨user, huser, -, -, -, hlength, -⟩ := top_videos_correct hids hlimit hrun
  exact ⟨hrun, user, huser, hlength.symm⟩

/-! ### The limit -/

/-- The number of videos that a limit asks for, of `n`: `0` asks for all. -/
def limited (limit : ℤ) (n : ℕ) : ℤ := if limit = 0 then n else min limit n

/-- The cache answers with as many videos as the limit asks for. -/
theorem length_fallBack {cache : TrendingVideos} {req : GetTopVideosRequest} {response : GetTopVideosResponse}
    (hlimit : 0 ≤ req.limit) (h : fallBack cache req = .ok response) :
    (response.videos.length : ℤ) = limited req.limit cache.videos.length := by
  simp only [fallBack] at h
  split_ifs at h with hcache hcut <;> obtain rfl := Except.ok.inj h
  · simp only [List.length_take, limited]
    rw [if_neg (by omega)]
    omega
  · simp only [List.length_take, limited]
    split_ifs <;> omega

/-- The ranked videos are as many as the limit asks for if it is not `0`, or there are none. -/
theorem length_topVideos_iff {rank : Coefficients → Coefficients → UInt64} {sorter : Sorter} {user : UserInfo}
    {infos : List VideoInfo} {limit : ℤ} (hlimit : 0 ≤ limit) :
    ((topVideos rank sorter user infos limit).length : ℤ) = limited limit infos.length ↔ limit ≠ 0 ∨ infos = [] := by
  rw [length_topVideos hlimit, limited, ← List.length_eq_zero_iff]
  split_ifs <;> omega

/-- **The limit.** The fallback respects it. So does the answer with ranked videos, exactly if
the limit is not `0` or there are no candidates. -/
theorem limit_respected_iff {req : GetTopVideosRequest} (hlimit : 0 ≤ req.limit) :
    (∀ cfg rank sorter b fuel videos, recommend cfg rank sorter b fuel req = some (.ranked videos) →
      ∃ user candidates infos, Ranked cfg b fuel req user candidates infos ∧
        videos = topVideos rank sorter user infos req.limit ∧
        ((videos.length : ℤ) = limited req.limit infos.length ↔ req.limit ≠ 0 ∨ infos = [])) ∧
    ∀ cache response, fallBack cache req = .ok response →
      (response.videos.length : ℤ) = limited req.limit cache.videos.length := by
  refine ⟨fun cfg rank sorter b fuel videos h => ?_, fun cache response h => length_fallBack hlimit h⟩
  obtain ⟨user, candidates, infos, hranked, rfl⟩ := recommend_ranked h
  exact ⟨user, candidates, infos, hranked, rfl, length_topVideos_iff hlimit⟩

/-- The cache with the same three videos. -/
def threeTrending : TrendingVideos := ⟨[plainVideo 7, plainVideo 8, plainVideo 9], 0⟩

theorem limit_respected_iff_two :
    (∃ user candidates infos, Ranked byTwos threeUp 5 ⟨1, 2⟩ user candidates infos ∧ (2 : ℤ) = limited 2 infos.length) ∧
    fallBack threeTrending ⟨1, 2⟩ = .ok ⟨[plainVideo 7, plainVideo 8], true⟩ := by
  have hlimit : 0 ≤ (⟨1, 2⟩ : GetTopVideosRequest).limit := by decide
  have hrun : recommendThree 2 = some (.ranked [plainVideo 9, plainVideo 8]) := rfl
  obtain ⟨user, candidates, infos, hranked, -, hiff⟩ := (limit_respected_iff hlimit).1 _ _ _ _ _ _ hrun
  exact ⟨⟨user, candidates, infos, hranked, hiff.mpr (.inl (by decide))⟩, rfl⟩

/-- **A limit of `0`.** There are three candidates and none is recommended; from the cache all
three are. -/
theorem limit_zero_differs : recommendThree 0 = some (.ranked []) ∧
    (∃ user candidates infos, Ranked byTwos threeUp 5 ⟨1, 0⟩ user candidates infos ∧ limited 0 infos.length = 3) ∧
    fallBack threeTrending ⟨1, 0⟩ = .ok ⟨[plainVideo 7, plainVideo 8, plainVideo 9], true⟩ :=
  ⟨rfl, ⟨_, _, _, ⟨⟨_, rfl⟩, rfl, rfl⟩, rfl⟩, rfl⟩

end Cs426.VideoRec
