import Mathlib.Algebra.Order.Ring.Int
import Mathlib.Data.List.AList
import Mathlib.Data.List.Sort
import Cs426.Lib.Batches

/-!
# The video recommendation service, one request at a time

`lab1/video_rec_service/server_lib/server_lib.go` without its shared state: what one
`GetTopVideos` call asks of `UserService` and `VideoService` and makes of the answers, what
`fallBack` answers from the cache of trending videos, and what one turn of the loop of
`fetchTrendingVideos` leaves in that cache.

## The model

What the two services answer is in a `Backend`: the `k`-th `GetUser` and the `k`-th
`GetVideo` call of a request may each answer as they like. A panic is `none`: no user in the
first response, no connection to choose from, a slice out of range, and `Close` of a
connection that was never made. The loops over batches take `fuel`, since with a
`MaxBatchSize` of `0` they need not end. Batch bounds go through `float64` in the source,
which is exact for lists shorter than `2 ^ 53`. `sort.Slice` is not stable: a `Sorter` is any
way to sort by score, and the score itself is a parameter `rank`. Fields of the messages that
the service neither reads nor returns, and the log lines, are left out.
-/

namespace Cs426.VideoRec

open Cs426.Batches

/-- The gRPC codes the service itself returns; any other one is an `other`. -/
inductive Code where
  | unknown
  | unavailable
  | other (code : ℕ)
deriving DecidableEq

structure Status where
  code : Code
  message : String
deriving DecidableEq

/-- Coefficients by feature id. -/
abbrev Coefficients := AList fun _ : Int32 => UInt64

structure UserInfo where
  userId : UInt64
  subscribedTo : List UInt64
  userCoefficients : Coefficients
  likedVideos : List UInt64

structure VideoInfo where
  videoId : UInt64
  title : String
  author : String
  url : String
  videoCoefficients : Coefficients

structure GetTopVideosRequest where
  userId : UInt64
  /-- An `int32`. -/
  limit : ℤ

structure GetTopVideosResponse where
  videos : List VideoInfo
  staleResponse : Bool

structure GetTrendingVideosResponse where
  videos : List UInt64
  expirationTimeS : UInt64

structure VideoRecServiceOptions where
  maxBatchSize : ℤ
  disableFallback : Bool
  clientPoolSize : ℤ

/-- How a server was made: its options, and whether it talks to mock clients. -/
structure Config where
  options : VideoRecServiceOptions
  mockUserFlag : Bool
  mockVideoFlag : Bool

/-- `MakeVideoRecServiceServer`. -/
def makeVideoRecServiceServer (options : VideoRecServiceOptions) : Config := ⟨options, false, false⟩

/-- `MakeVideoRecServiceServerWithMocks`. -/
def makeVideoRecServiceServerWithMocks (options : VideoRecServiceOptions) : Config := ⟨options, true, true⟩

/-- What the services answer to the calls of one request. -/
structure Backend where
  getUser : ℕ → List UInt64 → Except Status (List UserInfo)
  getVideo : ℕ → List UInt64 → Except Status (List VideoInfo)

structure RankPair where
  vi : VideoInfo
  score : UInt64

/-- A way to sort by score, the highest first. -/
structure Sorter where
  sort : List RankPair → List RankPair
  perm : ∀ pairs, (sort pairs).Perm pairs
  sorted : ∀ pairs, (sort pairs).Pairwise fun a b => b.score ≤ a.score

/-- Insertion sort, as one way to sort. -/
def Sorter.insertion : Sorter where
  sort := List.insertionSort fun a b => b.score ≤ a.score
  perm := List.perm_insertionSort _
  sorted pairs := List.pairwise_insertionSort (fun a b : RankPair => b.score ≤ a.score) pairs

/-! ### `GetTopVideos` -/

/-- The loop of `deduplicateIds`, the ids in `set` having been seen. -/
def dedupLoop : List UInt64 → List UInt64 → List UInt64
  | _, [] => []
  | set, id :: ids => if id ∈ set then dedupLoop set ids else id :: dedupLoop (id :: set) ids

def deduplicateIds (ids : List UInt64) : List UInt64 := dedupLoop [] ids

/-- The second stage: the videos liked by the users with these ids, asked for in batches. The
first `GetUser` call of the request was made before. -/
def likedBySubscriptions (cfg : Config) (b : Backend) (fuel : ℕ) (ids : List UInt64) :
    Option (Except Status (List UInt64)) :=
  (batchLoop cfg.options.maxBatchSize
    (fun k batch => (b.getUser (k + 1) batch).map (·.flatMap UserInfo.likedVideos)) ids fuel 0 0 []).map fun
    | (candidates, none) => .ok candidates
    | (_, some err) => .error err

/-- `getClientRoundRobin` has a connection to choose. -/
def hasClient (cfg : Config) (mock : Bool) : Bool := mock || decide (0 < cfg.options.clientPoolSize)

def fetchVideos (cfg : Config) (b : Backend) (fuel : ℕ) (videoCandids : List UInt64) :
    Option (Except Status (List VideoInfo)) :=
  if hasClient cfg cfg.mockVideoFlag then
    (batchLoop cfg.options.maxBatchSize b.getVideo videoCandids fuel 0 0 []).map fun
      | (videoInfos, none) => .ok videoInfos
      | (_, some _) =>
        .error ⟨.unavailable, "Video service client fail to get the video responses from the server"⟩
  else none

/-- The videos with the highest scores, as many as the limit says. -/
def topVideos (rank : Coefficients → Coefficients → UInt64) (sorter : Sorter) (user : UserInfo)
    (infos : List VideoInfo) (limit : ℤ) : List VideoInfo :=
  let arr := sorter.sort (infos.map fun vi => ⟨vi, rank user.userCoefficients vi.videoCoefficients⟩)
  let iterLen := if limit < arr.length then limit else arr.length
  (arr.take iterLen.toNat).map RankPair.vi

/-- What a call has come to when all its requests to the services are answered. -/
inductive Outcome where
  | userServiceErr (err : Status)
  | videoServiceErr (err : Status)
  | ranked (videos : List VideoInfo)

/-- `GetTopVideos` up to the point where it fails or has its videos. -/
def recommend (cfg : Config) (rank : Coefficients → Coefficients → UInt64) (sorter : Sorter) (b : Backend)
    (fuel : ℕ) (req : GetTopVideosRequest) : Option Outcome :=
  if hasClient cfg cfg.mockUserFlag then
    match b.getUser 0 [req.userId] with
    | .error err =>
      some (.userServiceErr
        (if cfg.mockUserFlag then ⟨.unknown, "Mock User service client returned Error"⟩ else err))
    | .ok [] => none
    | .ok (user :: _) =>
      (likedBySubscriptions cfg b fuel user.subscribedTo).bind fun
        | .error err => some (.userServiceErr err)
        | .ok candidates =>
          (fetchVideos cfg b fuel (deduplicateIds candidates)).map fun
            | .error err => .videoServiceErr err
            | .ok infos => .ranked (topVideos rank sorter user infos req.limit)
  else none

/-! ### The cache of trending videos -/

structure TrendingVideos where
  videos : List VideoInfo
  expireTime : ℤ

def fallBack (cache : TrendingVideos) (req : GetTopVideosRequest) : Except Status GetTopVideosResponse :=
  if cache.videos ≠ [] then
    let iterLen := if req.limit < cache.videos.length ∧ 0 < req.limit then req.limit else cache.videos.length
    .ok ⟨cache.videos.take iterLen.toNat, true⟩
  else .error ⟨.unavailable, "Fallback fails, no trending video cache is available"⟩

/-- Conversion of a `uint64` to `int64`. -/
def int64 (x : UInt64) : ℤ := (x.toNat : ℤ).bmod (2 ^ 64)

/-- What happens around one turn of `fetchTrendingVideos`: the clock in seconds, and what
dialling, `GetTrendingVideos` and the `k`-th `GetVideo` call answer. -/
structure Refresh where
  now : ℤ
  dial : Except Status Unit
  getTrendingVideos : Except Status GetTrendingVideosResponse
  getVideo : ℕ → List UInt64 → Except Status (List VideoInfo)

/-- The cache after one turn of the loop. A failure of `GetTrendingVideos` leads to
`vconn.Close()`, and `vconn` is nil with a mock client; so it is when dialling failed. A
failure of `GetVideo` leaves the inner loop, and the cache is written as without it. -/
def fetchTrendingVideos (cfg : Config) (r : Refresh) (fuel : ℕ) (cache : TrendingVideos) : Option TrendingVideos :=
  if r.now ≤ cache.expireTime then some cache
  else if cfg.mockVideoFlag = false ∧ r.dial.isOk = false then none
  else
    match r.getTrendingVideos with
    | .error _ => if cfg.mockVideoFlag then none else some cache
    | .ok response =>
      (batchLoop cfg.options.maxBatchSize r.getVideo response.videos fuel 0 0 []).map fun fetched =>
        ⟨fetched.1, int64 response.expirationTimeS⟩

/-- `fallBack` fails exactly on an empty cache. -/
theorem fallBack_error_iff {cache : TrendingVideos} {req : GetTopVideosRequest} :
    (∃ err, fallBack cache req = .error err) ↔ cache.videos = [] := by
  unfold fallBack
  by_cases h : cache.videos = [] <;> simp [h]

end Cs426.VideoRec
