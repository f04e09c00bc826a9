import Cs426.Lib.Machine
import Cs426.VideoRec.Basic

/-!
# The video recommendation service under concurrent requests

The state that the calls of `GetTopVideos`, the calls of `GetStats` and the loop of
`fetchTrendingVideos` share: the atomic counters and the cache of trending videos.

## The model

A call of `GetTopVideos` is cut at its atomic updates: between two of them it is in a
`Phase`, and everything it does on its own, its requests to the services included, is the one
label `work`. The deferred updates run in the opposite order of their `defer` statements:
the latency if there is one, then `numTopVideoRequests`, then `numActiveRequests`. `fallBack`
reads the cache once, under its lock; the counter it bumps and the slice it returns are
touched by no one in between. A call of `GetStats` is nine atomic loads, in the order in
which Go evaluates them; what has been loaded is 64 bits, whatever they stand for. Counters
wrap around as those of the source do.
-/

namespace Cs426.VideoRec

/-- The atomic counters of a `VideoRecServiceServer`. -/
structure Counters where
  numTopVideoRequests : UInt64
  numTopVideoErrs : UInt64
  numActiveRequests : Int64
  numUserServiceErrs : UInt64
  numVideoServiceErrs : UInt64
  totalLatency : Int64
  numStaleResponse : UInt64

/-- How a call of `GetTopVideos` ends. -/
inductive Exit where
  /-- With ranked videos. -/
  | answered (videos : List VideoInfo)
  /-- With whatever `fallBack` returned. -/
  | fellBack (result : Except Status GetTopVideosResponse)
  /-- With the error of a service. -/
  | failed (err : Status)

/-- What the call returns. -/
def Exit.result : Exit → Except Status GetTopVideosResponse
  | answered videos => .ok ⟨videos, false⟩
  | fellBack result => result
  | failed err => .error err

/-- How far a call of `GetTopVideos` has come: what it is about to do. -/
inductive Phase where
  /-- Count itself as active. -/
  | called (req : GetTopVideosRequest)
  /-- Ask the services. -/
  | active (req : GetTopVideosRequest)
  /-- Count an error of `UserService`. -/
  | userErr (err : Status) (req : GetTopVideosRequest)
  /-- Count an error of `VideoService`. -/
  | videoErr (err : Status) (req : GetTopVideosRequest)
  /-- Read the cache in `fallBack`. -/
  | fallingBack (req : GetTopVideosRequest)
  /-- Count a stale response. -/
  | stale (response : GetTopVideosResponse)
  /-- Count an error of its own. -/
  | erring (err : Status)
  /-- Add its latency: the first of the deferred updates. -/
  | timing (videos : List VideoInfo) (latency : Int64)
  /-- Count itself as a request. -/
  | leaving (exit : Exit)
  /-- Stop being active. -/
  | closing (exit : Exit)
  | returned (exit : Exit)

structure Service where
  counters : Counters
  fallBackVideos : TrendingVideos
  /-- The calls of `GetTopVideos`, the oldest first. -/
  calls : List Phase
  /-- The calls of `GetStats`, each with what it has loaded so far. -/
  stats : List (List UInt64)

/-- What can happen. -/
inductive Label where
  | getTopVideos (req : GetTopVideosRequest)
  /-- The `i`-th call asks the services and sorts what it got; `latency` is the time it took. -/
  | work (i : ℕ) (b : Backend) (sorter : Sorter) (fuel : ℕ) (latency : Int64)
  /-- The `i`-th call makes its next atomic update, or reads the cache. -/
  | next (i : ℕ)
  /-- One turn of the loop of `fetchTrendingVideos`. -/
  | refresh (r : Refresh) (fuel : ℕ)
  | getStats
  /-- The `j`-th call of `GetStats` makes its next load. -/
  | load (j : ℕ)

/-- A server as it is made, with nothing in its cache. -/
def Service.fresh : Service := ⟨⟨0, 0, 0, 0, 0, 0, 0⟩, ⟨[], 0⟩, [], []⟩

/-! ### Steps of a call -/

/-- Where a call goes after it has counted an error of a service. -/
def afterServiceErr (cfg : Config) (err : Status) (req : GetTopVideosRequest) : Phase :=
  if cfg.options.disableFallback = false then .fallingBack req else .erring err

/-- Where a call goes when the services have answered. -/
def Outcome.phase (req : GetTopVideosRequest) (latency : Int64) : Outcome → Phase
  | userServiceErr err => .userErr err req
  | videoServiceErr err => .videoErr err req
  | ranked videos => .timing videos latency

/-- The next phase of a call, and what it does to the counters. -/
def Phase.next (cfg : Config) (cache : TrendingVideos) (c : Counters) : Phase → Option (Phase × Counters)
  | called req => some (.active req, { c with numActiveRequests := c.numActiveRequests + 1 })
  | active _ => none
  | userErr err req =>
    some (afterServiceErr cfg err req, { c with numUserServiceErrs := c.numUserServiceErrs + 1 })
  | videoErr err req =>
    some (afterServiceErr cfg err req, { c with numVideoServiceErrs := c.numVideoServiceErrs + 1 })
  | fallingBack req =>
    match fallBack cache req with
    | .ok response => some (.stale response, c)
    | .error err => some (.leaving (.fellBack (.error err)), c)
  | stale response =>
    some (.leaving (.fellBack (.ok response)), { c with numStaleResponse := c.numStaleResponse + 1 })
  | erring err => some (.leaving (.failed err), { c with numTopVideoErrs := c.numTopVideoErrs + 1 })
  | timing videos latency =>
    some (.leaving (.answered videos), { c with totalLatency := c.totalLatency + latency })
  | leaving exit => some (.closing exit, { c with numTopVideoRequests := c.numTopVideoRequests + 1 })
  | closing exit => some (.returned exit, { c with numActiveRequests := c.numActiveRequests - 1 })
  | returned _ => none

/-! ### `GetStats` -/

/-- The loads of `GetStats`, in order: three for the average latency, then one per field. -/
def statsLoads : List (Counters → UInt64) :=
  [fun c => c.totalLatency.toUInt64, Counters.numTopVideoRequests, Counters.numTopVideoErrs,
    Counters.numTopVideoRequests, Counters.numTopVideoErrs, fun c => c.numActiveRequests.toUInt64,
    Counters.numUserServiceErrs, Counters.numVideoServiceErrs, Counters.numStaleResponse]

structure GetStatsResponse where
  totalRequests : UInt64
  totalErrors : UInt64
  activeRequests : UInt64
  userServiceErrors : UInt64
  videoServiceErrors : UInt64
  staleResponses : UInt64
  /-- The total latency and the number it is divided by; the division in `float32` is left
  out. -/
  averageLatencyMs : Int64 × UInt64
deriving DecidableEq

/-- The response, once all loads are made. -/
def getStatsResponse : List UInt64 → Option GetStatsResponse
  | [latency, requests, errs, totalRequests, totalErrors, active, userErrs, videoErrs, stale] =>
    some ⟨totalRequests, totalErrors, active, userErrs, videoErrs, stale, (latency.toInt64, requests - errs)⟩
  | _ => none

/-! ### The machine -/

namespace Service

section Steps

variable (cfg : Config) (rank : Coefficients → Coefficients → UInt64)

/-- One step of the service. -/
def step (s : Service) : Label → Option Service
  | .getTopVideos req => some { s with calls := s.calls ++ [.called req] }
  | .work i b sorter fuel latency =>
    match s.calls[i]? with
    | some (.active req) => (recommend cfg rank sorter b fuel req).map fun outcome =>
        { s with calls := s.calls.set i (outcome.phase req latency) }
    | _ => none
  | .next i =>
    s.calls[i]?.bind fun phase => (phase.next cfg s.fallBackVideos s.counters).map fun r =>
      { s with calls := s.calls.set i r.1, counters := r.2 }
  | .refresh r fuel =>
    (fetchTrendingVideos cfg r fuel s.fallBackVideos).map fun cache => { s with fallBackVideos := cache }
  | .getStats => some { s with stats := s.stats ++ [[]] }
  | .load j =>
    s.stats[j]?.bind fun loaded => statsLoads[loaded.length]?.map fun load =>
      { s with stats := s.stats.set j (loaded ++ [load s.counters]) }

variable {cfg rank} {s s' : Service}

theorem step_work_iff {i : ℕ} {b : Backend} {sorter : Sorter} {fuel : ℕ} {latency : Int64} :
    s.step cfg rank (.work i b sorter fuel latency) = some s' ↔ ∃ req outcome, s.calls[i]? = some (.active req) ∧
      recommend cfg rank sorter b fuel req = some outcome ∧
      s' = { s with calls := s.calls.set i (outcome.phase req latency) } := by
  simp only [step]
  constructor
  · intro h
    split at h
    · next req hreq =>
      obtain ⟨outcome, ho, rfl⟩ := Option.map_eq_some_iff.mp h
      exact ⟨req, outcome, hreq, ho, rfl⟩
    · cases h
  · rintro ⟨req, outcome, hreq, ho, rfl⟩
    simp [hreq, ho]

theorem step_next_iff {i : ℕ} : s.step cfg rank (.next i) = some s' ↔ ∃ phase phase' c', s.calls[i]? = some phase ∧
    phase.next cfg s.fallBackVideos s.counters = some (phase', c') ∧
    s' = { s with calls := s.calls.set i phase', counters := c' } := by
  simp only [step, Option.bind_eq_some_iff, Option.map_eq_some_iff, Prod.exists, eq_comm (a := s')]
  exact ⟨fun ⟨p, hp, p', c', hn, hs⟩ => ⟨p, p', c', hp, hn, hs⟩, fun ⟨p, p', c', hp, hn, hs⟩ => ⟨p, hp, p', c', hn, hs⟩⟩

theorem step_refresh_iff {r : Refresh} {fuel : ℕ} : s.step cfg rank (.refresh r fuel) = some s' ↔
    ∃ cache, fetchTrendingVideos cfg r fuel s.fallBackVideos = some cache ∧
      s' = { s with fallBackVideos := cache } := by
  simp only [step, Option.map_eq_some_iff, eq_comm (a := s')]

theorem step_load_iff {j : ℕ} : s.step cfg rank (.load j) = some s' ↔ ∃ loaded load, s.stats[j]? = some loaded ∧
    statsLoads[loaded.length]? = some load ∧
    s' = { s with stats := s.stats.set j (loaded ++ [load s.counters]) } := by
  simp only [step, Option.bind_eq_some_iff, Option.map_eq_some_iff, eq_comm (a := s')]
  exact ⟨fun ⟨l, hl, f, hf, hs⟩ => ⟨l, f, hl, hf, hs⟩, fun ⟨l, f, hl, hf, hs⟩ => ⟨l, hl, f, hf, hs⟩⟩

/-- **What a step does to the calls and the counters**: nothing; or a call arrives; or one
call moves on, with the services' answers or by its next update. -/
theorem step_cases {l : Label} (h : s.step cfg rank l = some s') :
    (s'.calls = s.calls ∧ s'.counters = s.counters) ∨
    (∃ req, s'.calls = s.calls ++ [.called req] ∧ s'.counters = s.counters) ∨
    ∃ i phase phase', s.calls[i]? = some phase ∧ s'.calls = s.calls.set i phase' ∧
      ((∃ req outcome latency, phase = .active req ∧ phase' = Outcome.phase req latency outcome ∧
          s'.counters = s.counters) ∨
        l = .next i ∧ phase.next cfg s.fallBackVideos s.counters = some (phase', s'.counters)) := by
  cases l with
  | getTopVideos req =>
    cases h
    exact Or.inr (Or.inl ⟨req, rfl, rfl⟩)
  | work i b sorter fuel latency =>
    obtain ⟨req, outcome, hreq, -, rfl⟩ := step_work_iff.mp h
    exact Or.inr (Or.inr ⟨i, _, _, hreq, rfl, Or.inl ⟨req, outcome, latency, rfl, rfl, rfl⟩⟩)
  | next i =>
    obtain ⟨phase, phase', c', hp, hn, rfl⟩ := step_next_iff.mp h
    exact Or.inr (Or.inr ⟨i, phase, phase', hp, rfl, Or.inr ⟨rfl, hn⟩⟩)
  | refresh r fuel =>
    obtain ⟨cache, -, rfl⟩ := step_refresh_iff.mp h
    exact Or.inl ⟨rfl, rfl⟩
  | getStats =>
    cases h
    exact Or.inl ⟨rfl, rfl⟩
  | load j =>
    obtain ⟨loaded, load, -, -, rfl⟩ := step_load_iff.mp h
    exact Or.inl ⟨rfl, rfl⟩

end Steps

end Service

end Cs426.VideoRec
