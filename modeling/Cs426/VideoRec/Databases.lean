import Cs426.Lib.Draws
import Cs426.VideoRec.Batching

/-!
# The databases of the two services fit together

`UserService` and `VideoService` do not share a database: each of them makes up its own when it
starts, from a seed (`lab1/user_service/server_lib/server_lib.go` and
`lab1/video_service/server_lib/server_lib.go`). The users like videos that are made up in the
other process. What keeps the two together is that both seed `math/rand` alike and that both draw
the number of videos first; the user service does not make any video, but knows which ids exist.

## The model

`math/rand` and `gofakeit` are parameters: any `Source` of numbers and any `Faker` of words, each
with its own state, which `rand.Seed` and `gofakeit.Seed` set. A table is filled by the loop over
the ids. The email, the name and the profile of a user are left out as everywhere in this model,
and with them the words that are drawn for them, which `rand` does not notice.

## What is proved

* `makeRandomUsers_spec`, `makeRandomVideos_spec` — what the tables hold, for any state of the
  generators.
* `closed_of_seed` — of two services with one seed: every user exists that is subscribed to, every
  video that is liked, every video that is trending.
-/

namespace Cs426.VideoRec

open Cs426.Draws

/-! ### Making up data -/

/-- What `gofakeit` can be asked for. -/
inductive Word where
  | adjectiveDescriptive
  | vegetable
  | animal
  | nounUncountable
  | appName
  | hackerVerb
  | adverbPlace
  | name

/-- The state of `gofakeit` after `gofakeit.Seed`, and its words. -/
structure Faker (φ : Type) where
  seed : ℤ → φ
  word : Word → StateM φ String

section Generation

variable {ρ φ : Type} (R : Source ρ) (F : Faker φ)

/-- The constant `USER_ID_OFFSET`. -/
def USER_ID_OFFSET : ℕ := 200000

/-- The constant `VIDEO_ID_OFFSET`. -/
def VIDEO_ID_OFFSET : ℕ := 1000

/-- The coefficients of a user or of a video; features that are drawn twice are overwritten. -/
def makeRandomCoefficients : StateM ρ Coefficients := do
  let coeffCount := (← R.intn 10) + 10
  forLoop (fun _ coeffs => do
    let feature ← R.intn 20
    let coeff ← R.intn 500
    pure (coeffs.insert (Int32.ofNat feature) (UInt64.ofNat coeff))) 0 coeffCount ∅

/-- The loop that draws `n` ids from `offset` on, with repetitions. -/
def drawIds {σ : Type} (draw : StateM σ ℕ) (offset n : ℕ) : StateM σ (List UInt64) :=
  forLoop (fun _ ids => do
    let id := UInt64.ofNat ((← draw) + offset)
    pure (ids ++ [id])) 0 n []

def makeRandomUser (userId : UInt64) (maxUsers maxVideos : ℕ) : StateM ρ UserInfo := do
  let coeffs ← makeRandomCoefficients R
  let subscribeCount := (← R.intn 50) + 10
  let subscribedTo ← forLoop (fun _ subscribedTo => do
    let subscribed := UInt64.ofNat ((← R.intn maxUsers) + USER_ID_OFFSET)
    pure (if subscribed ≠ userId then subscribedTo ++ [subscribed] else subscribedTo)) 0 subscribeCount []
  let likeCount := (← R.intn 20) + 5
  let likedVideos ← drawIds (R.intn maxVideos) VIDEO_ID_OFFSET likeCount
  pure ⟨userId, subscribedTo, coeffs, likedVideos⟩

/-- The loop over `count` ids from `offset` on, each of which gets what `make` makes for it. -/
def fillTable {σ α : Type} (make : UInt64 → StateM σ α) (offset count : ℕ) : StateM σ (UInt64 → Option α) :=
  forLoop (fun i table => do
    let info ← make (UInt64.ofNat i)
    pure (Function.update table (UInt64.ofNat i) (some info))) offset count fun _ => none

def makeRandomUsers : StateM ρ (UInt64 → Option UserInfo) := do
  let videoCount := (← R.intn 500) + 100
  let userCount := (← R.intn 5000) + 5000
  fillTable (fun userId => makeRandomUser R userId userCount videoCount) USER_ID_OFFSET userCount

/-- A draw from `math/rand`, where `gofakeit` is used too. -/
def rand (n : ℕ) : StateM (ρ × φ) ℕ := onFst (R.intn n)

def fake (word : Word) : StateM (ρ × φ) String := onSnd (F.word word)

def makeRandomTitle : StateM (ρ × φ) String := do
  match ← rand R 4 with
  | 0 => pure ((← fake F .adjectiveDescriptive) ++ " " ++ (← fake F .vegetable))
  | 1 => pure ("The " ++ (← fake F .adjectiveDescriptive) ++ " " ++ (← fake F .animal) ++ "'s " ++
      (← fake F .nounUncountable))
  | 2 => pure ((← fake F .appName) ++ ": " ++ (← fake F .hackerVerb))
  | _ => pure ((← fake F .adjectiveDescriptive) ++ " " ++ (← fake F .adverbPlace))

/-- The number of videos, which the source passes too, is not used. -/
def makeRandomVideo (videoId : UInt64) : StateM (ρ × φ) VideoInfo := do
  let title ← makeRandomTitle R F
  let url := "https://video-data.localhost/blob/" ++ toString videoId
  let author ← fake F .name
  let coeffs ← onFst (makeRandomCoefficients R)
  pure ⟨videoId, title, author, url, coeffs⟩

def makeRandomVideos : StateM (ρ × φ) ((UInt64 → Option VideoInfo) × List UInt64) := do
  let videoCount := (← rand R 500) + 100
  let videos ← fillTable (makeRandomVideo R F) VIDEO_ID_OFFSET videoCount
  let topVideoCount := (← rand R 10) + 10
  let topVideos ← drawIds (rand R videoCount) VIDEO_ID_OFFSET topVideoCount
  pure (videos, deduplicateIds topVideos)

/-! ### The servers as they start -/

structure UserServiceOptions where
  seed : ℤ
  maxBatchSize : ℤ

def defaultUserServiceOptions : UserServiceOptions := ⟨42, 50⟩

def makeUserServiceServer (options : UserServiceOptions) : UserServiceServer :=
  ⟨options.maxBatchSize, (makeRandomUsers R (R.seed options.seed)).1⟩

structure VideoServiceOptions where
  seed : ℤ
  ttlSeconds : ℤ
  maxBatchSize : ℤ

def defaultVideoServiceOptions : VideoServiceOptions := ⟨42, 60, 50⟩

/-- A `VideoServiceServer` with what `GetTrendingVideos` reads. -/
structure TrendingServer extends VideoServiceServer where
  ttlSeconds : ℤ
  topVideos : List UInt64

def makeVideoServiceServer (options : VideoServiceOptions) : TrendingServer :=
  let made := (makeRandomVideos R F (R.seed options.seed, F.seed options.seed)).1
  ⟨⟨options.maxBatchSize, made.1⟩, options.ttlSeconds, made.2⟩

end Generation

/-- `GetTrendingVideos`, at the time `now` of the server's clock. -/
def TrendingServer.getTrendingVideos (db : TrendingServer) (shouldError : Bool) (now : ℤ) :
    Except Status GetTrendingVideosResponse :=
  if shouldError then .error ⟨.internal, "VideoService: (injected) internal error!"⟩
  else .ok ⟨db.topVideos, UInt64.ofInt (now + db.ttlSeconds)⟩

/-! ### What the tables hold -/

/-- One of `count` ids from `offset` on. -/
def Within (offset count : ℕ) (id : UInt64) : Prop := offset ≤ id.toNat ∧ id.toNat < offset + count

theorem within_ofNat {offset count k : ℕ} (hk : k < count) (hsize : offset + count ≤ 2 ^ 64) :
    Within offset count (UInt64.ofNat (k + offset)) := by
  have hnat : (UInt64.ofNat (k + offset)).toNat = k + offset := UInt64.toNat_ofNat_of_lt' (by rw [UInt64.size]; omega)
  exact ⟨by omega, by omega⟩

/-- A table with an entry for each of the ids, and what can be said of the entries. -/
structure Table {α : Type} (offset count : ℕ) (P : UInt64 → α → Prop) (table : UInt64 → Option α) : Prop where
  isSome_iff : ∀ id, (table id).isSome = true ↔ Within offset count id
  entry : ∀ id info, table id = some info → P id info

theorem Table.exists_entry {α : Type} {offset count : ℕ} {P : UInt64 → α → Prop} {table : UInt64 → Option α}
    (h : Table offset count P table) {id : UInt64} (hid : Within offset count id) : ∃ info, table id = some info :=
  Option.isSome_iff_exists.mp ((h.isSome_iff id).mpr hid)

/-- The loop fills the table. -/
theorem always_fillTable {σ α : Type} {make : UInt64 → StateM σ α} {P : UInt64 → α → Prop} {offset count : ℕ}
    (hmake : ∀ id, Always (make id) (P id)) (hsize : offset + count ≤ 2 ^ 64) :
    Always (fillTable make offset count) (Table offset count P) := by
  have hloop : Always (fillTable make offset count)
      (fun table => Table offset (offset + count - offset) P table) := by
    refine Always.forLoop (I := fun i table => Table offset (i - offset) P table) (fun i table hi hlt htable => ?_) ?_
    · refine (hmake _).bind fun info hinfo => Always.pure ⟨fun id => ?_, fun id info' hid => ?_⟩
      · have hnat : (UInt64.ofNat i).toNat = i := UInt64.toNat_ofNat_of_lt' (by rw [UInt64.size]; omega)
        by_cases hid : id = UInt64.ofNat i
        · subst hid
          simp only [Function.update_self, Option.isSome_some, true_iff, Within, hnat]
          omega
        · have hne : id.toNat ≠ i := fun h => hid (UInt64.toNat_inj.mp (h.trans hnat.symm))
          rw [Function.update_of_ne hid, htable.isSome_iff]
          simp only [Within]
          omega
      · by_cases hid' : id = UInt64.ofNat i
        · subst hid'
          rw [Function.update_self, Option.some.injEq] at hid
          exact hid ▸ hinfo
        · rw [Function.update_of_ne hid'] at hid
          exact htable.entry id info' hid
    · refine ⟨fun id => ?_, by simp⟩
      simp only [Option.isSome_none, Bool.false_eq_true, false_iff, Within]
      omega
  rwa [Nat.add_sub_cancel_left] at hloop

/-- What can be said of a user among `userCount`, with `videoCount` videos to like. -/
structure PlausibleUser (userCount videoCount : ℕ) (id : UInt64) (user : UserInfo) : Prop where
  userId : user.userId = id
  subscribed : ∀ other ∈ user.subscribedTo, other ≠ id ∧ Within USER_ID_OFFSET userCount other
  liked : ∀ video ∈ user.likedVideos, Within VIDEO_ID_OFFSET videoCount video
  likes : 5 ≤ user.likedVideos.length

/-- Ids that are drawn are ids that exist. -/
theorem always_drawIds {σ : Type} {draw : StateM σ ℕ} {count offset : ℕ} (hdraw : Always draw (· < count))
    (hsize : offset + count ≤ 2 ^ 64) (n : ℕ) :
    Always (drawIds draw offset n) fun ids => ids.length = n ∧ ∀ id ∈ ids, Within offset count id := by
  have hloop : Always (drawIds draw offset n)
      fun ids => ids.length = 0 + n ∧ ∀ id ∈ ids, Within offset count id := by
    refine Always.forLoop (I := fun i (ids : List UInt64) => ids.length = i ∧ ∀ id ∈ ids, Within offset count id)
      (fun i ids _ _ hids => hdraw.bind fun k hk => Always.pure ⟨by simp [hids.1], fun id hid => ?_⟩) ⟨rfl, by simp⟩
    rcases List.mem_append.mp hid with hid | hid
    · exact hids.2 id hid
    · rw [List.mem_singleton.mp hid]
      exact within_ofNat hk hsize
  rwa [Nat.zero_add] at hloop

section Tables

variable {ρ φ : Type} (R : Source ρ) (F : Faker φ)

theorem always_makeRandomUser (userId : UInt64) {maxUsers maxVideos : ℕ} (husers : 0 < maxUsers)
    (hvideos : 0 < maxVideos) (husers' : USER_ID_OFFSET + maxUsers ≤ 2 ^ 64)
    (hvideos' : VIDEO_ID_OFFSET + maxVideos ≤ 2 ^ 64) :
    Always (makeRandomUser R userId maxUsers maxVideos) (PlausibleUser maxUsers maxVideos userId) := by
  refine (Always.any _).bind fun coeffs _ => (Always.any _).bind fun subscribeCount _ => ?_
  have hsubscribed : ∀ n, Always (forLoop (fun _ subscribedTo => do
      let subscribed := UInt64.ofNat ((← R.intn maxUsers) + USER_ID_OFFSET)
      pure (if subscribed ≠ userId then subscribedTo ++ [subscribed] else subscribedTo)) 0 n [])
      fun ids => ∀ id ∈ ids, id ≠ userId ∧ Within USER_ID_OFFSET maxUsers id := by
    intro n
    refine Always.forLoop (I := fun _ (ids : List UInt64) =>
        ∀ id ∈ ids, id ≠ userId ∧ Within USER_ID_OFFSET maxUsers id)
      (fun i ids _ _ hids => (Always.intn R husers).bind fun k hk => Always.pure ?_) (by simp)
    split_ifs with hne
    · intro id hid
      rcases List.mem_append.mp hid with hid | hid
      · exact hids id hid
      · rw [List.mem_singleton.mp hid]
        exact ⟨hne, within_ofNat hk husers'⟩
    · exact hids
  refine (hsubscribed _).bind fun subscribedTo hsub => (Always.any _).bind fun likeCount _ => ?_
  refine (always_drawIds (Always.intn R hvideos) hvideos' _).bind fun likedVideos hliked => Always.pure ?_
  exact ⟨rfl, hsub, hliked.2, by rw [hliked.1]; omega⟩

/-- What is made after the number of videos is drawn. -/
theorem always_makeUsers {videoCount : ℕ} (hpos : 0 < videoCount) (hsize : VIDEO_ID_OFFSET + videoCount ≤ 2 ^ 64) :
    Always (do
        let userCount := (← R.intn 5000) + 5000
        fillTable (fun userId => makeRandomUser R userId userCount videoCount) USER_ID_OFFSET userCount)
      fun users => ∃ userCount, 5000 ≤ userCount ∧
        Table USER_ID_OFFSET userCount (PlausibleUser userCount videoCount) users := by
  refine (Always.intn R (by omega)).bind fun drawn hdrawn => ?_
  have husers : USER_ID_OFFSET + (drawn + 5000) ≤ 2 ^ 64 := by
    rw [USER_ID_OFFSET]
    omega
  have hfill := always_fillTable
    (fun id => always_makeRandomUser R id (Nat.succ_pos (drawn + 4999)) hpos husers hsize) husers
  exact hfill.imp fun users htable => ⟨drawn + 5000, Nat.le_add_left _ _, htable⟩

/-- **The users**: at least `5000` of them, from whatever state of the source; the number of videos
they like is the first that is drawn. -/
theorem makeRandomUsers_spec (s : ρ) : ∃ userCount, 5000 ≤ userCount ∧
    Table USER_ID_OFFSET userCount (PlausibleUser userCount ((R.intn 500 s).1 + 100)) (makeRandomUsers R s).1 := by
  have hdrawn : (R.intn 500 s).1 < 500 := R.intn_lt s (by omega)
  rw [makeRandomUsers, bind_apply]
  refine always_makeUsers R (by omega) ?_ _
  rw [VIDEO_ID_OFFSET]
  omega

theorem always_makeRandomVideo (videoId : UInt64) :
    Always (makeRandomVideo R F videoId) fun info => info.videoId = videoId :=
  (Always.any _).bind fun _ _ => (Always.any _).bind fun _ _ => (Always.any _).bind fun _ _ => Always.pure rfl

/-- The videos and those among them that are trending. -/
structure Catalogue (videoCount : ℕ) (videos : UInt64 → Option VideoInfo) (topVideos : List UInt64) : Prop where
  table : Table VIDEO_ID_OFFSET videoCount (fun id info => info.videoId = id) videos
  trends : topVideos ≠ []
  once : topVideos.Nodup
  trending : ∀ id ∈ topVideos, Within VIDEO_ID_OFFSET videoCount id

theorem always_makeVideos {videoCount : ℕ} (hpos : 0 < videoCount) (hsize : VIDEO_ID_OFFSET + videoCount ≤ 2 ^ 64) :
    Always (do
        let videos ← fillTable (makeRandomVideo R F) VIDEO_ID_OFFSET videoCount
        let topVideoCount := (← rand R 10) + 10
        let topVideos ← drawIds (rand R videoCount) VIDEO_ID_OFFSET topVideoCount
        pure (videos, deduplicateIds topVideos))
      fun made => Catalogue videoCount made.1 made.2 := by
  refine (always_fillTable (always_makeRandomVideo R F) hsize).bind fun videos hvideos => ?_
  refine (Always.any _).bind fun topVideoCount _ => ?_
  refine (always_drawIds (Always.intn R hpos).onFst hsize _).bind fun topVideos htop => Always.pure ?_
  refine ⟨hvideos, fun hnil => ?_, nodup_deduplicateIds _, fun id hid => htop.2 id (mem_deduplicateIds.mp hid)⟩
  -- at least ten ids were drawn, and the first of them is kept
  cases topVideos with
  | nil => exact absurd htop.1 (by simp)
  | cons id ids =>
    have hmem : id ∈ deduplicateIds (id :: ids) := mem_deduplicateIds.mpr (List.mem_cons_self ..)
    rw [show deduplicateIds (id :: ids) = [] from hnil] at hmem
    cases hmem

/-- **The videos**: as many as the first number drawn says. -/
theorem makeRandomVideos_spec (s : ρ × φ) :
    Catalogue ((R.intn 500 s.1).1 + 100) (makeRandomVideos R F s).1.1 (makeRandomVideos R F s).1.2 := by
  have hdrawn : (R.intn 500 s.1).1 < 500 := R.intn_lt s.1 (by omega)
  have hsize : VIDEO_ID_OFFSET + ((R.intn 500 s.1).1 + 100) ≤ 2 ^ 64 := by
    rw [VIDEO_ID_OFFSET]
    omega
  have hfirst : (rand R 500 s : ℕ × ρ × φ).1 = (R.intn 500 s.1).1 := rfl
  rw [makeRandomVideos, bind_apply, hfirst]
  exact always_makeVideos R F (by omega) hsize _

end Tables

/-! ### Two services with one seed -/

/-- Everything that is referred to exists. -/
structure Closed (udb : UserServiceServer) (vdb : TrendingServer) : Prop where
  users : ∀ id, Within USER_ID_OFFSET 5000 id → ∃ user, udb.users id = some user
  subscribed : ∀ id user, udb.users id = some user → ∀ other ∈ user.subscribedTo,
    other ≠ id ∧ ∃ info, udb.users other = some info
  liked : ∀ id user, udb.users id = some user → ∀ video ∈ user.likedVideos, ∃ info, vdb.videos video = some info
  trending : ∀ video ∈ vdb.topVideos, ∃ info, vdb.videos video = some info
  trends : vdb.topVideos ≠ []
  once : vdb.topVideos.Nodup
  videoId : ∀ id info, vdb.videos id = some info → info.videoId = id

/-- Tables that agree on the number of videos refer to nothing that does not exist. -/
theorem Catalogue.closed {userCount videoCount : ℕ} {users : UInt64 → Option UserInfo}
    {videos : UInt64 → Option VideoInfo} {topVideos : List UInt64} (hvideos : Catalogue videoCount videos topVideos)
    (husers : Table USER_ID_OFFSET userCount (PlausibleUser userCount videoCount) users) (hcount : 5000 ≤ userCount)
    (userBatch videoBatch ttl : ℤ) : Closed ⟨userBatch, users⟩ ⟨⟨videoBatch, videos⟩, ttl, topVideos⟩ where
  users id hid := husers.exists_entry ⟨hid.1, hid.2.trans_le (Nat.add_le_add_left hcount _)⟩
  subscribed id user huser other hother := by
    obtain ⟨hself, hwithin⟩ := (husers.entry id user huser).subscribed other hother
    exact ⟨hself, husers.exists_entry hwithin⟩
  liked id user huser video hvideo := hvideos.table.exists_entry ((husers.entry id user huser).liked video hvideo)
  trending video hvideo := hvideos.table.exists_entry (hvideos.trending video hvideo)
  trends := hvideos.trends
  once := hvideos.once
  videoId := hvideos.table.entry

/-- **One seed.** Both services draw the number of videos first, so they agree on it. -/
theorem closed_of_seed {ρ φ : Type} (R : Source ρ) (F : Faker φ) {uo : UserServiceOptions} {vo : VideoServiceOptions}
    (hseed : uo.seed = vo.seed) : Closed (makeUserServiceServer R uo) (makeVideoServiceServer R F vo) := by
  obtain ⟨userCount, hcount, husers⟩ := makeRandomUsers_spec R (R.seed uo.seed)
  have hvideos := makeRandomVideos_spec R F (R.seed vo.seed, F.seed vo.seed)
  rw [makeUserServiceServer, makeVideoServiceServer, hseed]
  rw [hseed] at husers
  exact hvideos.closed husers hcount _ _ _

end Cs426.VideoRec
