import Mathlib.Algebra.BigOperators.Group.Finset.Basic
import Mathlib.Algebra.Order.Ring.Int
import Mathlib.Data.List.DropRight
import Cs426.VideoRec.Ranking

/-!
# The score of a video

`BcryptRanker.Rank` and `costHash` (`lab1/ranker/ranker.go`), with `GenerateFromPassword` and what
it calls (`lab1/det_bcrypt/det_bcrypt.go`). The product of the coefficients is `dotProduct`; here
is what becomes of it.

FNV, Blowfish and the base64 decoder are parameters (`Hashing`): any functions. `int` has 64 bits,
so the conversion of a 32-bit hash to it is not negative.

## What is proved

* `rank_of_values` — the score is the hash of what `GenerateFromPassword` makes of the sum of the
  products, so it depends on the coefficients only, and on those only that are not zero on either
  side; and the cost is always one that `GenerateFromPassword` accepts, so the error that `Rank`
  discards is never about the cost.
-/

namespace Cs426.VideoRec

namespace BcryptRanker

/-- The functions that are not looked into. -/
structure Hashing (ε κ : Type) where
  /-- `fnv.New32`, `Write` and `Sum32`. -/
  sum32 : List UInt8 → UInt32
  /-- `fnv.New64`, `Write` and `Sum64`. -/
  sum64 : List UInt8 → UInt64
  base64Decode : List UInt8 → Except ε (List UInt8)
  newSaltedCipher : (key salt : List UInt8) → Except ε κ
  expandKey : List UInt8 → κ → κ
  /-- `Encrypt`, on a block of eight bytes. -/
  encrypt : κ → List UInt8 → List UInt8

/-- The errors of `GenerateFromPassword`. -/
inductive BcryptError (ε : Type) where
  | invalidCost (cost : ℤ)
  | setup (err : ε)

def minCost : ℤ := 1

def maxCost : ℤ := 31

def defaultCost : ℤ := 10

/-! ### Bytes -/

def bytes (s : String) : List UInt8 := s.toUTF8.toList

/-- `fmt.Sprintf` with `%0wd`, `w` being the width. -/
def padded (width n : ℕ) : List UInt8 :=
  let digits := bytes (toString n)
  List.replicate (width - digits.length) '0'.toUInt8 ++ digits

def alphabet : List UInt8 := bytes "./ABCDEFGHIJKLMNOPQRSTUVWXYZabcdefghijklmnopqrstuvwxyz0123456789"

/-- The character for six bits. -/
def encodeDigit (b : UInt8) : UInt8 := alphabet.getD b.toNat 0

/-- `bcEncoding.Encode`. -/
def encode : List UInt8 → List UInt8
  | [] => []
  | [a] => [encodeDigit (a >>> 2), encodeDigit ((a &&& 3) <<< 4), '='.toUInt8, '='.toUInt8]
  | [a, b] =>
    [encodeDigit (a >>> 2), encodeDigit ((a &&& 3) <<< 4 ||| b >>> 4), encodeDigit ((b &&& 15) <<< 2), '='.toUInt8]
  | a :: b :: c :: rest =>
    encodeDigit (a >>> 2) :: encodeDigit ((a &&& 3) <<< 4 ||| b >>> 4) ::
      encodeDigit ((b &&& 15) <<< 2 ||| c >>> 6) :: encodeDigit (c &&& 63) :: encode rest

def base64Encode (src : List UInt8) : List UInt8 := (encode src).rdropWhile (· == '='.toUInt8)

/-- `copy(arr[n:], src)`. -/
def copyAt (n : ℕ) (src arr : List UInt8) : List UInt8 :=
  arr.take n ++ src.take (arr.length - n) ++ arr.drop (n + src.length)

/-! ### `det_bcrypt` -/

def majorVersion : UInt8 := '2'.toUInt8

def minorVersion : UInt8 := 'a'.toUInt8

def maxSaltSize : ℕ := 16

def maxCryptedHashSize : ℕ := 23

def encodedSaltSize : ℕ := 22

def encodedHashSize : ℕ := 31

def magicCipherData : List UInt8 := bytes "OrpheanBeholderScryDoubt"

/-- What `newFromPassword` returns. -/
structure Hashed where
  hash : List UInt8
  salt : List UInt8
  cost : ℤ
  major : UInt8
  minor : UInt8
  /-- The allowed range. -/
  allowed : minCost ≤ cost ∧ cost ≤ maxCost

/-- `Hash`. -/
def Hashed.text (p : Hashed) : List UInt8 :=
  let arr := copyAt 1 [p.major] (copyAt 0 (bytes "$") (List.replicate 60 0))
  let (arr, n) := if p.minor ≠ 0 then (copyAt 2 [p.minor] arr, 3) else (arr, 2)
  let arr := copyAt n (bytes "$") arr
  let arr := copyAt (n + 1) (padded 2 p.cost.toNat) arr
  let arr := copyAt (n + 3) (bytes "$") arr
  let arr := copyAt (n + 4) p.salt arr
  let arr := copyAt (n + 4 + encodedSaltSize) p.hash arr
  arr.take (n + 4 + encodedSaltSize + encodedHashSize)

section Bcrypt

variable {ε κ : Type} (h : Hashing ε κ)

def expensiveBlowfishSetup (key : List UInt8) (cost : UInt32) (salt : List UInt8) : Except ε κ := do
  let csalt ← h.base64Decode salt
  let ckey := key ++ [0]
  let c ← h.newSaltedCipher ckey csalt
  -- `rounds` is a `uint64`
  let rounds := 2 ^ cost.toNat % 2 ^ 64
  return (fun c => h.expandKey csalt (h.expandKey ckey c))^[rounds] c

def bcrypt (password : List UInt8) (cost : ℤ) (salt : List UInt8) : Except ε (List UInt8) := do
  let c ← expensiveBlowfishSetup h password (UInt32.ofNat (cost % 2 ^ 32).toNat) salt
  let cipherData := [0, 8, 16].flatMap fun i => (h.encrypt c)^[64] ((magicCipherData.drop i).take 8)
  return base64Encode (cipherData.take maxCryptedHashSize)

def checkCost (cost : ℤ) : Except (BcryptError ε) Unit :=
  if cost < minCost ∨ cost > maxCost then .error (.invalidCost cost) else .ok ()

theorem checkCost_eq_ok_iff {cost : ℤ} : (checkCost cost : Except (BcryptError ε) Unit) = .ok () ↔
    minCost ≤ cost ∧ cost ≤ maxCost := by
  unfold checkCost
  split_ifs with hcost
  · simp
    omega
  · simp
    omega

def newFromPassword (password : List UInt8) (cost : ℤ) : Except (BcryptError ε) Hashed :=
  let cost := if cost < minCost then defaultCost else cost
  match hcost : (checkCost cost : Except (BcryptError ε) Unit) with
  | .error err => .error err
  | .ok () =>
    let salt := base64Encode (List.replicate maxSaltSize 'a'.toUInt8)
    match bcrypt h password cost salt with
    | .error err => .error (.setup err)
    | .ok hash => .ok ⟨hash, salt, cost, majorVersion, minorVersion, checkCost_eq_ok_iff.mp hcost⟩

def generateFromPassword (password : List UInt8) (cost : ℤ) : Except (BcryptError ε) (List UInt8) :=
  (newFromPassword h password cost).map Hashed.text

/-! ### `Rank` -/

def costHash (id : UInt64) : ℤ :=
  ((h.sum32 (bytes (toString id.toNat))).toNat : ℤ).tmod (4 - minCost) + minCost

/-- What `Rank` makes of the product; it discards the error, and `bytes` is `nil` then. -/
def score (dotProduct : UInt64) : UInt64 :=
  match generateFromPassword h (padded 20 dotProduct.toNat) (costHash h dotProduct) with
  | .ok bytes => h.sum64 bytes
  | .error _ => h.sum64 []

end Bcrypt

/-- The salt is 22 characters long. -/
example : base64Encode (List.replicate maxSaltSize 'a'.toUInt8) = bytes "WUDfWUDfWUDfWUDfWUDfWO" := by decide +kernel

/-! ### The cost -/

section Cost

variable {ε κ : Type} (h : Hashing ε κ)

/-- The cost is one that is allowed. -/
theorem costHash_mem (id : UInt64) : minCost ≤ costHash h id ∧ costHash h id ≤ maxCost := by
  have hlo := Int.tmod_nonneg (a := ((h.sum32 (bytes (toString id.toNat))).toNat : ℤ)) (4 - minCost) (by omega)
  have hhi := Int.tmod_lt_of_pos ((h.sum32 (bytes (toString id.toNat))).toNat : ℤ) (show 0 < 4 - minCost by decide)
  unfold costHash
  unfold minCost maxCost at *
  omega

/-- With a cost that is allowed, all errors come from setting up the cipher. -/
theorem generateFromPassword_error_iff (password : List UInt8) {cost : ℤ}
    (hcost : minCost ≤ cost ∧ cost ≤ maxCost) {err : BcryptError ε} :
    generateFromPassword h password cost = .error err ↔ ∃ e, err = .setup e ∧
      bcrypt h password cost (base64Encode (List.replicate maxSaltSize 'a'.toUInt8)) = .error e := by
  have hok : (checkCost cost : Except (BcryptError ε) Unit) = .ok () := checkCost_eq_ok_iff.mpr hcost
  have hsame : (if cost < minCost then defaultCost else cost) = cost := if_neg (not_lt.mpr hcost.1)
  simp only [generateFromPassword, newFromPassword]
  split
  · next err' hcheck =>
    rw [hsame, hok] at hcheck
    cases hcheck
  · split
    · next e hbcrypt =>
      rw [hsame] at hbcrypt
      simp [Except.map, hbcrypt, eq_comm]
    · next hash hbcrypt =>
      rw [hsame] at hbcrypt
      simp [Except.map, hbcrypt]

end Cost

/-! ### The product -/

/-- The coefficient of a feature, zero if it is absent. -/
def coeff (coeffs : Coefficients) (feature : Int32) : ℕ := ((coeffs.lookup feature).getD 0).toNat

theorem coeff_of_not_mem {coeffs : Coefficients} {feature : Int32} (hf : feature ∉ coeffs) :
    coeff coeffs feature = 0 := by
  rw [coeff, AList.lookup_eq_none.mpr hf]
  rfl

theorem coeff_perm {u u' : Coefficients} (hu : u'.entries.Perm u.entries) : coeff u' = coeff u := by
  funext feature
  rw [coeff, coeff, AList.perm_lookup hu]

theorem coeff_erase (u : Coefficients) (f feature : Int32) :
    coeff (u.erase f) feature = if feature = f then 0 else coeff u feature := by
  split_ifs with hf
  · rw [hf, coeff, AList.lookup_erase]
    rfl
  · rw [coeff, AList.lookup_erase_ne hf, coeff]

/-- The loop adds up the products, modulo `2 ^ 64`. -/
theorem foldl_product (v : Coefficients) (entries : List (Sigma fun _ : Int32 => UInt64)) (product : UInt64) :
    entries.foldl (fun product e =>
      match v.lookup e.1 with
      | some videoCoeff => product + e.2 * videoCoeff
      | none => product) product =
      product + UInt64.ofNat (entries.map fun e => e.2.toNat * coeff v e.1).sum := by
  induction entries generalizing product with
  | nil => simp
  | cons e entries ih =>
    rw [List.foldl_cons, ih, List.map_cons, List.sum_cons, UInt64.ofNat_add, ← UInt64.add_assoc]
    congr 1
    cases hl : v.lookup e.1 with
    | none => simp [coeff, hl]
    | some videoCoeff => simp [coeff, hl, UInt64.ofNat_mul]

/-- The product, summed over any set of features that has those of the user. -/
theorem dotProduct_eq_sum (u v : Coefficients) {features : Finset Int32} (hsub : u.keys.toFinset ⊆ features) :
    dotProduct u v = UInt64.ofNat (∑ f ∈ features, coeff u f * coeff v f) := by
  have hkeys : (u.entries.map fun e => e.2.toNat * coeff v e.1) = u.keys.map fun f => coeff u f * coeff v f := by
    rw [AList.keys, List.keys, List.map_map]
    refine List.map_congr_left fun e he => ?_
    have hl : u.lookup e.1 = some e.2 := AList.mem_lookup_iff.mpr he
    simp [coeff, hl]
  have hloop : dotProduct u v = 0 + UInt64.ofNat _ := foldl_product v u.entries 0
  rw [hloop, hkeys, UInt64.zero_add, ← List.sum_toFinset _ u.keys_nodup]
  congr 1
  refine Finset.sum_subset hsub fun f _ hf => ?_
  rw [coeff_of_not_mem (by simpa [AList.mem_keys] using hf), Nat.zero_mul]

/-- Only the products of the coefficients matter. -/
theorem dotProduct_congr {u v u' v' : Coefficients} (huv : ∀ f, coeff u' f * coeff v' f = coeff u f * coeff v f) :
    dotProduct u' v' = dotProduct u v := by
  have hleft : u'.keys.toFinset ⊆ u'.keys.toFinset ∪ u.keys.toFinset := Finset.subset_union_left
  have hright : u.keys.toFinset ⊆ u'.keys.toFinset ∪ u.keys.toFinset := Finset.subset_union_right
  rw [dotProduct_eq_sum u' v' hleft, dotProduct_eq_sum u v hright]
  simp only [huv]

/-- The product is the sum over the features of both. -/
theorem dotProduct_eq_sum_common (u v : Coefficients) :
    dotProduct u v = UInt64.ofNat (∑ f ∈ u.keys.toFinset ∩ v.keys.toFinset, coeff u f * coeff v f) := by
  rw [dotProduct_eq_sum u v subset_rfl]
  congr 1
  symm
  refine Finset.sum_subset Finset.inter_subset_left fun f hf hnot => ?_
  have hv : f ∉ v := fun hv => hnot (Finset.mem_inter.mpr ⟨hf, by simpa [AList.mem_keys] using hv⟩)
  rw [coeff_of_not_mem hv, Nat.mul_zero]

/-- **The score depends on the coefficients only.** It is the hash of what `GenerateFromPassword`
returns for the sum of the products over the common features, modulo `2 ^ 64`, in twenty digits and
at the cost that belongs to it. If that is an error it is one of the cipher, never of the cost. -/
theorem rank_of_values {ε κ : Type} (h : Hashing ε κ) (u v : Coefficients) :
    (∀ u' v' : Coefficients, u'.entries.Perm u.entries → v'.entries.Perm v.entries →
        rank (score h) u' v' = rank (score h) u v) ∧
      (∃ sum, sum = UInt64.ofNat (∑ f ∈ u.keys.toFinset ∩ v.keys.toFinset, coeff u f * coeff v f) ∧
        (∀ bytes, generateFromPassword h (padded 20 sum.toNat) (costHash h sum) = .ok bytes →
          rank (score h) u v = h.sum64 bytes) ∧
        ∀ err, generateFromPassword h (padded 20 sum.toNat) (costHash h sum) = .error err →
          rank (score h) u v = h.sum64 [] ∧ ∃ e, err = .setup e ∧
            bcrypt h (padded 20 sum.toNat) (costHash h sum) (base64Encode (List.replicate maxSaltSize 'a'.toUInt8)) =
              .error e) ∧
      (∀ f, coeff u f = 0 ∨ coeff v f = 0 →
        rank (score h) (u.erase f) v = rank (score h) u v ∧ rank (score h) u (v.erase f) = rank (score h) u v) ∧
      (∀ u' v', (∀ f, coeff u' f * coeff v' f = coeff u f * coeff v f) →
        rank (score h) u' v' = rank (score h) u v) ∧
      (∀ id, minCost ≤ costHash h id ∧ costHash h id ≤ maxCost) ∧
      ∀ id password cost, generateFromPassword h password (costHash h id) ≠ .error (.invalidCost cost) := by
  refine ⟨?_, ⟨dotProduct u v, dotProduct_eq_sum_common u v, ?_, ?_⟩, ?_, ?_, costHash_mem h, ?_⟩
  · intro u' v' hu hv
    have hsame : dotProduct u' v' = dotProduct u v :=
      dotProduct_congr fun f => by rw [coeff_perm hu, coeff_perm hv]
    rw [rank, rank, hsame]
  · intro bytes hbytes
    rw [rank, score, hbytes]
  · intro err herr
    refine ⟨by rw [rank, score, herr], ?_⟩
    exact (generateFromPassword_error_iff h _ (costHash_mem h _)).mp herr
  · intro f hf
    have hzero : coeff u f * coeff v f = 0 := Nat.mul_eq_zero.mpr hf
    rw [rank, rank, rank]
    constructor <;> congr 1 <;> refine dotProduct_congr fun feature => ?_ <;> rw [coeff_erase] <;> split_ifs with hff
    · rw [hff, hzero, Nat.zero_mul]
    · rfl
    · rw [hff, hzero, Nat.mul_zero]
    · rfl
  · intro u' v' huv
    rw [rank, rank, dotProduct_congr huv]
  · intro id password cost herr
    obtain ⟨e, heq, -⟩ := (generateFromPassword_error_iff h password (costHash_mem h id)).mp herr
    cases heq

/-- A Blowfish that does nothing, and hashes that count bytes. -/
def idle : Hashing Unit Unit where
  sum32 bytes := UInt32.ofNat bytes.length
  sum64 bytes := UInt64.ofNat bytes.length
  base64Decode src := .ok src
  newSaltedCipher _ _ := .ok ()
  expandKey _ c := c
  encrypt _ block := block

/-- The user has two features, one of them with a zero coefficient, and shares both with the
video. -/
def zeroUser : Coefficients := (AList.insert 1 2 ∅).insert 2 0

def zeroVideo : Coefficients := (AList.insert 2 5 ∅).insert 1 3

theorem rank_of_values_zero :
    dotProduct zeroUser zeroVideo = 6 ∧ coeff zeroUser 2 = 0 ∧ coeff zeroVideo 2 = 5 ∧
      rank (score idle) (zeroUser.erase 2) zeroVideo = rank (score idle) zeroUser zeroVideo ∧
      rank (score idle) zeroUser zeroVideo = 60 := by
  obtain ⟨-, ⟨sum, hsum, hok, herr⟩, herase, -⟩ := rank_of_values idle zeroUser zeroVideo
  obtain rfl : sum = 6 := hsum.trans (by decide +kernel)
  refine ⟨rfl, rfl, rfl, (herase 2 (.inl rfl)).1, ?_⟩
  have hsome : (generateFromPassword idle (padded 20 6) (costHash idle 6)).toOption.map idle.sum64 = some 60 := by
    decide +kernel
  cases hgen : generateFromPassword idle (padded 20 6) (costHash idle 6) with
  | error err =>
    rw [hgen] at hsome
    cases hsome
  | ok bytes =>
    rw [hgen] at hsome
    exact (hok bytes hgen).trans (Option.some.inj hsome)

end BcryptRanker

end Cs426.VideoRec
