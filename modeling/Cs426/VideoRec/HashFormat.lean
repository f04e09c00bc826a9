import Cs426.VideoRec.Ranker

/-!
# Reading a hash back

The other half of `lab1/det_bcrypt/det_bcrypt.go`: `newFromHash` takes apart what `Hash` has put
together, and `CompareHashAndPassword` and `Cost` are made of it. A hash is a line such as
`$2a$10$` with the encoded salt and the encoded digest after it.

## The model

`strconv.Atoi` is modelled on the two bytes it is given, with its sign. The functions of `Hashing`
are as in `Ranker`; `Encrypt` replaces a block of eight bytes by one of eight. What follows the
digest is kept in `hash` by `newFromHash`, and cut off by `Hash`. Indices are in range once the
length has been checked, so `getD` never takes its default.

## What is proved

* `newFromHash_text` — the round trip: what `Hash` has written is read back, and so is what was
  appended to it.
* `compareHashAndPassword_eq_ok_iff` — what is accepted: cost, salt and the first 31 bytes of the
  digest decide, and nothing else in the line does.
* `compare_generated_iff` — against a generated hash those passwords pass that generate the same
  hash, whatever was appended to it; and its cost is the one that was asked for.
-/

namespace Cs426.VideoRec

namespace BcryptRanker

/-- The errors of `newFromHash` and of `CompareHashAndPassword`. -/
inductive HashError (ε : Type) where
  | hashTooShort
  | invalidHashPrefix (b : UInt8)
  | hashVersionTooNew (b : UInt8)
  | atoi (s : List UInt8)
  | cost (err : BcryptError ε)
  | setup (err : ε)
  | mismatchedHashAndPassword

def minHashSize : ℕ := 59

/-- The loop of `strconv.Atoi` over the digits, with `n` read so far. -/
def atoiLoop : ℕ → List UInt8 → Option ℕ
  | n, [] => some n
  | n, ch :: rest =>
    if 9 < ch - '0'.toUInt8 then none else atoiLoop (n * 10 + (ch - '0'.toUInt8).toNat) rest

/-- `strconv.Atoi`, on texts too short to overflow. -/
def atoi : List UInt8 → Option ℤ
  | [] => none
  | ch :: rest =>
    if ch = '-'.toUInt8 ∨ ch = '+'.toUInt8 then
      if rest = [] then none
      else (atoiLoop 0 rest).map fun n => if ch = '-'.toUInt8 then -(n : ℤ) else n
    else (atoiLoop 0 (ch :: rest)).map Int.ofNat

section Decode

variable {ε κ : Type}

/-- The two versions, and how many bytes they take. A minor version is whatever is not a `$`; what
comes after it is skipped. -/
def decodeVersion (sbytes : List UInt8) : Except (HashError ε) (UInt8 × UInt8 × ℕ) :=
  if sbytes.getD 0 0 ≠ '$'.toUInt8 then .error (.invalidHashPrefix (sbytes.getD 0 0))
  else if majorVersion < sbytes.getD 1 0 then .error (.hashVersionTooNew (sbytes.getD 1 0))
  else if sbytes.getD 2 0 ≠ '$'.toUInt8 then .ok (sbytes.getD 1 0, sbytes.getD 2 0, 4)
  else .ok (sbytes.getD 1 0, 0, 3)

/-- The cost, in two bytes; the third one is skipped. -/
def decodeCost (sbytes : List UInt8) : Except (HashError ε) { cost : ℤ // minCost ≤ cost ∧ cost ≤ maxCost } :=
  match atoi (sbytes.take 2) with
  | none => .error (.atoi (sbytes.take 2))
  | some cost =>
    match hcost : (checkCost cost : Except (BcryptError ε) Unit) with
    | .error err => .error (.cost err)
    | .ok () => .ok ⟨cost, checkCost_eq_ok_iff.mp hcost⟩

def newFromHash (hashedSecret : List UInt8) : Except (HashError ε) Hashed :=
  if hashedSecret.length < minHashSize then .error .hashTooShort
  else do
    let (major, minor, n) ← decodeVersion hashedSecret
    let hashedSecret := hashedSecret.drop n
    let cost ← decodeCost hashedSecret
    let hashedSecret := hashedSecret.drop 3
    return ⟨hashedSecret.drop encodedSaltSize, hashedSecret.take encodedSaltSize, cost.1, major, minor, cost.2⟩

variable (h : Hashing ε κ)

def compareHashAndPassword (hashedPassword password : List UInt8) : Except (HashError ε) Unit := do
  let p ← newFromHash hashedPassword
  match bcrypt h password p.cost p.salt with
  | .error err => .error (.setup err)
  | .ok otherHash =>
    if p.text = { p with hash := otherHash }.text then .ok () else .error .mismatchedHashAndPassword

/-- `Cost`. -/
def costOf (hashedPassword : List UInt8) : Except (HashError ε) ℤ := (newFromHash hashedPassword).map Hashed.cost

end Decode

/-! ### Lengths -/

theorem encodeDigit_ne (b : UInt8) : encodeDigit b ≠ '='.toUInt8 := by
  have halphabet : ∀ d ∈ alphabet, d ≠ '='.toUInt8 := by decide +kernel
  rw [encodeDigit, List.getD_eq_getElem?_getD]
  cases hd : alphabet[b.toNat]? with
  | none => decide
  | some d => exact halphabet d (List.mem_of_getElem? hd)

/-- An encoding is characters for six bits each, then padding. -/
theorem encode_eq : ∀ src : List UInt8, ∃ digits pad, encode src = digits ++ List.replicate pad '='.toUInt8 ∧
    (∀ d ∈ digits, d ≠ '='.toUInt8) ∧ digits.length = (4 * src.length + 2) / 3
  | [] => ⟨[], 0, rfl, by simp, rfl⟩
  | [a] => ⟨[encodeDigit (a >>> 2), encodeDigit ((a &&& 3) <<< 4)], 2, rfl, by simp [encodeDigit_ne], by simp⟩
  | [a, b] =>
    ⟨[encodeDigit (a >>> 2), encodeDigit ((a &&& 3) <<< 4 ||| b >>> 4), encodeDigit ((b &&& 15) <<< 2)], 1, rfl,
      by simp [encodeDigit_ne], by simp⟩
  | a :: b :: c :: rest => by
    obtain ⟨digits, pad, heq, hne, hlength⟩ := encode_eq rest
    refine ⟨encodeDigit (a >>> 2) :: encodeDigit ((a &&& 3) <<< 4 ||| b >>> 4) ::
      encodeDigit ((b &&& 15) <<< 2 ||| c >>> 6) :: encodeDigit (c &&& 63) :: digits, pad, ?_, ?_, ?_⟩
    · rw [encode, heq]
      rfl
    · simpa [encodeDigit_ne] using hne
    · simp only [List.length_cons, hlength]
      omega

theorem rdropWhile_replicate {digits : List UInt8} {c : UInt8} (hne : ∀ d ∈ digits, d ≠ c) (pad : ℕ) :
    (digits ++ List.replicate pad c).rdropWhile (· == c) = digits := by
  induction pad with
  | zero =>
    rw [List.replicate_zero, List.append_nil, List.rdropWhile_eq_self_iff]
    intro hnil
    simpa using hne _ (List.getLast_mem hnil)
  | succ pad ih => rw [List.replicate_succ', ← List.append_assoc, List.rdropWhile_concat_pos _ _ _ (by simp), ih]

theorem length_base64Encode (src : List UInt8) : (base64Encode src).length = (4 * src.length + 2) / 3 := by
  obtain ⟨digits, pad, heq, hne, hlength⟩ := encode_eq src
  rw [base64Encode, heq, rdropWhile_replicate hne, hlength]

/-- The numbers from `1` to `31`, in two digits, are read back. -/
theorem atoi_padded {cost : ℤ} (h : minCost ≤ cost ∧ cost ≤ maxCost) :
    (padded 2 cost.toNat).length = 2 ∧ atoi (padded 2 cost.toNat) = some cost := by
  have hall : ∀ c ∈ List.range 31, (padded 2 (c + 1)).length = 2 ∧ atoi (padded 2 (c + 1)) = some (c + 1 : ℤ) := by
    decide +kernel
  rw [minCost, maxCost] at h
  obtain ⟨c, rfl⟩ : ∃ c : ℕ, cost = c + 1 := ⟨(cost - 1).toNat, by omega⟩
  exact hall c (List.mem_range.mpr (by omega))

/-! ### What `Hash` writes -/

/-- Writing right after what was written. -/
theorem copyAt_zeros {a src : List UInt8} {n k : ℕ} (hn : a.length = n) (hk : src.length ≤ k) :
    copyAt n src (a ++ List.replicate k 0) = a ++ src ++ List.replicate (k - src.length) 0 := by
  subst hn
  have hfits : src.take (a.length + k - a.length) = src := List.take_of_length_le (by omega)
  rw [copyAt, List.length_append, List.length_replicate, hfits, List.take_left, List.drop_append,
    List.drop_eq_nil_of_le (by omega), List.drop_replicate, List.nil_append, Nat.add_sub_cancel_left]

/-- The same for a text of any length, seen as far as `m` bytes. -/
theorem take_copyAt_zeros {a src : List UInt8} {n k m : ℕ} (hn : a.length = n) (hm : m ≤ k) :
    (copyAt n src (a ++ List.replicate k 0)).take (n + m) = a ++ (src ++ List.replicate m 0).take m := by
  subst hn
  rw [copyAt, List.length_append, List.length_replicate, Nat.add_sub_cancel_left, List.take_left, List.append_assoc,
    List.take_length_add_append, List.drop_append, List.drop_eq_nil_of_le (by omega), List.drop_replicate,
    List.nil_append, Nat.add_sub_cancel_left]
  congr 1
  by_cases hle : m ≤ src.length
  · rw [List.take_append_of_le_length (by rw [List.length_take]; omega), List.take_append_of_le_length hle,
      List.take_take, min_eq_left hm]
  · rw [List.take_of_length_le (show src.length ≤ k by omega), List.take_append, List.take_append, List.take_replicate,
      List.take_replicate]
    congr 2
    omega

/-- The end of `Hash`, from the `$` after the versions on. -/
theorem take_copyAt_rest {v cost salt : List UInt8} {n k : ℕ} (hv : v.length = n) (hcost : cost.length = 2)
    (hsalt : salt.length = encodedSaltSize) (hk : 57 ≤ k) (hash : List UInt8) :
    (copyAt (n + 4 + encodedSaltSize) hash (copyAt (n + 4) salt (copyAt (n + 3) ['$'.toUInt8] (copyAt (n + 1) cost
      (copyAt n ['$'.toUInt8] (v ++ List.replicate k 0)))))).take (n + 4 + encodedSaltSize + encodedHashSize) =
    v ++ ['$'.toUInt8] ++ cost ++ ['$'.toUInt8] ++ salt ++
      (hash ++ List.replicate encodedHashSize 0).take encodedHashSize := by
  rw [encodedSaltSize] at hsalt ⊢
  rw [encodedHashSize]
  have hdollar : copyAt n ['$'.toUInt8] (v ++ List.replicate k 0) = v ++ ['$'.toUInt8] ++ List.replicate (k - 1) 0 :=
    copyAt_zeros hv (by simp; omega)
  rw [hdollar, copyAt_zeros (by simp [hv]) (by omega), copyAt_zeros (by simp [hv, hcost]) (by simp; omega),
    copyAt_zeros (by simp [hv, hcost]) (by simp; omega),
    take_copyAt_zeros (by simp [hv, hcost, hsalt]) (by simp; omega)]

/-- All that `Hash` writes before the digest. -/
def Hashed.header (p : Hashed) : List UInt8 :=
  ['$'.toUInt8, p.major] ++ (if p.minor ≠ 0 then [p.minor] else []) ++ ['$'.toUInt8] ++ padded 2 p.cost.toNat ++
    ['$'.toUInt8] ++ p.salt

/-- The digest that `Hash` writes: bytes that are missing are zero, and further ones are cut off. -/
def Hashed.digest (p : Hashed) : List UInt8 := (p.hash ++ List.replicate encodedHashSize 0).take encodedHashSize

theorem Hashed.text_eq (p : Hashed) (hsalt : p.salt.length = encodedSaltSize) : p.text = p.header ++ p.digest := by
  have hdollar : bytes "$" = ['$'.toUInt8] := by decide +kernel
  have hstart : copyAt 1 [p.major] (copyAt 0 ['$'.toUInt8] (List.replicate 60 0)) =
      ['$'.toUInt8, p.major] ++ List.replicate 58 0 := rfl
  have hcost := (atoi_padded p.allowed).1
  by_cases hminor : p.minor ≠ 0
  · have hversion : copyAt 2 [p.minor] (['$'.toUInt8, p.major] ++ List.replicate 58 0) =
        ['$'.toUInt8, p.major, p.minor] ++ List.replicate 57 0 := rfl
    have hlength : ['$'.toUInt8, p.major, p.minor].length = 3 := rfl
    simp only [Hashed.text, hdollar, hstart, if_pos hminor, hversion, Hashed.header, Hashed.digest]
    exact take_copyAt_rest hlength hcost hsalt (le_refl 57) p.hash
  · have hlength : ['$'.toUInt8, p.major].length = 2 := rfl
    simp only [Hashed.text, hdollar, hstart, if_neg hminor, Hashed.header, Hashed.digest, List.append_nil]
    exact take_copyAt_rest hlength hcost hsalt (Nat.le_succ 57) p.hash

theorem Hashed.length_digest (p : Hashed) : p.digest.length = encodedHashSize := by
  simp [Hashed.digest]

/-- A digest that is long enough is cut off. -/
theorem Hashed.digest_of_append {p : Hashed} {digest trailing : List UInt8} (hp : p.hash = digest ++ trailing)
    (hlength : digest.length = encodedHashSize) : p.digest = digest := by
  rw [Hashed.digest, hp, List.append_assoc, List.take_left' hlength]

/-! ### What `newFromHash` reads -/

section Read

variable {ε κ : Type}

/-- The versions are read back. -/
theorem decodeVersion_append {major minor : UInt8} (hmajor : major ≤ majorVersion) (hminor : minor ≠ '$'.toUInt8)
    (rest : List UInt8) : (decodeVersion (['$'.toUInt8, major] ++ (if minor ≠ 0 then [minor] else []) ++
      ['$'.toUInt8] ++ rest) : Except (HashError ε) _) =
      .ok (major, minor, (['$'.toUInt8, major] ++ (if minor ≠ 0 then [minor] else []) ++ ['$'.toUInt8]).length) := by
  by_cases hzero : minor ≠ 0
  · simp [decodeVersion, hzero, hminor, hmajor]
  · obtain rfl : minor = 0 := not_not.mp hzero
    simp [decodeVersion, hmajor]

/-- An allowed cost is read back. -/
theorem decodeCost_append {cost : ℤ} (h : minCost ≤ cost ∧ cost ≤ maxCost) (rest : List UInt8) :
    (decodeCost (padded 2 cost.toNat ++ rest) : Except (HashError ε) _) = .ok ⟨cost, h⟩ := by
  obtain ⟨hlength, hatoi⟩ := atoi_padded h
  have hcheck : (checkCost cost : Except (BcryptError ε) Unit) = .ok () := checkCost_eq_ok_iff.mpr h
  rw [decodeCost, List.take_left' hlength, hatoi]
  simp only
  split
  · next err herr =>
    rw [hcheck] at herr
    cases herr
  · rfl

/-- **The round trip.** What `Hash` has written is read back; what was appended is kept. -/
theorem newFromHash_text {p : Hashed} (hsalt : p.salt.length = encodedSaltSize)
    (hhash : p.hash.length = encodedHashSize) (hmajor : p.major ≤ majorVersion) (hminor : p.minor ≠ '$'.toUInt8)
    (trailing : List UInt8) :
    (newFromHash (p.text ++ trailing) : Except (HashError ε) Hashed) = .ok { p with hash := p.hash ++ trailing } := by
  have hdigest : p.digest = p.hash := Hashed.digest_of_append (List.append_nil _).symm hhash
  have hcost := (atoi_padded p.allowed).1
  have hlong : ¬ (p.text ++ trailing).length < minHashSize := by
    rw [p.text_eq hsalt, hdigest, Hashed.header]
    simp only [List.length_append, hcost, hsalt, hhash, encodedSaltSize, encodedHashSize, minHashSize, List.length_cons]
    omega
  have htext : p.text ++ trailing = ['$'.toUInt8, p.major] ++ (if p.minor ≠ 0 then [p.minor] else []) ++
      ['$'.toUInt8] ++ (padded 2 p.cost.toNat ++ (['$'.toUInt8] ++ (p.salt ++ (p.hash ++ trailing)))) := by
    rw [p.text_eq hsalt, hdigest, Hashed.header]
    simp only [List.append_assoc]
  have hrest : (padded 2 p.cost.toNat ++ (['$'.toUInt8] ++ (p.salt ++ (p.hash ++ trailing)))).drop 3 =
      p.salt ++ (p.hash ++ trailing) := by
    rw [← List.append_assoc, List.drop_left' (by simp [hcost])]
  rw [newFromHash, if_neg hlong, htext, decodeVersion_append hmajor hminor]
  simp only [bind, Except.bind, pure, Except.pure, List.drop_left, decodeCost_append p.allowed, hrest]
  rw [List.drop_left' hsalt, List.take_left' hsalt]

/-- What was read has a salt of the right length. -/
theorem length_salt_of_newFromHash {s : List UInt8} {p : Hashed}
    (hread : (newFromHash s : Except (HashError ε) Hashed) = .ok p) : p.salt.length = encodedSaltSize := by
  rw [newFromHash] at hread
  split_ifs at hread with hlong
  cases hversion : (decodeVersion s : Except (HashError ε) _) with
  | error err => simp [hversion, bind, Except.bind] at hread
  | ok version =>
    obtain ⟨major, minor, n⟩ := version
    have hn : n ≤ 4 := by
      rw [decodeVersion] at hversion
      split_ifs at hversion <;> cases hversion <;> decide
    simp only [hversion, bind, Except.bind] at hread
    cases hcost : (decodeCost (s.drop n) : Except (HashError ε) _) with
    | error err => simp [hcost] at hread
    | ok cost =>
      simp only [hcost, pure, Except.pure, Except.ok.injEq] at hread
      subst hread
      simp only [List.length_take, List.length_drop, encodedSaltSize, minHashSize] at hlong ⊢
      omega

end Read

/-! ### Passwords -/

section Passwords

variable {ε κ : Type} {h : Hashing ε κ}

/-- A cipher that replaces a block of eight bytes by one of eight. -/
def Hashing.Blockwise (h : Hashing ε κ) : Prop := ∀ c block, block.length = 8 → (h.encrypt c block).length = 8

theorem Hashing.Blockwise.iterate (hh : h.Blockwise) (c : κ) {block : List UInt8} (hblock : block.length = 8) (n : ℕ) :
    ((h.encrypt c)^[n] block).length = 8 := by
  induction n with
  | zero => exact hblock
  | succ n ih =>
    rw [Function.iterate_succ_apply']
    exact hh c _ ih

/-- Digests have 31 bytes. -/
theorem Hashing.Blockwise.length_bcrypt (hh : h.Blockwise) {password salt hash : List UInt8} {cost : ℤ}
    (hbcrypt : bcrypt h password cost salt = .ok hash) : hash.length = encodedHashSize := by
  rw [bcrypt] at hbcrypt
  cases hsetup : expensiveBlowfishSetup h password (UInt32.ofNat (cost % 2 ^ 32).toNat) salt with
  | error err =>
    simp only [hsetup, bind, Except.bind] at hbcrypt
    cases hbcrypt
  | ok c =>
    simp only [hsetup, bind, Except.bind, pure, Except.pure, Except.ok.injEq] at hbcrypt
    have hblocks : ∀ i ∈ [0, 8, 16], ((magicCipherData.drop i).take 8).length = 8 := by decide +kernel
    have hlength : ([0, 8, 16].flatMap fun i => (h.encrypt c)^[64] ((magicCipherData.drop i).take 8)).length = 24 := by
      simp only [List.flatMap_cons, List.flatMap_nil, List.length_append, List.length_nil]
      rw [hh.iterate c (hblocks 0 (by decide)), hh.iterate c (hblocks 8 (by decide)),
        hh.iterate c (hblocks 16 (by decide))]
    rw [← hbcrypt, length_base64Encode, List.length_take, hlength]
    rfl

/-- **What is accepted.** A password passes against a text if, with the cost and the salt that are read from it, the
password has the digest that is read from it: neither the versions, nor the bytes that are skipped, nor those after the
digest matter. -/
theorem compareHashAndPassword_eq_ok_iff (hh : h.Blockwise) {s password : List UInt8} :
    compareHashAndPassword h s password = .ok () ↔ ∃ p, (newFromHash s : Except (HashError ε) Hashed) = .ok p ∧
      bcrypt h password p.cost p.salt = .ok p.digest := by
  rw [compareHashAndPassword]
  cases hread : (newFromHash s : Except (HashError ε) Hashed) with
  | error err => simp [bind, Except.bind]
  | ok p =>
    have hsalt := length_salt_of_newFromHash hread
    simp only [bind, Except.bind, Except.ok.injEq, exists_eq_left']
    cases hbcrypt : bcrypt h password p.cost p.salt with
    | error err => simp
    | ok otherHash =>
      have hother : ({ p with hash := otherHash } : Hashed).digest = otherHash :=
        Hashed.digest_of_append (List.append_nil _).symm (hh.length_bcrypt hbcrypt)
      have hheader : ({ p with hash := otherHash } : Hashed).header = p.header := rfl
      have htext : p.text = ({ p with hash := otherHash } : Hashed).text ↔ otherHash = p.digest := by
        rw [p.text_eq hsalt, Hashed.text_eq { p with hash := otherHash } hsalt, hheader, hother,
          List.append_cancel_left_eq, eq_comm]
      simp only [htext, Except.ok.injEq]
      split_ifs with heq <;> simp [heq]

/-- What `newFromPassword` makes. -/
theorem newFromPassword_eq_ok_iff {password : List UInt8} {cost : ℤ} {p : Hashed} :
    newFromPassword h password cost = .ok p ↔
      p.salt = base64Encode (List.replicate maxSaltSize 'a'.toUInt8) ∧
        p.cost = (if cost < minCost then defaultCost else cost) ∧ p.major = majorVersion ∧ p.minor = minorVersion ∧
          bcrypt h password p.cost p.salt = .ok p.hash := by
  obtain ⟨hash, salt, pcost, major, minor, allowed⟩ := p
  simp only [newFromPassword]
  constructor
  · intro hnew
    split at hnew
    · cases hnew
    · split at hnew
      · cases hnew
      · next hash' hbcrypt =>
        cases hnew
        exact ⟨rfl, rfl, rfl, rfl, hbcrypt⟩
  · rintro ⟨rfl, rfl, rfl, rfl, hbcrypt⟩
    split
    · next err herr =>
      rw [checkCost_eq_ok_iff.mpr allowed] at herr
      cases herr
    · rw [hbcrypt]

theorem length_salt_of_newFromPassword {password : List UInt8} {cost : ℤ} {p : Hashed}
    (hp : newFromPassword h password cost = .ok p) : p.salt.length = encodedSaltSize := by
  rw [(newFromPassword_eq_ok_iff.mp hp).1, length_base64Encode]
  rfl

theorem generateFromPassword_eq_ok_iff {password text : List UInt8} {cost : ℤ} :
    generateFromPassword h password cost = .ok text ↔ ∃ p, newFromPassword h password cost = .ok p ∧ p.text = text := by
  rw [generateFromPassword]
  cases newFromPassword h password cost <;> simp [Except.map]

/-- A generated hash is told apart by its digest. -/
theorem newFromPassword_of_text_eq (hh : h.Blockwise) {password password' : List UInt8} {cost : ℤ} {p p' : Hashed}
    (hp : newFromPassword h password cost = .ok p) (hp' : newFromPassword h password' cost = .ok p')
    (htext : p'.text = p.text) : bcrypt h password' p.cost p.salt = .ok p.hash := by
  obtain ⟨hsalt, hcost, hmajor, hminor, hbcrypt⟩ := newFromPassword_eq_ok_iff.mp hp
  obtain ⟨hsalt', hcost', hmajor', hminor', hbcrypt'⟩ := newFromPassword_eq_ok_iff.mp hp'
  have hheader : p'.header = p.header := by
    rw [Hashed.header, Hashed.header, hsalt, hcost, hmajor, hminor, hsalt', hcost', hmajor', hminor']
  rw [p'.text_eq (length_salt_of_newFromPassword hp'), p.text_eq (length_salt_of_newFromPassword hp), hheader,
    List.append_cancel_left_eq,
    Hashed.digest_of_append (List.append_nil _).symm (hh.length_bcrypt hbcrypt'),
    Hashed.digest_of_append (List.append_nil _).symm (hh.length_bcrypt hbcrypt)] at htext
  rw [← htext, hcost, ← hcost', hsalt, ← hsalt', hbcrypt']

/-- **Generated hashes.** A generated hash is 60 bytes long. Whatever is appended to it, the cost that is read from it
is the one that was asked for, or the default one, and those passwords pass that generate the same hash. -/
theorem compare_generated_iff (hh : h.Blockwise) {password text : List UInt8} {cost : ℤ}
    (hgenerate : generateFromPassword h password cost = .ok text) :
    text.length = 60 ∧ ∀ trailing,
      (costOf (text ++ trailing) : Except (HashError ε) ℤ) = .ok (if cost < minCost then defaultCost else cost) ∧
      ∀ password', compareHashAndPassword h (text ++ trailing) password' = .ok () ↔
        generateFromPassword h password' cost = .ok text := by
  obtain ⟨p, hp, rfl⟩ := generateFromPassword_eq_ok_iff.mp hgenerate
  obtain ⟨hsalt, hcost, hmajor, hminor, hbcrypt⟩ := newFromPassword_eq_ok_iff.mp hp
  have hlength := length_salt_of_newFromPassword hp
  have hhash := hh.length_bcrypt hbcrypt
  have hread : ∀ trailing, (newFromHash (p.text ++ trailing) : Except (HashError ε) Hashed) =
      .ok { p with hash := p.hash ++ trailing } :=
    newFromHash_text hlength hhash (by rw [hmajor]; decide) (by rw [hminor]; decide)
  refine ⟨?_, fun trailing => ⟨?_, fun password' => ?_⟩⟩
  · have hwritten : minorVersion ≠ 0 := by decide
    rw [p.text_eq hlength, List.length_append, p.length_digest, Hashed.header, hminor, if_pos hwritten]
    simp [hlength, (atoi_padded p.allowed).1, encodedSaltSize, encodedHashSize]
  · rw [costOf, hread, Except.map, hcost]
  · have hdigest : ({ p with hash := p.hash ++ trailing } : Hashed).digest = p.hash :=
      Hashed.digest_of_append rfl hhash
    simp only [compareHashAndPassword_eq_ok_iff hh, hread, Except.ok.injEq, exists_eq_left', hdigest]
    rw [generateFromPassword_eq_ok_iff]
    constructor
    · intro hbcrypt'
      exact ⟨p, newFromPassword_eq_ok_iff.mpr ⟨hsalt, hcost, hmajor, hminor, hbcrypt'⟩, rfl⟩
    · rintro ⟨p', hp', htext⟩
      exact newFromPassword_of_text_eq hh hp hp' htext

end Passwords

/-- A cipher that adds the first byte of its key to every byte. -/
def additive : Hashing Unit (List UInt8) where
  sum32 bytes := UInt32.ofNat bytes.length
  sum64 bytes := UInt64.ofNat bytes.length
  base64Decode src := .ok src
  newSaltedCipher key _ := .ok key
  expandKey _ c := c
  encrypt c block := block.map (· + c.headD 0)

theorem additive_blockwise : additive.Blockwise := fun _ _ hblock => (List.length_map _).trans hblock

/-- With one byte more at its end, the hash of `a` is passed by `a` and not by `b`. -/
theorem compare_generated_iff_additive : ∃ text, generateFromPassword additive (bytes "a") 1 = .ok text ∧
    compareHashAndPassword additive (text ++ bytes "c") (bytes "a") = .ok () ∧
      compareHashAndPassword additive (text ++ bytes "c") (bytes "b") ≠ .ok () := by
  have ha : (generateFromPassword additive (bytes "a") 1).toOption =
      some (bytes "$2a$01$WUDfWUDfWUDfWUDfWUDfWOh5IuoIUfpmIjoI8qnIUwi4MwsWQtrYG") := by decide +kernel
  have hb : (generateFromPassword additive (bytes "b") 1).toOption ≠
      (generateFromPassword additive (bytes "a") 1).toOption := by decide +kernel
  cases htext : generateFromPassword additive (bytes "a") 1 with
  | error err =>
    rw [htext] at ha
    cases ha
  | ok text =>
    have hpass := ((compare_generated_iff additive_blockwise htext).2 (bytes "c")).2
    exact ⟨text, rfl, (hpass _).mpr htext, fun hok => hb (by rw [(hpass _).mp hok, htext])⟩

end BcryptRanker

end Cs426.VideoRec
