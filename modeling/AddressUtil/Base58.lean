import AddressUtil.Basic

/-! The `base58` package, which src/ imports but does not contain, modelled from the spec: the
big-integer codec over its 58-letter alphabet and the Base58Check layer, with both round trips. -/

namespace AddressUtil.Base58

/-- Modelled from the spec: the alphabet, digits and letters without `0`, `O`, `I`, `l`. -/
def alphabet : List UInt8 := ascii "123456789ABCDEFGHJKLMNPQRSTUVWXYZabcdefghijkmnopqrstuvwxyz"

/-- Modelled from the spec: the alphabet's leading character, which stands for a zero byte. -/
def leadingChar : UInt8 := alphabet.getD 0 0

/-- Modelled from the spec: the digit a character stands for, if it is in the alphabet. -/
def digitOf (c : UInt8) : Option Nat := (List.range 58).find? fun d => alphabet.getD d 0 = c

/-- Big-endian base-`b` digits of `x` by repeated division, as a `for x > 0` loop
computes them; `fuel` bounds the iterations. -/
def toDigits (b : Nat) : (fuel x : Nat) → List Nat
  | 0, _ => []
  | fuel + 1, x => if x = 0 then [] else toDigits b fuel (x / b) ++ [x % b]

/-- Modelled from the spec: `base58.Encode` reads the bytes as a big-endian number, divides
it by 58 repeatedly, maps the remainders through the alphabet, and prepends one leading
character for every leading zero byte. -/
def encode (b : List UInt8) : List UInt8 :=
  let x := beValue 256 (b.map UInt8.toNat)
  List.replicate (b.takeWhile (· = 0)).length leadingChar ++
    (toDigits 58 x x).map fun d => alphabet.getD d 0

/-- Modelled from the spec: `base58.Decode`, the inverse of `encode`. A character outside
the alphabet makes it fail; its callers take a single byte slice, so the failure is the
empty slice. -/
def decode (s : List UInt8) : List UInt8 :=
  match s.mapM digitOf with
  | none => []
  | some ds =>
    let x := beValue 58 ds
    List.replicate (s.takeWhile (· = leadingChar)).length 0 ++
      (toDigits 256 x x).map Nat.toUInt8

/-- Modelled from the spec: the Base58Check checksum, the first four bytes of SHA-256
applied twice. -/
def checksum (sha256 : Digest 32) (body : List UInt8) : List UInt8 :=
  (sha256.sum (sha256.sum body)).take 4

/-- Modelled from the spec: `base58.CheckEncode`, the version byte, the payload and the
checksum of both, Base58-encoded. -/
def checkEncode (sha256 : Digest 32) (input : List UInt8) (version : UInt8) : List UInt8 :=
  encode (version :: input ++ checksum sha256 (version :: input))

/-- Modelled from the spec: `base58.CheckDecode`. It fails with the length error unless
the decoded bytes hold a version byte and four checksum bytes (the payload size is not a
parameter: the callers switch on it), and with `ErrChecksum` when the carried checksum
differs from the recomputed one. -/
def checkDecode (sha256 : Digest 32) (s : List UInt8) : Except GoError (List UInt8 × UInt8) :=
  let decoded := decode s
  if decoded.length < 5 then .error .errInvalidLength
  else
    let body := decoded.take (decoded.length - 4)
    if checksum sha256 body = decoded.drop (decoded.length - 4) then
      .ok (body.tail, body.headD 0)
    else .error .errChecksum

theorem toDigits_eq {b fuel x : Nat} (hb : 2 ≤ b) (h : x ≤ fuel) :
    toDigits b fuel x = (Nat.digits b x).reverse := by
  induction fuel generalizing x with
  | zero => simp [toDigits, Nat.le_zero.mp h]
  | succ fuel ih =>
    rw [toDigits]
    split
    · simp [*]
    · have hx : 0 < x := Nat.pos_of_ne_zero ‹_›
      rw [Nat.digits_def' hb hx, List.reverse_cons,
        ih (Nat.le_of_lt_succ (Nat.lt_of_lt_of_le (Nat.div_lt_self hx hb) h))]

theorem beValue_digits (b x : Nat) :
    beValue b (Nat.digits b x).reverse = x := by
  rw [beValue_eq_ofDigits, List.reverse_reverse, Nat.ofDigits_digits]

theorem digits_beValue {b : Nat} (hb : 2 ≤ b) {xs : List Nat} (hl : ∀ d ∈ xs, d < b)
    (hd : xs.head? ≠ some 0) : (Nat.digits b (beValue b xs)).reverse = xs := by
  rw [beValue_eq_ofDigits, Nat.digits_ofDigits b hb _ (by simpa using hl), List.reverse_reverse]
  intro hne
  rw [List.getLast_reverse]
  cases xs with
  | nil => simp at hne
  | cons x xs => simpa using hd

theorem beValue_replicate_zero (b n : Nat) (xs : List Nat) :
    beValue b (List.replicate n 0 ++ xs) = beValue b xs := by
  induction n with
  | zero => rfl
  | succ n ih => rw [List.replicate_succ, List.cons_append, beValue_cons, ih]; simp

theorem length_digits_lt {b k x : Nat} (hb : 2 ≤ b) (h : b ^ k ≤ x) :
    k < (Nat.digits b x).length :=
  (Nat.pow_lt_pow_iff_right hb).mp (Nat.lt_of_le_of_lt h (Nat.lt_base_pow_length_digits hb))

theorem length_digits_le {b k x : Nat} (hb : 2 ≤ b) (h : x < b ^ k) :
    (Nat.digits b x).length ≤ k := by
  rcases Nat.eq_zero_or_pos x with rfl | hx
  · simp
  · rw [Nat.digits_len b x hb hx.ne']
    exact Nat.log_lt_of_lt_pow hx.ne' h

theorem digitOf_alphabet : ∀ d < 58, digitOf (alphabet.getD d 0) = some d := by decide

theorem alphabet_ne_leadingChar : ∀ d < 58, 0 < d → alphabet.getD d 0 ≠ leadingChar := by
  decide

theorem digitOf_eq_some {c : UInt8} {d : Nat} (h : digitOf c = some d) :
    d < 58 ∧ alphabet.getD d 0 = c :=
  ⟨List.mem_range.mp (List.mem_of_find?_eq_some h), by simpa using List.find?_some h⟩

theorem mapM_digitOf (ds : List Nat) (h : ∀ d ∈ ds, d < 58) :
    (ds.map fun d => alphabet.getD d 0).mapM digitOf = some ds := by
  induction ds with
  | nil => rfl
  | cons d ds ih =>
    rw [List.map_cons, List.mapM_cons, digitOf_alphabet d (h d (List.mem_cons_self _ _)),
      ih fun e he => h e (List.mem_cons_of_mem _ he)]
    rfl

/-- A list is its run of leading `a`s followed by the rest. -/
theorem replicate_takeWhile_append {α : Type} [DecidableEq α] (a : α) (l : List α) :
    List.replicate (l.takeWhile (· = a)).length a ++ l.dropWhile (· = a) = l := by
  conv_rhs => rw [← List.takeWhile_append_dropWhile (· = a) l]
  congr 1
  exact (List.eq_replicate_iff.mpr ⟨rfl, fun x hx => by
    simpa using List.mem_takeWhile_imp hx⟩).symm

theorem head?_dropWhile_ne {α : Type} [DecidableEq α] (a : α) (l : List α) :
    (l.dropWhile (· = a)).head? ≠ some a := by
  have h := List.head?_dropWhile_not (· = a) l
  intro he
  rw [he] at h
  simp at h

theorem takeWhile_replicate_append {α : Type} [DecidableEq α] (a : α) (n : Nat)
    (l : List α) (h : l.head? ≠ some a) :
    ((List.replicate n a ++ l).takeWhile (· = a)).length = n := by
  rw [List.takeWhile_append_of_pos (by simp [List.mem_replicate])]
  cases l with
  | nil => simp
  | cons x l =>
    have hx : x ≠ a := fun e => h (by simp [e])
    simp [hx]

theorem head?_digits_reverse (b x : Nat) : (Nat.digits b x).reverse.head? ≠ some 0 := by
  rcases Nat.eq_zero_or_pos x with rfl | hx
  · simp
  · rw [List.head?_reverse, List.getLast?_eq_getLast _ (Nat.digits_ne_nil_iff_ne_zero.mpr hx.ne')]
    simpa using Nat.getLast_digit_ne_zero b hx.ne'

theorem encode_eq (b : List UInt8) : encode b =
    (List.replicate (b.takeWhile (· = 0)).length 0 ++
      (Nat.digits 58 (beValue 256 (b.map UInt8.toNat))).reverse).map
        fun d => alphabet.getD d 0 := by
  rw [encode, toDigits_eq (by norm_num) le_rfl, List.map_append, List.map_replicate]
  rfl

/-- The leading-character run of an encoding is exactly the zero bytes it stands for. -/
theorem takeWhile_encode (b : List UInt8) :
    ((encode b).takeWhile (· = leadingChar)).length = (b.takeWhile (· = 0)).length := by
  rw [encode, toDigits_eq (by norm_num) le_rfl]
  apply takeWhile_replicate_append
  have h := head?_digits_reverse 58 (beValue 256 (b.map UInt8.toNat))
  cases hd : (Nat.digits 58 (beValue 256 (b.map UInt8.toNat))).reverse with
  | nil => simp
  | cons d ds =>
    have hd58 : d < 58 := Nat.digits_lt_base (by norm_num)
      (List.mem_reverse.mp (hd ▸ List.mem_cons_self d ds))
    simpa using alphabet_ne_leadingChar d hd58 (Nat.pos_of_ne_zero (by simpa [hd] using h))

theorem beValue_dropWhile (b : List UInt8) : beValue 256 (b.map UInt8.toNat) =
    beValue 256 ((b.dropWhile (· = 0)).map UInt8.toNat) := by
  conv_lhs => rw [← replicate_takeWhile_append (0 : UInt8) b]
  rw [List.map_append, List.map_replicate]
  exact beValue_replicate_zero _ _ _

/-- Decoding undoes encoding, for every byte string. -/
theorem decode_encode (b : List UInt8) : decode (encode b) = b := by
  have hb := replicate_takeWhile_append (0 : UInt8) b
  have hx := beValue_dropWhile b
  have hlt : ∀ d ∈ (Nat.digits 58 (beValue 256 (b.map UInt8.toNat))).reverse, d < 58 :=
    fun d hd => Nat.digits_lt_base (by norm_num) (List.mem_reverse.mp hd)
  have hrest : (Nat.digits 256 (beValue 256 ((b.dropWhile (· = 0)).map UInt8.toNat))).reverse =
      (b.dropWhile (· = 0)).map UInt8.toNat := by
    apply digits_beValue (by norm_num) (by simpa using fun c _ => toNat_lt_256 c)
    have h0 := head?_dropWhile_ne (0 : UInt8) b
    cases hr : b.dropWhile (· = 0) with
    | nil => simp
    | cons c cs =>
      intro hc
      apply h0
      simp only [hr, List.map_cons, List.head?_cons, Option.some.injEq] at hc ⊢
      rw [← toUInt8_toNat c, hc]
      rfl
  have hm : (encode b).mapM digitOf = some (List.replicate (b.takeWhile (· = 0)).length 0 ++
      (Nat.digits 58 (beValue 256 (b.map UInt8.toNat))).reverse) := by
    rw [encode_eq]
    refine mapM_digitOf _ fun d hd => ?_
    rcases List.mem_append.mp hd with h | h
    · rw [List.eq_of_mem_replicate h]; norm_num
    · exact hlt d h
  rw [decode, hm]
  dsimp only
  rw [takeWhile_encode, beValue_replicate_zero, beValue_digits,
    toDigits_eq (by norm_num) le_rfl, hx, hrest, List.map_map]
  conv_rhs => rw [← hb]
  simp

theorem length_checksum (sha256 : Digest 32) (body : List UInt8) :
    (checksum sha256 body).length = 4 := by
  simp [checksum]

/-- Base58Check decoding undoes encoding, for every payload and version byte and for
any hash function. -/
theorem checkDecode_checkEncode (sha256 : Digest 32) (input : List UInt8) (version : UInt8) :
    checkDecode sha256 (checkEncode sha256 input version) = .ok (input, version) := by
  have hl := length_checksum sha256 (version :: input)
  have hlen : (version :: input ++ checksum sha256 (version :: input)).length - 4 =
      (version :: input).length := by simp [hl]
  rw [checkDecode, checkEncode, decode_encode, hlen, List.take_left' rfl,
    List.drop_left' rfl, if_neg (by simp [hl]), if_pos rfl]
  rfl

theorem map_alphabet_of_mapM {s : List UInt8} {ds : List Nat} (hs : s.mapM digitOf = some ds) :
    ds.map (fun d => alphabet.getD d 0) = s ∧ ∀ d ∈ ds, d < 58 := by
  induction s generalizing ds with
  | nil => cases hs; simp
  | cons c s ih =>
    obtain ⟨d, ds', hd, hds', rfl⟩ := mapM_cons_some hs
    obtain ⟨hd58, hc⟩ := digitOf_eq_some hd
    obtain ⟨ih₁, ih₂⟩ := ih hds'
    refine ⟨by rw [List.map_cons, hc, ih₁], fun e he => ?_⟩
    rcases List.mem_cons.mp he with rfl | he
    · exact hd58
    · exact ih₂ e he

/-- Encoding undoes decoding on every string of alphabet characters: Base58 decoding is
canonical. -/
theorem encode_decode {s : List UInt8} {ds : List Nat} (hs : s.mapM digitOf = some ds) :
    encode (decode s) = s := by
  obtain ⟨hmap, hds⟩ := map_alphabet_of_mapM hs
  have hsplit := replicate_takeWhile_append 0 ds
  set z := (ds.takeWhile (· = 0)).length
  set dr := ds.dropWhile (· = 0)
  have hdr : dr.head? ≠ some 0 := head?_dropWhile_ne 0 ds
  have hdr58 : ∀ d ∈ dr, d < 58 := fun d hd => hds d (hsplit ▸ List.mem_append_right _ hd)
  have hz : (s.takeWhile (· = leadingChar)).length = z := by
    rw [← hmap, ← hsplit, List.map_append, List.map_replicate]
    apply takeWhile_replicate_append
    cases hd : dr with
    | nil => simp
    | cons d ds' =>
      have hd0 : 0 < d := Nat.pos_of_ne_zero fun h0 => hdr (by rw [hd, h0]; rfl)
      simpa using alphabet_ne_leadingChar d (hdr58 d (hd ▸ List.mem_cons_self d ds')) hd0
  set bytes := (Nat.digits 256 (beValue 58 dr)).reverse
  have hb256 : ∀ n ∈ bytes, n < 256 :=
    fun n hn => Nat.digits_lt_base (by norm_num) (List.mem_reverse.mp hn)
  have hdec : decode s = List.replicate z 0 ++ bytes.map Nat.toUInt8 := by
    rw [decode, hs]
    dsimp only
    rw [hz, toDigits_eq (by norm_num) le_rfl, ← hsplit, beValue_replicate_zero]
  have hz' : ((decode s).takeWhile (· = 0)).length = z := by
    rw [hdec]
    apply takeWhile_replicate_append
    have hb0 := head?_digits_reverse 256 (beValue 58 dr)
    cases hb : bytes with
    | nil => simp
    | cons n ns =>
      have hn256 : n < 256 := hb256 n (hb ▸ List.mem_cons_self n ns)
      intro h0
      apply hb0
      rw [show (Nat.digits 256 (beValue 58 dr)).reverse = bytes from rfl, hb]
      simp only [List.map_cons, List.head?_cons, Option.some.injEq] at h0 ⊢
      rw [← toNat_toUInt8 hn256, h0]
      rfl
  have hval : beValue 256 ((decode s).map UInt8.toNat) = beValue 58 dr := by
    rw [hdec, List.map_append, List.map_replicate, map_toNat_map_toUInt8 hb256,
      UInt8.toNat_zero, beValue_replicate_zero, beValue_digits]
  rw [encode_eq, hz', hval, digits_beValue (by norm_num) hdr58 hdr, hsplit, hmap]

/-- A string that decodes to some bytes is their encoding. -/
theorem encode_decode_of_ne_nil {s : List UInt8} (h : decode s ≠ []) : encode (decode s) = s := by
  cases hm : s.mapM digitOf with
  | none => rw [decode, hm] at h; exact absurd rfl h
  | some ds => exact encode_decode hm

/-- Base58Check decoding is canonical: a string `CheckDecode` accepts is `CheckEncode` of
the payload and version byte it returns, for any hash function. -/
theorem checkEncode_checkDecode {sha256 : Digest 32} {s input : List UInt8} {version : UInt8}
    (h : checkDecode sha256 s = .ok (input, version)) : checkEncode sha256 input version = s := by
  simp only [checkDecode] at h
  split_ifs at h with h5 hsum
  cases h
  have hbody : ∀ l : List UInt8, l ≠ [] → l.headD 0 :: l.tail = l := by
    rintro (_ | ⟨x, l⟩) hl
    · exact absurd rfl hl
    · rfl
  rw [checkEncode, hbody _ (List.ne_nil_of_length_pos (by rw [List.length_take]; omega)), hsum,
    List.take_append_drop, encode_decode_of_ne_nil (List.ne_nil_of_length_pos (by omega))]

theorem length_encode (b : List UInt8) : (encode b).length =
    (b.takeWhile (· = 0)).length + (Nat.digits 58 (beValue 256 (b.map UInt8.toNat))).length := by
  simp [encode_eq]

theorem pow_le_beValue {b x : Nat} (xs : List Nat) (hx : 0 < x) :
    b ^ xs.length ≤ beValue b (x :: xs) := by
  rw [beValue_cons]
  exact Nat.le_add_right_of_le (Nat.le_mul_of_pos_left _ hx)

/-- A 25-byte Base58Check body encodes to between 25 and 35 characters. -/
theorem length_encode_bounds (b : List UInt8) (hb : b.length = 25) :
    25 ≤ (encode b).length ∧ (encode b).length ≤ 35 := by
  have hsplit := congrArg List.length (replicate_takeWhile_append (0 : UInt8) b)
  rw [List.length_append, List.length_replicate, hb] at hsplit
  rw [length_encode, beValue_dropWhile]
  constructor
  · cases hr : b.dropWhile (· = 0) with
    | nil => rw [hr] at hsplit; simp at hsplit ⊢; omega
    | cons c cs =>
      have hc : 0 < c.toNat := by
        have h0 := head?_dropWhile_ne (0 : UInt8) b
        rw [hr] at h0
        refine Nat.pos_of_ne_zero fun h => h0 ?_
        rw [List.head?_cons, ← toUInt8_toNat c, h]
        rfl
      have h256 := pow_le_beValue (b := 256) (cs.map UInt8.toNat) hc
      have h58 : 58 ^ cs.length ≤ 256 ^ cs.length := Nat.pow_le_pow_left (by norm_num) _
      rw [List.length_map] at h256
      have := length_digits_lt (by norm_num) (Nat.le_trans h58 h256)
      rw [hr] at hsplit
      simp only [List.map_cons, List.length_cons] at hsplit this ⊢
      omega
  · have hv : beValue 256 ((b.dropWhile (· = 0)).map UInt8.toNat) <
        256 ^ ((b.dropWhile (· = 0)).map UInt8.toNat).length :=
      beValue_lt (by simpa using fun c _ => toNat_lt_256 c)
    have hpow : ∀ z ≤ 25, 256 ^ (25 - z) ≤ 58 ^ (35 - z) := by decide
    have hz := hpow (b.takeWhile (· = 0)).length (by omega)
    rw [List.length_map, show (b.dropWhile (· = 0)).length = 25 - (b.takeWhile (· = 0)).length
      by omega] at hv
    have := length_digits_le (by norm_num) (Nat.lt_of_lt_of_le hv hz)
    omega

/-- A string whose first character stands for a nonzero digit decodes to more than `k`
bytes once `256 ^ k` is below the value of its remaining characters' place. -/
theorem length_decode_gt {s : List UInt8} {d k : Nat} {ds : List Nat}
    (hs : s.mapM digitOf = some (d :: ds)) (hd : 0 < d) (hk : 256 ^ k ≤ 58 ^ ds.length) :
    k < (decode s).length := by
  rw [decode, hs]
  simp only [List.length_append, List.length_map, toDigits_eq (b := 256) (by norm_num) le_rfl,
    List.length_reverse]
  have := length_digits_lt (b := 256) (by norm_num) (Nat.le_trans hk (pow_le_beValue ds hd))
  omega

theorem length_checkDecode {sha256 : Digest 32} {s decoded : List UInt8} {v : UInt8}
    (h : checkDecode sha256 s = .ok (decoded, v)) : (decode s).length = decoded.length + 5 := by
  simp only [checkDecode] at h
  split_ifs at h with h5
  cases h
  simp only [List.length_tail, List.length_take]
  omega

theorem decode_of_not_mem {s : List UInt8} {c : UInt8} (hc : c ∈ s) (hd : digitOf c = none) :
    decode s = [] := by
  rw [decode]
  cases hm : s.mapM digitOf with
  | none => rfl
  | some ds => exact absurd hc (not_mem_of_mapM_some hm hd)

/-- A 42-character string not led by the zero character decodes to nothing or to more than
25 bytes. -/
theorem length_decode_long {s : List UInt8} (hlen : s.length = 42)
    (hlead : s.head? ≠ some leadingChar) : decode s = [] ∨ 25 < (decode s).length := by
  cases hm : s.mapM digitOf with
  | none => left; rw [decode, hm]
  | some ds =>
    right
    have hds := length_of_mapM_some hm
    obtain ⟨c, s', rfl⟩ := List.exists_cons_of_length_eq_add_one hlen
    obtain ⟨d, ds', hd, hds', rfl⟩ := mapM_cons_some hm
    have hd0 : 0 < d := by
      rcases Nat.eq_zero_or_pos d with rfl | h
      · obtain ⟨-, hc⟩ := digitOf_eq_some hd
        exact absurd (by rw [← hc]; rfl) hlead
      · exact h
    refine length_decode_gt hm hd0 ?_
    rw [show ds'.length = 41 by simp at hds hlen; omega]
    norm_num

theorem alphabet_alnum : ∀ c ∈ alphabet, isLower c ∨ isUpper c ∨ isDigit c := by decide

theorem encode_mem_alphabet (b : List UInt8) : ∀ c ∈ encode b, c ∈ alphabet := by
  intro c hc
  rw [encode_eq, List.map_append, List.mem_append] at hc
  rcases hc with h | h
  · obtain ⟨d, hd, rfl⟩ := List.mem_map.mp h
    rw [List.eq_of_mem_replicate hd]; decide
  · obtain ⟨d, hd, rfl⟩ := List.mem_map.mp h
    have hlt : d < alphabet.length := by
      rw [List.mem_reverse] at hd
      exact Nat.digits_lt_base (by decide) hd
    rw [List.getD_eq_getElem?_getD, List.getElem?_eq_getElem hlt, Option.getD_some]
    exact List.getElem_mem hlt

end AddressUtil.Base58
