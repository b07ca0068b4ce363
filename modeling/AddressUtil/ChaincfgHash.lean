import AddressUtil.Chains

/-! `chaincfg.Hash` with `String`, `SetBytes` and `Decode`: both of their loops reverse the bytes,
and `NewHashFromStr` reads every hash string back. -/

namespace AddressUtil.Chaincfg

open Bchutil

/-- `HashSize`. -/
def hashSize : Nat := 32

/-- `MaxHashStringSize`. -/
def maxHashStringSize : Nat := hashSize * 2

/-- `ErrHashStrSize`, `fmt.Errorf("max hash string length is %v bytes", MaxHashStringSize)`. -/
def errHashStrSize : GoError := .new "max hash string length is 64 bytes"

/-- `Hash`, a `[HashSize]byte` array. -/
structure Hash where
  bytes : List UInt8
  length_bytes : bytes.length = hashSize
  deriving DecidableEq

/-- The zero hash, as `new(Hash)` and `var sh Hash` leave it. -/
def zeroHash : Hash := ⟨List.replicate hashSize 0, List.length_replicate _ _⟩

/-- One iteration of the reversing loops: `dst[i], dst[HashSize-1-i] = src[HashSize-1-i],
src[i]`, both sides read before either is written. -/
def copyStep (src dst : List UInt8) (i : Nat) : List UInt8 :=
  (dst.set i (src.getD (hashSize - 1 - i) 0)).set (hashSize - 1 - i) (src.getD i 0)

/-- `String`'s loop, `for i := 0; i < HashSize/2; i++`, swapping in place. -/
def swapLoop (hash : List UInt8) : List UInt8 :=
  (List.range (hashSize / 2)).foldl (fun h i => copyStep h h i) hash

/-- `Decode`'s last loop, `for i, b := range reversedHash[:HashSize/2]`, writing `dst`. -/
def copyLoop (src dst : List UInt8) : List UInt8 :=
  (List.range (hashSize / 2)).foldl (copyStep src) dst

@[simp] theorem length_copyStep (src dst : List UInt8) (i : Nat) :
    (copyStep src dst i).length = dst.length := by
  simp [copyStep]

theorem length_foldl_copyStep (f : List UInt8 → List UInt8) (dst : List UInt8) (is : List Nat) :
    (is.foldl (fun h i => copyStep (f h) h i) dst).length = dst.length := by
  induction is generalizing dst with
  | nil => rfl
  | cons i is ih => rw [List.foldl_cons, ih, length_copyStep]

theorem length_copyLoop (src dst : List UInt8) : (copyLoop src dst).length = dst.length :=
  length_foldl_copyStep (fun _ => src) dst _

/-- `Hash.String`: the bytes reversed, in hex. `hash` is a value receiver, so the loop runs
on a copy. -/
def Hash.string (hash : Hash) : List UInt8 := hexEncodeToString (swapLoop hash.bytes)

/-- `CloneBytes`. -/
def Hash.cloneBytes (hash : Hash) : List UInt8 := hash.bytes

/-- `SetBytes`: the hash afterwards and the error; a refused slice leaves the hash as it
was. -/
def Hash.setBytes (hash : Hash) (newHash : List UInt8) : Hash × Option GoError :=
  if h : newHash.length = hashSize then (⟨newHash, h⟩, none)
  else (hash, some (.new ("invalid hash length of " ++ toString newHash.length ++ ", want " ++
    toString hashSize)))

/-- `IsEqual`, on pointers that may be nil. -/
def Hash.isEqual : Option Hash → Option Hash → Bool
  | none, none => true
  | none, some _ | some _, none => false
  | some hash, some target => hash == target

/-- `NewHash`. -/
def newHash (newHash : List UInt8) : Except GoError Hash :=
  match zeroHash.setBytes newHash with
  | (_, some err) => .error err
  | (sh, none) => .ok sh

/-- `Decode`: `dst` afterwards and the error; on an error `dst` is left as it was. A string
of odd length gets a leading `'0'`; the decoded bytes fill the tail of a zero hash, which
is copied reversed into `dst`. -/
def decode (dst : Hash) (src : List UInt8) : Hash × Option GoError :=
  if src.length > maxHashStringSize then (dst, some errHashStrSize)
  else
    let srcBytes := if src.length % 2 = 0 then src else '0'.toUInt8 :: src
    match hexDecodeString srcBytes with
    | .error e => (dst, some e)
    | .ok decoded =>
      let reversedHash := List.replicate (hashSize - decoded.length) 0 ++ decoded
      (⟨copyLoop reversedHash dst.bytes, (length_copyLoop _ _).trans dst.length_bytes⟩, none)

/-- `NewHashFromStr`: `Decode` into a fresh zero hash. -/
def newHashFromStr (hash : List UInt8) : Except GoError Hash :=
  match decode zeroHash hash with
  | (_, some err) => .error err
  | (ret, none) => .ok ret

theorem Hash.eq_of_bytes {a b : Hash} (h : a.bytes = b.bytes) : a = b := by
  cases a; cases b; cases h; rfl

theorem Hash.isEqual_iff (hash target : Option Hash) : Hash.isEqual hash target = true ↔
    hash = target := by
  cases hash <;> cases target <;> simp [Hash.isEqual]

/-- A step moves the mirrored pair `i`, `31 - i` and nothing else. -/
theorem getElem?_copyStep (src dst : List UInt8) (hd : dst.length = hashSize) {i : Nat}
    (hi : i < hashSize / 2) (j : Nat) : (copyStep src dst i)[j]? =
      if j = i then some (src.getD (hashSize - 1 - i) 0)
      else if j = hashSize - 1 - i then some (src.getD i 0) else dst[j]? := by
  simp only [hashSize] at hd hi ⊢
  simp only [copyStep, hashSize, List.getElem?_set, List.length_set, hd]
  by_cases hj : j = i
  · subst hj; simp [show 31 - j ≠ j by omega, show j < 32 by omega]
  · by_cases hj' : j = 31 - i
    · subst hj'; simp [show i ≠ 31 - i by omega, show 31 - i ≠ i by omega, show 31 - i < 32 by omega]
    · simp [hj, hj', Ne.symm hj, Ne.symm hj']

/-- After `k` steps the first `k` bytes and the last `k` hold their mirrors in `src`, and the
middle is `dst`'s. -/
theorem getElem?_foldl_copyStep (src dst : List UInt8) (hd : dst.length = hashSize) {k : Nat}
    (hk : k ≤ hashSize / 2) {j : Nat} (hj : j < hashSize) :
    ((List.range k).foldl (copyStep src) dst)[j]? =
      if j < k ∨ hashSize - 1 - k < j then some (src.getD (hashSize - 1 - j) 0) else dst[j]? := by
  induction k with
  | zero => simp only [hashSize] at hj ⊢; simp [show ¬ 31 < j by omega]
  | succ k ih =>
    have hlen : ((List.range k).foldl (copyStep src) dst).length = hashSize :=
      (length_foldl_copyStep (fun _ => src) dst _).trans hd
    rw [List.range_succ, List.foldl_append, List.foldl_cons, List.foldl_nil,
      getElem?_copyStep _ _ hlen (by omega), ih (by omega)]
    simp only [hashSize] at hj hk ⊢
    by_cases h₁ : j = k
    · subst h₁; simp
    · by_cases h₂ : j = 31 - k
      · subst h₂
        rw [if_neg (by omega), if_pos rfl, if_pos (by omega), show 31 - (31 - k) = k by omega]
      · simp only [h₁, h₂, if_false]
        congr 1
        exact propext (by omega)

/-- Half a run over 32 bytes writes `dst` with `src` reversed. -/
theorem copyLoop_eq_reverse {src dst : List UInt8} (hs : src.length = hashSize)
    (hd : dst.length = hashSize) : copyLoop src dst = src.reverse := by
  apply List.ext_getElem?
  intro j
  by_cases hj : j < hashSize
  · rw [copyLoop, getElem?_foldl_copyStep src dst hd le_rfl hj, if_pos (by simp only [hashSize] at hj ⊢; omega),
      List.getElem?_reverse (by omega), List.getD_eq_getElem?_getD, hs,
      List.getElem?_eq_getElem (by simp only [hashSize] at hs hj ⊢; omega), Option.getD_some]
  · rw [List.getElem?_eq_none (by rw [copyLoop, length_foldl_copyStep (fun _ => src)]; omega),
      List.getElem?_eq_none (by rw [List.length_reverse]; omega)]

/-- The in-place loop reads, at step `i`, bytes no earlier step has moved. -/
theorem swapLoop_eq_copyLoop {hash : List UInt8} (hh : hash.length = hashSize) :
    swapLoop hash = copyLoop hash hash := by
  have hrun : ∀ k ≤ hashSize / 2, (List.range k).foldl (fun h i => copyStep h h i) hash =
      (List.range k).foldl (copyStep hash) hash := by
    intro k hk
    induction k with
    | zero => rfl
    | succ k ih =>
      rw [List.range_succ, List.foldl_append, List.foldl_append, ih (by omega)]
      simp only [List.foldl_cons, List.foldl_nil]
      have hfix (j : Nat) (hj : j = k ∨ j = hashSize - 1 - k) :
          ((List.range k).foldl (copyStep hash) hash).getD j 0 = hash.getD j 0 := by
        simp only [hashSize] at hk hj
        rw [List.getD_eq_getElem?_getD, List.getD_eq_getElem?_getD,
          getElem?_foldl_copyStep hash hash hh (by simp only [hashSize]; omega)
            (by simp only [hashSize]; omega),
          if_neg (by simp only [hashSize]; omega)]
      simp only [copyStep, hfix k (.inl rfl), hfix (hashSize - 1 - k) (.inr rfl)]
  exact hrun _ le_rfl

theorem swapLoop_eq_reverse {hash : List UInt8} (hh : hash.length = hashSize) :
    swapLoop hash = hash.reverse := by
  rw [swapLoop_eq_copyLoop hh, copyLoop_eq_reverse hh hh]

theorem fromHexChar_bytes : ∀ n < 256, (fromHexChar n.toUInt8).all (fun x =>
    decide (x < 16) && hexDigits.getD x 0 == foldCase n.toUInt8) = true := by
  set_option maxRecDepth 4000 in decide

/-- A hex character's value is a nibble, whose lowercase digit is the character up to
case. -/
theorem fromHexChar_some {c : UInt8} {x : Nat} (h : fromHexChar c = some x) :
    x < 16 ∧ hexDigits.getD x 0 = foldCase c := by
  simpa [h] using fromHexChar_bytes c.toNat (toNat_lt_256 c)

/-- What Go's hex decoder accepts is hex characters, and the encoding of what it returns is
the input in lowercase. -/
theorem hexDecodeString_ok : ∀ {s b : List UInt8}, hexDecodeString s = .ok b →
    (∀ c ∈ s, (fromHexChar c).isSome) ∧ hexEncodeToString b = s.map foldCase
  | [], b, h => by cases h; exact ⟨by simp, rfl⟩
  | [c], b, h => by cases h
  | x :: y :: rest, b, h => by
    simp only [hexDecodeString] at h
    split at h
    · next u v hu hv =>
      cases hr : hexDecodeString rest with
      | error e => rw [hr] at h; cases h
      | ok b' =>
        rw [hr] at h
        cases h
        obtain ⟨hall, henc⟩ := hexDecodeString_ok hr
        obtain ⟨hu16, hux⟩ := fromHexChar_some hu
        obtain ⟨hv16, hvy⟩ := fromHexChar_some hv
        refine ⟨?_, ?_⟩
        · simpa [hu, hv] using hall
        · rw [hexEncodeToString_cons, henc, toNat_toUInt8 (by omega),
            show (u * 16 + v) / 16 = u by omega, show (u * 16 + v) % 16 = v by omega, hux, hvy]
          rfl
    all_goals cases h

/-- Go's hex decoder accepts every string of hex characters of even length. -/
theorem hexDecodeString_isOk : ∀ {s : List UInt8}, s.length % 2 = 0 →
    (∀ c ∈ s, (fromHexChar c).isSome) → ∃ b, hexDecodeString s = .ok b
  | [], _, _ => ⟨[], rfl⟩
  | [c], h, _ => by simp at h
  | x :: y :: rest, h, hall => by
    obtain ⟨u, hu⟩ := Option.isSome_iff_exists.mp (hall x (by simp))
    obtain ⟨v, hv⟩ := Option.isSome_iff_exists.mp (hall y (by simp))
    obtain ⟨b, hb⟩ := hexDecodeString_isOk (s := rest) (by simp at h; omega)
      fun c hc => hall c (by simp [hc])
    exact ⟨_, by simp only [hexDecodeString, hu, hv, hb]; rfl⟩

theorem hexEncodeToString_append (a b : List UInt8) :
    hexEncodeToString (a ++ b) = hexEncodeToString a ++ hexEncodeToString b :=
  List.flatMap_append _ _ _

theorem hexEncodeToString_replicate (k : Nat) :
    hexEncodeToString (List.replicate k 0) = List.replicate (2 * k) '0'.toUInt8 := by
  induction k with
  | zero => rfl
  | succ k ih =>
    rw [List.replicate_succ, hexEncodeToString_cons, ih, show 2 * (k + 1) = 2 * k + 1 + 1 by omega,
      List.replicate_succ, List.replicate_succ]
    rfl

theorem Hash.string_eq (hash : Hash) : hash.string = hexEncodeToString hash.bytes.reverse := by
  rw [Hash.string, swapLoop_eq_reverse hash.length_bytes]

/-- When `Decode` succeeds, and what it leaves in `dst`: the hex digits it reads (with a
leading zero digit for an odd count) decoded, padded on the left to 32 bytes and reversed,
whatever `dst` held. -/
theorem decode_eq_none_iff (dst : Hash) (s : List UInt8) (hash : Hash) :
    decode dst s = (hash, none) ↔ s.length ≤ 64 ∧ ∃ decoded,
      hexDecodeString (if s.length % 2 = 0 then s else '0'.toUInt8 :: s) = .ok decoded ∧
      hash.bytes = (List.replicate (32 - decoded.length) 0 ++ decoded).reverse := by
  by_cases hl : s.length ≤ 64
  swap
  · simp [decode, maxHashStringSize, hashSize, show s.length > 32 * 2 by omega, hl]
  have hpad : (if s.length % 2 = 0 then s else '0'.toUInt8 :: s).length ≤ 64 := by
    split_ifs <;> (try simp only [List.length_cons]) <;> omega
  cases hd : hexDecodeString (if s.length % 2 = 0 then s else '0'.toUInt8 :: s) with
  | error e => simp [decode, maxHashStringSize, hashSize, show ¬ s.length > 32 * 2 by omega, hd]
  | ok decoded =>
    have h32 : decoded.length ≤ 32 := by have := length_hexDecodeString hd; omega
    have hcopy : copyLoop (List.replicate (32 - decoded.length) 0 ++ decoded) dst.bytes =
        (List.replicate (32 - decoded.length) 0 ++ decoded).reverse :=
      copyLoop_eq_reverse (by simp [hashSize]; omega) dst.length_bytes
    simp only [decode, maxHashStringSize, hashSize, if_neg (show ¬ s.length > 32 * 2 by omega), hd,
      Prod.mk.injEq, and_true, Except.ok.injEq, exists_eq_left', hl, true_and]
    constructor
    · rintro rfl
      simp only [hcopy]
    · intro hb
      exact Hash.eq_of_bytes (by simp only [hcopy, hb])

/-- A refused request leaves the hash as it was: `SetBytes` and `Decode` write only when
they succeed, and `SetBytes` refuses exactly the slices of the wrong length. -/
theorem setBytes_decode_of_error (hash : Hash) (b s : List UInt8) :
    ((hash.setBytes b).2.isSome = true ↔ b.length ≠ hashSize) ∧
      ((hash.setBytes b).2.isSome = true → (hash.setBytes b).1 = hash) ∧
      ((decode hash s).2.isSome = true → (decode hash s).1 = hash) := by
  refine ⟨?_, ?_, fun h => ?_⟩
  · unfold Hash.setBytes; split_ifs <;> simp [*]
  · unfold Hash.setBytes; split_ifs <;> simp
  simp only [decode] at h ⊢
  split_ifs at h ⊢ <;> first | rfl | (split <;> simp_all)

theorem newHashFromStr_eq_ok (s : List UInt8) (hash : Hash) :
    newHashFromStr s = .ok hash ↔ decode zeroHash s = (hash, none) := by
  rw [newHashFromStr]
  rcases decode zeroHash s with ⟨h, _ | e⟩ <;> simp

/-- `NewHashFromStr` reads back every hash's string. -/
theorem newHashFromStr_string (hash : Hash) : newHashFromStr hash.string = .ok hash := by
  have hl : hash.bytes.reverse.length = 32 := by rw [List.length_reverse]; exact hash.length_bytes
  have hlen : hash.string.length = 64 := by rw [Hash.string_eq, length_hexEncodeToString, hl]
  refine (newHashFromStr_eq_ok _ _).mpr ((decode_eq_none_iff _ _ _).mpr ⟨hlen.le, hash.bytes.reverse, ?_, ?_⟩)
  · rw [if_pos (by rw [hlen]), Hash.string_eq, hexDecodeString_hexEncodeToString]
  · rw [hl, Nat.sub_self, List.replicate_zero, List.nil_append, List.reverse_reverse]

/-- `NewHashFromStr` accepts exactly the strings of at most 64 hex digits, and the string of
the hash it returns is the input in lowercase, padded on the left with zeros to 64 digits. -/
theorem newHashFromStr_canonical (s : List UInt8) :
    ((∃ hash, newHashFromStr s = .ok hash) ↔ s.length ≤ 64 ∧ ∀ c ∈ s, (fromHexChar c).isSome) ∧
    ∀ hash, newHashFromStr s = .ok hash →
      hash.string = List.replicate (64 - s.length) '0'.toUInt8 ++ s.map foldCase := by
  have hmem : ∀ c ∈ (if s.length % 2 = 0 then s else '0'.toUInt8 :: s), c = '0'.toUInt8 ∨ c ∈ s := by
    intro c hc
    split_ifs at hc
    exacts [.inr hc, List.mem_cons.mp hc]
  refine ⟨⟨fun ⟨hash, h⟩ => ?_, fun ⟨hl, hall⟩ => ?_⟩, fun hash h => ?_⟩
  · obtain ⟨hl, decoded, hd, -⟩ := (decode_eq_none_iff _ _ _).mp ((newHashFromStr_eq_ok _ _).mp h)
    refine ⟨hl, fun c hc => (hexDecodeString_ok hd).1 c ?_⟩
    split_ifs <;> simp [hc]
  · obtain ⟨decoded, hd⟩ := hexDecodeString_isOk (by split_ifs <;> (try simp only [List.length_cons]) <;> omega)
      fun c hc => (hmem c hc).elim (fun h => h ▸ rfl) (hall c)
    have h32 : decoded.length ≤ 32 := by
      have := length_hexDecodeString hd
      split_ifs at this <;> (try simp only [List.length_cons] at this) <;> omega
    exact ⟨⟨(List.replicate (32 - decoded.length) 0 ++ decoded).reverse, by simp [hashSize]; omega⟩,
      (newHashFromStr_eq_ok _ _).mpr ((decode_eq_none_iff _ _ _).mpr ⟨hl, decoded, hd, rfl⟩)⟩
  · obtain ⟨hl, decoded, hd, hb⟩ := (decode_eq_none_iff _ _ _).mp ((newHashFromStr_eq_ok _ _).mp h)
    have hlen := length_hexDecodeString hd
    have henc := (hexDecodeString_ok hd).2
    rw [Hash.string_eq, hb, List.reverse_reverse, hexEncodeToString_append,
      hexEncodeToString_replicate, henc]
    split_ifs at hlen ⊢ with hev
    · rw [show 2 * (32 - decoded.length) = 64 - s.length by omega]
    · simp only [List.length_cons] at hlen
      rw [show 64 - s.length = 2 * (32 - decoded.length) + 1 by omega, List.replicate_succ',
        List.append_assoc]
      rfl

end AddressUtil.Chaincfg
