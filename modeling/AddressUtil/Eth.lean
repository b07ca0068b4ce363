import AddressUtil.Chains

/-! The EIP-55 case checksum of `ETHAddress.String`, stated on nibbles as EIP-55 states it, and
shown to be what the code computes. -/

namespace AddressUtil

/-- The `i`-th hex digit of `b`, high nibble first. -/
def hexNibble (b : List UInt8) (i : Nat) : Nat :=
  if i % 2 = 0 then (b.getD (i / 2) 0).toNat / 16 else (b.getD (i / 2) 0).toNat % 16

/-- EIP-55 casing as the spec states it: each letter `a`-`f` of a lowercase hex string is
uppercased exactly where the digest of the string has a nibble of 8 or more. -/
def caseChecksum (keccak256 : Digest 32) (addr : List UInt8) : List UInt8 :=
  (List.range addr.length).map fun i =>
    let a := addr.getD i 0
    if 'a'.toUInt8 ≤ a ∧ a ≤ 'f'.toUInt8 ∧ 8 ≤ hexNibble (keccak256.sum addr) i then a - 0x20
    else a

theorem hexNibble_lt (b : List UInt8) (i : Nat) : hexNibble b i < 16 := by
  have := toNat_lt_256 (b.getD (i / 2) 0)
  unfold hexNibble
  split <;> omega

theorem hexNibble_cons (c : UInt8) (b : List UInt8) (i : Nat) :
    hexNibble (c :: b) (i + 2) = hexNibble b i := by
  simp only [hexNibble, Nat.add_mod_right, show (i + 2) / 2 = i / 2 + 1 by omega,
    List.getD_cons_succ]

/-- Position `i` of the hex string is the digit of the `i`-th nibble. -/
theorem getD_hexEncodeToString {b : List UInt8} {i : Nat} (hi : i < 2 * b.length) :
    (hexEncodeToString b).getD i 0 = hexDigits.getD (hexNibble b i) 0 := by
  induction b generalizing i with
  | nil => simp at hi
  | cons c b ih =>
    have hcons : hexEncodeToString (c :: b) = hexDigits.getD (c.toNat / 16) 0 ::
        hexDigits.getD (c.toNat % 16) 0 :: hexEncodeToString b := rfl
    rw [hcons]
    match i, hi with
    | 0, _ => rfl
    | 1, _ => rfl
    | i + 2, hi =>
      rw [List.getD_cons_succ, List.getD_cons_succ, hexNibble_cons,
        ih (by simp only [List.length_cons] at hi; omega)]

theorem hexDigits_getD_mem : ∀ n < 16, hexDigits.getD n 0 ∈ hexDigits := by decide

theorem mem_hexEncodeToString {b : List UInt8} : ∀ c ∈ hexEncodeToString b, c ∈ hexDigits := by
  simp only [hexEncodeToString, List.mem_flatMap, List.mem_cons, List.mem_singleton,
    List.not_mem_nil, or_false]
  rintro c ⟨x, -, rfl | rfl⟩
  · exact hexDigits_getD_mem _ (by have := toNat_lt_256 x; omega)
  · exact hexDigits_getD_mem _ (Nat.mod_lt _ (by norm_num))

/-- `check[i] >= '8'` is `nibble >= 8`: the digits `8`, `9` and `a`-`f` lie above `'8'`. -/
theorem hexDigits_ge_eight :
    ∀ n < 16, decide (hexDigits.getD n 0 ≥ '8'.toUInt8) = decide (8 ≤ n) := by
  decide

/-- `addrBytes[i] >= 'a'` picks the letters of a lowercase hex string. -/
theorem hexDigit_ge_a :
    ∀ a ∈ hexDigits, decide (a ≥ 'a'.toUInt8) = decide ('a'.toUInt8 ≤ a ∧ a ≤ 'f'.toUInt8) := by
  decide

/-- Subtracting `0x20` uppercases a letter `a`-`f`, and case folding undoes it. -/
theorem hexDigit_case : ∀ a ∈ hexDigits, isUpper a = false ∧ foldCase a = a ∧
    ('a'.toUInt8 ≤ a → isUpper (a - 0x20) = true ∧ foldCase (a - 0x20) = a) := by
  decide

/-- The loop of `ETHAddress.String` over a lowercase hex string `addr` and the hex digest
`check` of `h` is `caseChecksum`'s rule on the nibbles of `h`. -/
theorem zipWith_eq_casing {addr h : List UInt8} (hhex : ∀ c ∈ addr, c ∈ hexDigits)
    (hlen : addr.length ≤ 2 * h.length) :
    List.zipWith (fun a c => if c ≥ '8'.toUInt8 && a ≥ 'a'.toUInt8 then a - 0x20 else a) addr
      (hexEncodeToString h) = (List.range addr.length).map fun i =>
        let a := addr.getD i 0
        if 'a'.toUInt8 ≤ a ∧ a ≤ 'f'.toUInt8 ∧ 8 ≤ hexNibble h i then a - 0x20 else a := by
  refine List.ext_getElem (by simp [hlen]) fun i h₁ h₂ => ?_
  have hi : i < addr.length := by simpa using h₂
  have ha : addr.getD i 0 = addr[i] := by
    rw [List.getD_eq_getElem?_getD, List.getElem?_eq_getElem hi, Option.getD_some]
  have hi' : i < (hexEncodeToString h).length := by simp; omega
  have hc : (hexEncodeToString h)[i] = hexDigits.getD (hexNibble h i) 0 := by
    rw [← getD_hexEncodeToString (by omega), List.getD_eq_getElem?_getD,
      List.getElem?_eq_getElem, Option.getD_some]
  rw [List.getElem_zipWith, List.getElem_map, List.getElem_range, hc, ha,
    hexDigits_ge_eight _ (hexNibble_lt h i), hexDigit_ge_a _ (hhex _ (List.getElem_mem hi))]
  simp only [Bool.and_eq_true, decide_eq_true_eq]
  exact if_congr (and_comm.trans and_assoc) rfl rfl

section
variable (libs : Libs) (sha256 : Digest 32)

/-- For a nonempty key, `ETHAddress.String` is `0x` followed by the EIP-55 casing of the
hex of the last twenty digest bytes. -/
theorem ethString_eq {k : List UInt8} (hk : k ≠ []) :
    ethString libs k = some (ascii "0x" ++
      caseChecksum libs.keccak256 (hexEncodeToString ((libs.keccak256.sum k.tail).drop 12))) := by
  have hlen : (hexEncodeToString ((libs.keccak256.sum k.tail).drop 12)).length ≤
      2 * (libs.keccak256.sum (hexEncodeToString ((libs.keccak256.sum k.tail).drop 12))).length := by
    simp
  rw [ethString, if_neg hk]
  dsimp only
  rw [zipWith_eq_casing mem_hexEncodeToString hlen]
  rfl

end

@[simp] theorem length_caseChecksum (keccak256 : Digest 32) (addr : List UInt8) :
    (caseChecksum keccak256 addr).length = addr.length := by
  simp [caseChecksum]

theorem getD_caseChecksum (keccak256 : Digest 32) {addr : List UInt8} {i : Nat}
    (hi : i < addr.length) : (caseChecksum keccak256 addr).getD i 0 =
      let a := addr.getD i 0
      if 'a'.toUInt8 ≤ a ∧ a ≤ 'f'.toUInt8 ∧ 8 ≤ hexNibble (keccak256.sum addr) i then a - 0x20
      else a := by
  simp [caseChecksum, List.getD_eq_getElem?_getD, hi]

section
variable (keccak256 : Digest 32) {addr : List UInt8} (hhex : ∀ c ∈ addr, c ∈ hexDigits)
include hhex

/-- Case folding the casing of a lowercase hex string gives the string back. -/
theorem map_foldCase_caseChecksum : (caseChecksum keccak256 addr).map foldCase = addr := by
  refine List.ext_getElem (by simp) fun i h₁ h₂ => ?_
  have hd := hexDigit_case _ (hhex _ (List.getElem_mem h₂))
  have hget := getD_caseChecksum keccak256 h₂
  rw [List.getD_eq_getElem?_getD, List.getElem?_eq_getElem (by simpa using h₂),
    Option.getD_some, List.getD_eq_getElem?_getD, List.getElem?_eq_getElem h₂,
    Option.getD_some] at hget
  rw [List.getElem_map, hget]
  dsimp only
  split_ifs with hc
  · exact (hd.2.2 hc.1).2
  · exact hd.2.1

/-- A position of the casing is uppercase exactly where the string has a letter `a`-`f` and
the digest a nibble of 8 or more. -/
theorem isUpper_caseChecksum {i : Nat} (hi : i < addr.length) :
    isUpper ((caseChecksum keccak256 addr).getD i 0) = true ↔
      ('a'.toUInt8 ≤ addr.getD i 0 ∧ addr.getD i 0 ≤ 'f'.toUInt8) ∧
        8 ≤ hexNibble (keccak256.sum addr) i := by
  have ha : addr.getD i 0 ∈ hexDigits := by
    rw [List.getD_eq_getElem?_getD, List.getElem?_eq_getElem hi, Option.getD_some]
    exact hhex _ (List.getElem_mem hi)
  have hd := hexDigit_case _ ha
  rw [getD_caseChecksum keccak256 hi]
  dsimp only
  split_ifs with hc
  · simp only [(hd.2.2 hc.1).1, true_iff]
    exact ⟨⟨hc.1, hc.2.1⟩, hc.2.2⟩
  · simp only [hd.1, Bool.false_eq_true, false_iff]
    exact fun h => hc ⟨h.1.1, h.1.2, h.2⟩

end

section
variable (libs : Libs) (sha256 : Digest 32)

/-- `ETHAddress.String` implements EIP-55: for every nonempty key the string is `0x` and
forty characters whose lowercase form is the hex of the last twenty bytes of the Keccak-256
digest of `k[1:]`; a character is uppercase exactly where that form has a letter `a`-`f`
and the digest of that form a nibble of 8 or more; recasing the lowercase form gives the
string back. -/
theorem ethString_eip55 {k : List UInt8} (hk : k ≠ []) :
    ∃ a s, newETHAddress k = .ok a ∧ a.string libs sha256 = some (ascii "0x" ++ s, a) ∧
      s.length = 40 ∧ s.map foldCase = hexEncodeToString ((libs.keccak256.sum k.tail).drop 12) ∧
      (∀ i < 40, isUpper (s.getD i 0) = true ↔
        ('a'.toUInt8 ≤ (s.map foldCase).getD i 0 ∧ (s.map foldCase).getD i 0 ≤ 'f'.toUInt8) ∧
          8 ≤ hexNibble (libs.keccak256.sum (s.map foldCase)) i) ∧
      caseChecksum libs.keccak256 (s.map foldCase) = s := by
  set addr := hexEncodeToString ((libs.keccak256.sum k.tail).drop 12)
  have hlen : addr.length = 40 := by simp [addr]
  have hlow := map_foldCase_caseChecksum libs.keccak256
    (mem_hexEncodeToString (b := (libs.keccak256.sum k.tail).drop 12))
  refine ⟨.eth [] k, caseChecksum libs.keccak256 addr, rfl,
    by simp [ChainAddress.string, ethString_eq libs hk, addr], by simp [hlen], hlow,
    fun i hi => ?_, by rw [hlow]⟩
  rw [hlow]
  exact isUpper_caseChecksum libs.keccak256 mem_hexEncodeToString (hlen ▸ hi)

theorem ethString_eip55_digest_a8 :
    let libs : Libs := ⟨⟨fun _ => List.replicate 32 0xa8, fun _ => List.length_replicate _ _⟩,
      ⟨fun _ => List.replicate 20 0, fun _ => List.length_replicate _ _⟩, ⟨fun _ => .ok []⟩,
      fun _ _ => true, fun _ _ => true, fun _ => true⟩
    ([4] : List UInt8) ≠ [] ∧ ∃ a s, newETHAddress [4] = .ok a ∧
      a.string libs Sha256.sha256 = some (ascii "0x" ++ s, a) ∧
      s.length = 40 ∧ s.map foldCase = hexEncodeToString ((libs.keccak256.sum [4].tail).drop 12) ∧
      (∀ i < 40, isUpper (s.getD i 0) = true ↔
        ('a'.toUInt8 ≤ (s.map foldCase).getD i 0 ∧ (s.map foldCase).getD i 0 ≤ 'f'.toUInt8) ∧
          8 ≤ hexNibble (libs.keccak256.sum (s.map foldCase)) i) ∧
      caseChecksum libs.keccak256 (s.map foldCase) = s :=
  ⟨List.cons_ne_nil _ _, ethString_eip55 _ Sha256.sha256 (List.cons_ne_nil _ _)⟩

end

end AddressUtil
