import AddressUtil.ConvertBits
import AddressUtil.PolyMod

/-! bch.go's CashAddr encoder. Its `convertBits`, `expandPrefix` and `polyMod` have bchutil's
bodies, so they are bchutil's definitions here. -/

namespace AddressUtil

/-- bch.go's `convertBits`, with the body of bchutil's. -/
def convertBits : List UInt8 → Nat → Nat → Bool → Except GoError (List UInt8) :=
  Bchutil.convertBits

/-- bch.go's `expandPrefix`, with the body of bchutil's. -/
def expandPrefix : List UInt8 → List UInt8 := Bchutil.expandPrefix

/-- bch.go's `polyMod`, with the body of bchutil's. -/
def polyMod : List UInt8 → Nat := Bchutil.polyMod

/-- `bchBase32Encoder`, the CashAddr alphabet indexed by symbol. -/
def bchBase32Encoder : List UInt8 := ascii "qpzry9x8gf2tvdw0s3jn54khce6mua7l"

/-- `AddrTypePayToPubKeyHash`; `AddressType` is a Go `int`. -/
def addrTypePayToPubKeyHash : Int := 0

/-- `AddrTypePayToScriptHash`. -/
def addrTypePayToScriptHash : Int := 1

/-- `createChecksum`: the checksum of the prefix and payload followed by eight zero symbols,
cut into eight 5-bit symbols, high first. -/
def createChecksum (pfx payload : List UInt8) : List UInt8 :=
  let mod := polyMod (expandPrefix pfx ++ payload ++ List.replicate 8 0)
  (List.range 8).map fun i => ((mod >>> (5 * (7 - i))) &&& 0x1f).toUInt8

/-- `packAddressData`. The size code is computed on Go's `uint`, so a hash shorter than
twenty bytes wraps around to a huge code; the divisibility test is on `int`, which
truncates toward zero. -/
def packAddressData (addrType : Int) (addrHash : List UInt8) : Except GoError (List UInt8) :=
  if addrType ≠ addrTypePayToPubKeyHash ∧ addrType ≠ addrTypePayToScriptHash then
    .error (.new "invalid AddressType")
  else
    let versionByte := addrType.toNat <<< 3
    let encodedSize := (addrHash.length + 2 ^ 64 - 20) % 2 ^ 64 / 4
    if ((addrHash.length : Int) - 20).tmod 4 ≠ 0 then .error (.new "invalid address hash size")
    else if encodedSize > 8 then .error (.new "encoded size out of valid range")
    else convertBits ((versionByte ||| encodedSize).toUInt8 :: addrHash) 8 5 true

/-- `encode`: payload and checksum spelled in `bchBase32Encoder`; `none` is the panic of
`bchBase32Encoder[c]` on a symbol past the alphabet. -/
def encode (pfx payload : List UInt8) : Option (List UInt8) :=
  (payload ++ createChecksum pfx payload).mapM fun c => bchBase32Encoder[c.toNat]?

/-- `checkEncodeCashAddress`: the empty string when `packAddressData` fails. -/
def checkEncodeCashAddress (input pfx : List UInt8) (t : Int) : Option (List UInt8) :=
  match packAddressData t input with
  | .error _ => some []
  | .ok k => encode pfx k

@[simp] theorem length_createChecksum (pfx payload : List UInt8) :
    (createChecksum pfx payload).length = 8 := by
  simp [createChecksum]

theorem createChecksum_lt (pfx payload : List UInt8) :
    ∀ c ∈ createChecksum pfx payload, c.toNat < 32 := by
  simp only [createChecksum, List.mem_map]
  rintro c ⟨i, -, rfl⟩
  rw [show (0x1f : Nat) = 2 ^ 5 - 1 by norm_num, Nat.and_pow_two_sub_one_eq_mod,
    toNat_toUInt8 (Nat.lt_trans (Nat.mod_lt _ (by norm_num)) (by norm_num))]
  exact Nat.mod_lt _ (by norm_num)

/-- The low `k` base-32 digits of `m`, high first, denote `m % 32 ^ k`. -/
theorem beValue_low_digits (m k : Nat) :
    beValue 32 ((List.range k).reverse.map fun i => m / 32 ^ i % 32) = m % 32 ^ k := by
  induction k with
  | zero => simp [Nat.mod_one]
  | succ k ih =>
    rw [List.range_succ, List.reverse_append, List.reverse_singleton, List.singleton_append,
      List.map_cons, beValue_cons, List.length_map, List.length_reverse, List.length_range, ih,
      Nat.mod_pow_succ, Nat.add_comm, Nat.mul_comm]

/-- The eight symbols of a 40-bit number, high first, are its base-32 digits. -/
theorem beValue_checksum_symbols {m : Nat} (hm : m < 2 ^ 40) :
    beValue 32 (((List.range 8).map fun i => ((m >>> (5 * (7 - i))) &&& 0x1f).toUInt8).map
      UInt8.toNat) = m := by
  have hsym (i : Nat) : ((m >>> (5 * (7 - i))) &&& 0x1f).toUInt8.toNat = m / 32 ^ (7 - i) % 32 := by
    rw [show (0x1f : Nat) = 2 ^ 5 - 1 by norm_num, Nat.and_pow_two_sub_one_eq_mod,
      toNat_toUInt8 (Nat.lt_trans (Nat.mod_lt _ (by norm_num)) (by norm_num)),
      Nat.shiftRight_eq_div_pow, Nat.pow_mul]
  have hrev : (List.range 8).map (fun i => m / 32 ^ (7 - i) % 32) =
      (List.range 8).reverse.map fun i => m / 32 ^ i % 32 := by
    simp [List.range_succ]
  rw [List.map_map, Function.comp_def, funext hsym, hrev, beValue_low_digits,
    Nat.mod_eq_of_lt (by simpa using hm)]

/-- A freshly computed checksum verifies: the last eight steps act on the state by xor. -/
theorem polyMod_createChecksum (pfx payload : List UInt8) :
    polyMod (expandPrefix pfx ++ payload ++ createChecksum pfx payload) = 0 := by
  set s := (expandPrefix pfx ++ payload).foldl Bchutil.polyModStep 1
  have hs : s < 2 ^ 40 := Bchutil.foldl_polyModStep_lt (by norm_num) _
  set z := (List.replicate 8 0).foldl Bchutil.polyModStep s
  have hz : z < 2 ^ 40 := Bchutil.foldl_polyModStep_lt hs _
  have hmod : polyMod (expandPrefix pfx ++ payload ++ List.replicate 8 0) = z ^^^ 1 := by
    rw [polyMod, Bchutil.polyMod, List.foldl_append]
  have hval : beValue 32 ((createChecksum pfx payload).map UInt8.toNat) = z ^^^ 1 := by
    rw [createChecksum, hmod]
    exact beValue_checksum_symbols (Nat.xor_lt_two_pow hz (by norm_num))
  have hrun := Bchutil.foldl_polyModStep_xor s (x := 0) (by simp) (Nat.two_pow_pos _)
    (createChecksum_lt pfx payload)
  rw [Nat.xor_zero, length_createChecksum, Nat.zero_mul, Nat.zero_add, hval, ← Nat.xor_assoc,
    Nat.xor_self, Nat.zero_xor] at hrun
  rw [polyMod, Bchutil.polyMod, List.foldl_append, hrun, Nat.xor_self]

/-- The checksum is the only one: eight symbols after which the checksum verifies are the
ones `createChecksum` computes. -/
theorem eq_createChecksum {pfx payload cs : List UInt8} (hl : cs.length = 8)
    (hcs : ∀ c ∈ cs, c.toNat < 32) (h : polyMod (expandPrefix pfx ++ payload ++ cs) = 0) :
    cs = createChecksum pfx payload := by
  have h' := polyMod_createChecksum pfx payload
  simp only [polyMod, Bchutil.polyMod, List.foldl_append, Nat.xor_eq_zero] at h h'
  exact Bchutil.foldl_polyModStep_burst _ (by rw [hl, length_createChecksum]) (by omega) hcs
    (createChecksum_lt pfx payload) (h.trans h'.symm)

/-- What `packAddressData` does with a valid type and a 20-byte hash: version byte
`t << 3`, size code zero. -/
theorem packAddressData_eq {t : Int} (ht : t = 0 ∨ t = 1) {h : List UInt8} (hh : h.length = 20) :
    packAddressData t h = convertBits ((t.toNat <<< 3).toUInt8 :: h) 8 5 true := by
  have hvalid : ¬ (t ≠ addrTypePayToPubKeyHash ∧ t ≠ addrTypePayToScriptHash) := by
    simp only [addrTypePayToPubKeyHash, addrTypePayToScriptHash]; omega
  simp only [packAddressData, hvalid, hh, if_false]
  norm_num

/-- Whatever it is given, `packAddressData` emits 5-bit symbols. -/
theorem packAddressData_lt {t : Int} {h k : List UInt8} (hk : packAddressData t h = .ok k) :
    ∀ c ∈ k, c.toNat < 32 := by
  simp only [packAddressData] at hk
  split_ifs at hk
  exact Bchutil.convertBits_pad_lt (by norm_num) (by norm_num) (fun c _ => toNat_lt_256 c) hk

/-- bch.go's packing and bchutil's unpacking are inverse: every byte string packs into
5-bit symbols that unpack to it, and every symbol string that unpacks packs back to
itself. -/
theorem convertBits_regroup_inverse :
    (∀ d : List UInt8, ∃ groups, convertBits d 8 5 true = .ok groups ∧
      (∀ g ∈ groups, g.toNat < 32) ∧ Bchutil.convertBits groups 5 8 false = .ok d) ∧
    ∀ v d : List UInt8, (∀ x ∈ v, x.toNat < 32) → Bchutil.convertBits v 5 8 false = .ok d →
      convertBits d 8 5 true = .ok v :=
  ⟨Bchutil.convertBits_pack_unpack, fun _ _ => Bchutil.convertBits_unpack_pack⟩

theorem convertBits_regroup_inverse_ff :
    Bchutil.convertBits [31, 28] 5 8 false = .ok [0xff] ∧ convertBits [0xff] 8 5 true = .ok [31, 28] :=
  ⟨rfl, convertBits_regroup_inverse.2 [31, 28] [0xff] (by decide) rfl⟩

theorem length_bchBase32Encoder : bchBase32Encoder.length = 32 := by decide

theorem encode_eq (pfx : List UInt8) {payload : List UInt8} (hp : ∀ c ∈ payload, c.toNat < 32) :
    encode pfx payload = some ((payload ++ createChecksum pfx payload).map fun c =>
      bchBase32Encoder.getD c.toNat 0) := by
  have hall : ∀ c ∈ payload ++ createChecksum pfx payload, c.toNat < 32 := by
    simpa only [List.mem_append, or_imp, forall_and] using ⟨hp, createChecksum_lt pfx payload⟩
  rw [encode]
  generalize payload ++ createChecksum pfx payload = xs at hall
  induction xs with
  | nil => rfl
  | cons c xs ih =>
    have hc : c.toNat < bchBase32Encoder.length := by
      rw [length_bchBase32Encoder]; exact hall c (List.mem_cons_self _ _)
    rw [List.mapM_cons, ih fun d hd => hall d (List.mem_cons_of_mem _ hd),
      List.getElem?_eq_getElem hc, List.map_cons, List.getD_eq_getElem _ _ hc]
    rfl

/-- `encode` succeeds only on a payload of symbols. -/
theorem encode_lt {pfx payload enc : List UInt8} (h : encode pfx payload = some enc) :
    ∀ c ∈ payload, c.toNat < 32 := fun c hc => by
  obtain ⟨w, hw⟩ := exists_of_mapM_some h (List.mem_append_left _ hc)
  simpa [length_bchBase32Encoder] using (List.getElem?_eq_some_iff.mp hw).1

theorem length_encode {pfx payload enc : List UInt8} (h : encode pfx payload = some enc) :
    enc.length = payload.length + 8 := by
  rw [length_of_mapM_some h, List.length_append, length_createChecksum]

theorem mem_of_encode {pfx payload enc : List UInt8} (h : encode pfx payload = some enc) :
    ∀ c ∈ enc, c ∈ bchBase32Encoder := by
  intro c hc
  obtain ⟨_, -, hd⟩ := mem_of_mapM_some h hc
  exact List.getElem?_mem hd

theorem checkEncodeCashAddress_isSome (input pfx : List UInt8) (t : Int) :
    (checkEncodeCashAddress input pfx t).isSome := by
  rw [checkEncodeCashAddress]
  split
  · rfl
  · next k hk => rw [encode_eq pfx (packAddressData_lt hk)]; rfl

end AddressUtil
