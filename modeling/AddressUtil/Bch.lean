import AddressUtil.DecodeAddress
import AddressUtil.Sha256

/-! bch.go's validator `CheckBCHAddress` and converter `CashAddress` over bchutil's `DecodeAddress`:
which strings each network accepts, and that the converter's output is among them. -/

namespace AddressUtil

open Bchutil Chaincfg

/-- `BCH_MAIN_NET`. -/
def bchMainNet : UInt8 := 0x00

/-- `BCH_TEST_NET`. -/
def bchTestNet : UInt8 := 0x6f

/-- `BCH_MAIN_PREFIX`. -/
def bchMainPrefix : List UInt8 := ascii "bitcoincash"

/-- `BCH_TEST_PREFIX`. -/
def bchTestPrefix : List UInt8 := ascii "bchtest"

/-- `CheckBCHAddress`; `none` is a panic of `DecodeAddress`. The error goes to a discarded
`fmt.Errorf`. -/
def checkBCHAddress (ecc : Ecc) (sha256 : Digest 32) (address : List UInt8) (main : Bool) :
    Option Bool :=
  let netParam := if main then Net.mainNet else Net.testNet3
  (decodeAddress ecc sha256 address netParam).map fun
    | .error _ => false
    | .ok addr => addr.isForNet netParam

/-- `CashAddress`. The default branch of the version switch builds an error and drops it, so
an unknown version byte leaves the prefix empty; `none` is a panic of the encoder. -/
def cashAddress (sha256 : Digest 32) (addr : List UInt8) : Option (Except GoError (List UInt8)) :=
  match Base58.checkDecode sha256 addr with
  | .error e => some (.error e)
  | .ok (h2, net) =>
    let pfx := if net = bchMainNet then bchMainPrefix
      else if net = bchTestNet then bchTestPrefix else []
    (checkEncodeCashAddress h2 pfx AddressUtil.addrTypePayToPubKeyHash).map
      fun s => .ok (pfx ++ ascii ":" ++ s)

/-- `CheckBCHAddress` never panics: it returns a boolean on every string and both networks. -/
theorem checkBCHAddress_isSome (ecc : Ecc) (sha256 : Digest 32) (address : List UInt8)
    (main : Bool) : (checkBCHAddress ecc sha256 address main).isSome := by
  simpa only [checkBCHAddress, Option.isSome_map'] using decodeAddress_isSome ecc sha256 address main

section
variable {ecc : Ecc} {sha256 : Digest 32} {address : List UInt8} {main : Bool}

theorem checkBCHAddress_true (h : checkBCHAddress ecc sha256 address main = some true) :
    ∃ a, decodeAddress ecc sha256 address (if main then .mainNet else .testNet3) = some (.ok a) ∧
      a.isForNet (if main then .mainNet else .testNet3) = true := by
  simp only [checkBCHAddress] at h
  cases hd : decodeAddress ecc sha256 address (if main then .mainNet else .testNet3) with
  | none => rw [hd] at h; cases h
  | some r =>
    rw [hd, Option.map_some', Option.some.injEq] at h
    rcases r with e | a
    · cases h
    · exact ⟨a, rfl, h⟩

theorem checkBCHAddress_of_error {e : GoError}
    (h : decodeAddress ecc sha256 address (if main then .mainNet else .testNet3) = some (.error e)) :
    checkBCHAddress ecc sha256 address main = some false := by
  simp only [checkBCHAddress, h, Option.map_some']

end

theorem prefixes_lookup_main_test (main : Bool) : prefixes.lookup (if main then .mainNet else .testNet3) =
    some (if main then bchMainPrefix else bchTestPrefix) :=
  prefixes_lookup_bch main

/-- A 20-byte hash behind a version byte, packed and spelled under a network's prefix, with
or without the prefix: `DecodeAddress` reads it as a P2PKH address of the hash unless the
byte is `0x08`. -/
theorem decodeAddress_encode (ecc : Ecc) (sha256 : Digest 32) {net : Net} {pre : List UInt8}
    (hpre : prefixes.lookup net = some pre) (v : UInt8) {h : List UInt8} (hh : h.length = 20) :
    ∃ groups enc, Bchutil.convertBits (v :: h) 8 5 true = .ok groups ∧
      AddressUtil.encode pre groups = some enc ∧
      ∀ s ∈ [pre ++ ':'.toUInt8 :: enc, enc], decodeAddress ecc sha256 s net =
        some (if v = 0x08 then .error .errUnknownAddressType else .ok (.pubKeyHash ⟨h, hh⟩ pre)) := by
  obtain ⟨hp, hlow⟩ := prefixes_lower hpre
  obtain ⟨groups, enc, hpack, henc, -, hdec, -⟩ := checkDecodeCashAddress_encode hp hlow v hh
  have hlen : enc.length = 42 := by rw [length_encode henc, (convertBits_version_hash v hh hpack).1]
  have hcolon : ':'.toUInt8 ∉ enc := fun hm => absurd (mem_of_encode henc _ hm) (by decide)
  refine ⟨groups, enc, hpack, henc, fun s hs => ?_⟩
  have hw : withPrefix pre s = pre ++ ':'.toUInt8 :: enc ∧ pre.length + 2 ≤ s.length := by
    simp only [List.mem_cons, List.mem_singleton, List.not_mem_nil, or_false] at hs
    rcases hs with rfl | rfl
    · exact ⟨withPrefix_self pre enc, by simp [hlen]⟩
    · exact ⟨withPrefix_of_colon_not_mem hcolon, by
        cases net <;> cases hpre <;> simp only [hlen] <;> decide⟩
  rw [decodeAddress_of_cash_ok hpre hw.2 (hw.1 ▸ hdec), if_pos hh]
  by_cases hv : v = 0x08
  · simp [hv, Bchutil.addrTypePayToScriptHash, Bchutil.addrTypePayToPubKeyHash]
  · simp [hv, newAddressPubKeyHash, hh, hpre]

/-- `checkDecodeCashAddress`'s switch on the version byte has no default branch: a cash
string under a network's prefix whose version byte is anything but `0x08` decodes as a P2PKH
address of its hash. For a byte other than `0x00` the string is not the one bch.go's encoder
writes for that hash. -/
theorem decodeAddress_accepts_any_version (ecc : Ecc) (sha256 : Digest 32) {net : Net}
    {pre : List UInt8} (hpre : prefixes.lookup net = some pre) {v : UInt8} (hv : v ≠ 0x08)
    {h : List UInt8} (hh : h.length = 20) :
    ∃ groups enc, Bchutil.convertBits (v :: h) 8 5 true = .ok groups ∧
      AddressUtil.encode pre groups = some enc ∧
      decodeAddress ecc sha256 (pre ++ ascii ":" ++ enc) net =
        some (.ok (.pubKeyHash ⟨h, hh⟩ pre)) ∧
      (v ≠ 0x00 → checkEncodeCashAddress h pre AddressUtil.addrTypePayToPubKeyHash ≠ some enc) := by
  obtain ⟨groups, enc, hpack, henc, hdec⟩ := decodeAddress_encode ecc sha256 hpre v hh
  refine ⟨groups, enc, hpack, henc, ?_, fun hv0 he => hv0 ?_⟩
  · rw [append_ascii_colon, hdec _ (List.mem_cons_self _ _), if_neg hv]
  · obtain ⟨hp, hlow⟩ := prefixes_lower hpre
    obtain ⟨groups₀, hpack₀, hlt₀, -⟩ := convertBits_pack_unpack (0 :: h)
    have hversion : (AddressUtil.addrTypePayToPubKeyHash.toNat <<< 3).toUInt8 = 0 := by decide
    rw [checkEncodeCashAddress, packAddressData_eq (t := AddressUtil.addrTypePayToPubKeyHash)
      (.inl rfl) hh, hversion] at he
    simp only [AddressUtil.convertBits, hpack₀] at he
    have hlt := convertBits_pad_lt (by norm_num) (by norm_num) (fun c _ => toNat_lt_256 c) hpack
    have := convertBits_pack_inj hpack (encode_inj hp hlow hlt₀ hlt he henc ▸ hpack₀)
    exact (List.cons.inj this).1

theorem decodeAddress_accepts_version_one : ∃ groups enc,
    Bchutil.convertBits (0x01 :: List.replicate 20 0) 8 5 true = .ok groups ∧
    AddressUtil.encode bchMainPrefix groups = some enc ∧
    decodeAddress ⟨fun _ => .ok []⟩ Sha256.sha256 (bchMainPrefix ++ ascii ":" ++ enc) .mainNet =
      some (.ok (.pubKeyHash ⟨List.replicate 20 0, rfl⟩ bchMainPrefix)) ∧
    ((0x01 : UInt8) ≠ 0x00 → checkEncodeCashAddress (List.replicate 20 0) bchMainPrefix
      AddressUtil.addrTypePayToPubKeyHash ≠ some enc) :=
  decodeAddress_accepts_any_version _ _ (by decide) (by decide) _

/-- A 20-byte hash behind the version byte `0x00` or `0x08`, packed and spelled under the
network's prefix: the validator takes the lowercase string, with or without the prefix,
exactly when the byte is `0x00`, and refuses the uppercase strings. -/
theorem checkBCHAddress_encode (ecc : Ecc) (sha256 : Digest 32) (main : Bool) {v : UInt8}
    (hv : v = 0x00 ∨ v = 0x08) {h : List UInt8} (hh : h.length = 20) :
    ∃ groups enc, Bchutil.convertBits (v :: h) 8 5 true = .ok groups ∧
      AddressUtil.encode (if main then bchMainPrefix else bchTestPrefix) groups = some enc ∧
      ∀ s ∈ [(if main then bchMainPrefix else bchTestPrefix) ++ ':'.toUInt8 :: enc, enc],
        checkBCHAddress ecc sha256 s main = some (decide (v = 0x00)) ∧
        checkBCHAddress ecc sha256 (s.map upperCase) main = some false := by
  set pfx := if main then bchMainPrefix else bchTestPrefix
  have hpre : prefixes.lookup (if main then .mainNet else .testNet3) = some pfx :=
    prefixes_lookup_main_test main
  have hplen : pfx.length = 11 ∨ pfx.length = 7 := by cases main <;> decide
  obtain ⟨groups, enc, hpack, henc, hdec⟩ := decodeAddress_encode ecc sha256 hpre v hh
  obtain ⟨hgl, hhead⟩ := convertBits_version_hash v hh hpack
  have hlen : enc.length = 42 := by rw [length_encode henc, hgl]
  refine ⟨groups, enc, hpack, henc, fun s hs => ⟨?_, ?_⟩⟩
  · simp only [checkBCHAddress, hdec s hs, Option.map_some']
    rcases hv with rfl | rfl <;> simp [Address.isForNet, hpre]
  simp only [List.mem_cons, List.mem_singleton, List.not_mem_nil, or_false] at hs
  rcases hs with rfl | hs
  · -- the prefix no longer matches, so a second one goes in front
    have hsep : upperCase ':'.toUInt8 = ':'.toUInt8 := by decide
    have hne : pfx.map upperCase ≠ pfx := by cases main <;> decide
    rw [List.map_append, List.map_cons, hsep]
    obtain ⟨e, he⟩ : ∃ e, decodeAddress ecc sha256 (pfx.map upperCase ++ ':'.toUInt8 ::
        enc.map upperCase) (if main then .mainNet else .testNet3) = some (.error e) :=
      decodeAddress_of_colon hpre (by simp; omega) (withPrefix_of_ne (by simp) hne)
        (List.mem_append_right _ (List.mem_cons_self _ _)) (by simp; omega)
    exact checkBCHAddress_of_error he
  · -- uppercase data under the lowercase prefix, then a Base58 string of the wrong size
    subst s
    have hchars : ∀ c ∈ bchBase32Encoder, isLower (upperCase c) = false ∧
        (isUpper (upperCase c) || isDigit (upperCase c)) = true := by decide
    have hS : ∀ c ∈ enc.map upperCase, isLower c ∨ isUpper c ∨ isDigit c := by
      simp only [List.mem_map]
      rintro _ ⟨c, hc, rfl⟩
      exact .inr (by simpa using (hchars c (mem_of_encode henc c hc)).2)
    have hlt := convertBits_pad_lt (by norm_num) (by norm_num) (fun c _ => toNat_lt_256 c) hpack
    rw [encode_eq pfx hlt, Option.some.injEq] at henc
    obtain ⟨g, gs, rfl⟩ := List.exists_cons_of_length_eq_add_one hgl
    have hhd : (enc.map upperCase).head? = some (upperCase (bchBase32Encoder.getD g.toNat 0)) := by
      rw [← henc]; rfl
    have hq : ∀ n < 2, upperCase (bchBase32Encoder.getD n 0) ∉ bchBase32Encoder ∧
        upperCase (bchBase32Encoder.getD n 0) ≠ Base58.leadingChar := by decide
    obtain ⟨hoff, hlead⟩ := hq g.toNat (by
      rw [show g.toNat = v.toNat / 8 from hhead]; rcases hv with rfl | rfl <;> decide)
    have hlen' : (enc.map upperCase).length = 42 := by rw [List.length_map, hlen]
    rw [checkBCHAddress, decodeAddress_of_not_cash hpre (by omega) hS
      ⟨_, List.mem_of_mem_head? hhd, hoff⟩]
    obtain ⟨e, he⟩ : ∃ e, decodeLegacyAddress ecc sha256 (enc.map upperCase)
        (if main then .mainNet else .testNet3) = some (.error e) :=
      decodeLegacyAddress_of_long hlen' (by rw [hhd]; simpa using hlead)
    rw [he]
    rfl

theorem checkEncodeCashAddress_of_pack {t : Int} (ht : t = 0 ∨ t = 1) {h groups : List UInt8}
    (hh : h.length = 20)
    (hpack : Bchutil.convertBits ((t.toNat <<< 3).toUInt8 :: h) 8 5 true = .ok groups)
    (pfx : List UInt8) : checkEncodeCashAddress h pfx t = AddressUtil.encode pfx groups := by
  simp only [checkEncodeCashAddress, packAddressData_eq ht hh, AddressUtil.convertBits, hpack]

/-- A Base58Check string of a 20-byte payload: 25 to 35 letters and digits. -/
theorem checkEncode_shape (sha256 : Digest 32) {h : List UInt8} (hh : h.length = 20) (v : UInt8) :
    25 ≤ (Base58.checkEncode sha256 h v).length ∧ (Base58.checkEncode sha256 h v).length ≤ 35 ∧
      ∀ c ∈ Base58.checkEncode sha256 h v, isLower c ∨ isUpper c ∨ isDigit c := by
  have hbody : (v :: h ++ Base58.checksum sha256 (v :: h)).length = 25 := by
    simp [Base58.length_checksum, hh]
  exact ⟨(Base58.length_encode_bounds _ hbody).1, (Base58.length_encode_bounds _ hbody).2,
    fun c hc => Base58.alphabet_alnum c (Base58.encode_mem_alphabet _ c hc)⟩

section
variable (ecc : Ecc) (sha256 : Digest 32) (main : Bool)

/-- Once the cash attempt has failed on format, the legacy decoder takes the network's P2PKH
and P2SH strings. -/
theorem checkBCHAddress_of_legacy_path {h : List UInt8} (hh : h.length = 20) {v : UInt8}
    (hv : v = (if main then Net.mainNet else .testNet3).params.legacyPubKeyHashAddrID ∨
      v = (if main then Net.mainNet else .testNet3).params.legacyScriptHashAddrID)
    (hcash : decodeAddress ecc sha256 (Base58.checkEncode sha256 h v)
        (if main then .mainNet else .testNet3) =
      decodeLegacyAddress ecc sha256 (Base58.checkEncode sha256 h v)
        (if main then .mainNet else .testNet3)) :
    checkBCHAddress ecc sha256 (Base58.checkEncode sha256 h v) main = some true := by
  obtain ⟨hlo, hhi, -⟩ := checkEncode_shape sha256 hh v
  rw [checkBCHAddress, hcash, decodeLegacyAddress_of_checkDecode (by omega) hh
    (Base58.checkDecode_checkEncode sha256 h v)]
  cases main <;> rcases hv with rfl | rfl <;>
    simp [isPubKeyHashAddrID_registry_eq, isScriptHashAddrID_registry_eq, Address.isForNet,
      Net.params, mainNetParams, testNet3Params]

/-- The cash attempt on a legacy string fails on format when a character is off the cash
alphabet, and also when its checksum verifies under the prefix: the data is then too short. -/
theorem decodeAddress_of_legacy {h : List UInt8} (hh : h.length = 20) (v : UInt8)
    (hc : (∃ c ∈ Base58.checkEncode sha256 h v, c ∉ bchBase32Encoder) ∨
      ∃ values, (Base58.checkEncode sha256 h v).mapM charsetRevAt = some values ∧
        verifyChecksum (if main then bchMainPrefix else bchTestPrefix) values = true) :
    decodeAddress ecc sha256 (Base58.checkEncode sha256 h v) (if main then .mainNet else .testNet3) =
      decodeLegacyAddress ecc sha256 (Base58.checkEncode sha256 h v)
        (if main then .mainNet else .testNet3) := by
  obtain ⟨hlo, hhi, hs⟩ := checkEncode_shape sha256 hh v
  have hpre := prefixes_lookup_main_test main
  have hplen : (if main then bchMainPrefix else bchTestPrefix).length ≤ 11 := by
    cases main <;> decide
  rcases hc with hc | ⟨values, hm, hver⟩
  · exact decodeAddress_of_not_cash hpre (by omega) hs hc
  · have hcolon := not_mem_of_mapM_some hm charsetRevAt_colon
    obtain ⟨e, hcd, he⟩ := checkDecodeCashAddress_short (prefixes_lower hpre).2 hm hver
      ⟨by omega, by omega⟩
    rw [decodeAddress_of_cash_error hpre (by omega)
      (by rw [withPrefix_of_colon_not_mem hcolon]; exact hcd), if_neg he]

/-- A string of cash characters whose checksum fails under the network's prefix is refused
at `DecodeAddress`'s early checksum-mismatch return, whatever the legacy decoder would
say. -/
theorem checkBCHAddress_of_mismatch (s : List UInt8)
    (hlen : (if main then bchMainPrefix else bchTestPrefix).length + 2 ≤ s.length)
    (hE : ∀ c ∈ s, c ∈ bchBase32Encoder)
    (hver : (s.mapM charsetRevAt).map (verifyChecksum (if main then bchMainPrefix else bchTestPrefix)) =
      some false) :
    checkBCHAddress ecc sha256 s main = some false := by
  set pfx := if main then bchMainPrefix else bchTestPrefix
  have hpre : prefixes.lookup (if main then .mainNet else .testNet3) = some pfx :=
    prefixes_lookup_main_test main
  obtain ⟨hp, hlow⟩ := prefixes_lower hpre
  obtain ⟨values, hm⟩ := mapM_some_of_forall fun c hc =>
    Option.isSome_iff_exists.mp (mem_bchBase32Encoder c (hE c hc)).1
  rw [hm, Option.map_some', Option.some.injEq] at hver
  have hpv := prefixAndValues_of_encoder hp hlow hE hm
  have hcd : checkDecodeCashAddress (withPrefix pfx s) = some (.error .errChecksumMismatch) := by
    rw [withPrefix_of_colon_not_mem (not_mem_of_mapM_some hm charsetRevAt_colon)]
    simp [checkDecodeCashAddress, decodeCashAddress_of_ok hpv, hver]
  exact checkBCHAddress_of_error ((decodeAddress_of_cash_error hpre hlen hcd).trans (if_pos rfl))

end

/-- Which 160-bit addresses of the selected network `CheckBCHAddress` takes: the lowercase
cash forms of a P2PKH address, with and without the prefix; never a P2SH cash address or an
uppercase form, though `DecodeCashAddress` reads the uppercase form as the lowercase one;
and a legacy P2PKH or P2SH string with a character off the cash alphabet. -/
theorem checkBCHAddress_cash_forms (ecc : Ecc) (sha256 : Digest 32) (main : Bool)
    {h : List UInt8} (hh : h.length = 20) :
    (∀ t ∈ [AddressUtil.addrTypePayToPubKeyHash, AddressUtil.addrTypePayToScriptHash], ∃ enc,
      checkEncodeCashAddress h (if main then bchMainPrefix else bchTestPrefix) t = some enc ∧
      (∃ r, decodeCashAddress ((if main then bchMainPrefix else bchTestPrefix) ++ ascii ":" ++ enc) =
          some (.ok r) ∧
        decodeCashAddress (((if main then bchMainPrefix else bchTestPrefix) ++ ascii ":" ++
          enc).map upperCase) = some (.ok r)) ∧
      ∀ s ∈ [(if main then bchMainPrefix else bchTestPrefix) ++ ascii ":" ++ enc, enc],
        checkBCHAddress ecc sha256 s main = some (decide (t = AddressUtil.addrTypePayToPubKeyHash)) ∧
        checkBCHAddress ecc sha256 (s.map upperCase) main = some false) ∧
    ∀ v, (v = (if main then Net.mainNet else .testNet3).params.legacyPubKeyHashAddrID ∨
        v = (if main then Net.mainNet else .testNet3).params.legacyScriptHashAddrID) →
      (∃ c ∈ Base58.checkEncode sha256 h v, c ∉ bchBase32Encoder) →
      checkBCHAddress ecc sha256 (Base58.checkEncode sha256 h v) main = some true := by
  refine ⟨fun t ht => ?_, fun v hv hc => checkBCHAddress_of_legacy_path ecc sha256 main hh hv
    (decodeAddress_of_legacy ecc sha256 main hh v (.inl hc))⟩
  have ht' : t = 0 ∨ t = 1 := by
    simpa [AddressUtil.addrTypePayToPubKeyHash, AddressUtil.addrTypePayToScriptHash] using ht
  have hv : (t.toNat <<< 3).toUInt8 = 0x00 ∨ (t.toNat <<< 3).toUInt8 = 0x08 := by
    rcases ht' with rfl | rfl <;> decide
  obtain ⟨groups, enc, hpack, henc, hall⟩ := checkBCHAddress_encode ecc sha256 main hv hh
  obtain ⟨hp, hlow⟩ := prefixes_lower (prefixes_lookup_main_test main)
  obtain ⟨enc', henc', -, hdec, hdecU⟩ := decodeCashAddress_encode hp hlow
    (convertBits_pad_lt (by norm_num) (by norm_num) (fun c _ => toNat_lt_256 c) hpack)
  rw [henc, Option.some.injEq] at henc'
  subst henc'
  refine ⟨enc, (checkEncodeCashAddress_of_pack ht' hh hpack _).trans henc,
    ⟨_, by rw [append_ascii_colon]; exact hdec, by rw [append_ascii_colon]; exact hdecU⟩,
    fun s hs => ?_⟩
  rw [append_ascii_colon] at hs
  rcases ht' with rfl | rfl
  · exact hall s hs
  · exact hall s hs

theorem checkBCHAddress_cash_forms_zero_hash :
    (∀ t ∈ [AddressUtil.addrTypePayToPubKeyHash, AddressUtil.addrTypePayToScriptHash], ∃ enc,
      checkEncodeCashAddress (List.replicate 20 0) bchMainPrefix t = some enc ∧
      (∃ r, decodeCashAddress (bchMainPrefix ++ ascii ":" ++ enc) = some (.ok r) ∧
        decodeCashAddress ((bchMainPrefix ++ ascii ":" ++ enc).map upperCase) = some (.ok r)) ∧
      ∀ s ∈ [bchMainPrefix ++ ascii ":" ++ enc, enc],
        checkBCHAddress ⟨fun _ => .ok []⟩ Sha256.sha256 s true =
          some (decide (t = AddressUtil.addrTypePayToPubKeyHash)) ∧
        checkBCHAddress ⟨fun _ => .ok []⟩ Sha256.sha256 (s.map upperCase) true = some false) ∧
    ∀ v, (v = Net.mainNet.params.legacyPubKeyHashAddrID ∨
        v = Net.mainNet.params.legacyScriptHashAddrID) →
      (∃ c ∈ Base58.checkEncode Sha256.sha256 (List.replicate 20 0) v, c ∉ bchBase32Encoder) →
      checkBCHAddress ⟨fun _ => .ok []⟩ Sha256.sha256
        (Base58.checkEncode Sha256.sha256 (List.replicate 20 0) v) true = some true :=
  checkBCHAddress_cash_forms _ _ true (by simp)

/-- When `CheckBCHAddress` takes a legacy P2PKH or P2SH string of the network: exactly when a
character of it is off the cash alphabet, or when, read as cash data under the network's
prefix, it carries a valid cash checksum. Otherwise the cash attempt ends at the early
checksum-mismatch return. -/
theorem checkBCHAddress_legacy (ecc : Ecc) (sha256 : Digest 32) (main : Bool) {h : List UInt8}
    (hh : h.length = 20) {v : UInt8}
    (hv : v = (if main then Net.mainNet else .testNet3).params.legacyPubKeyHashAddrID ∨
      v = (if main then Net.mainNet else .testNet3).params.legacyScriptHashAddrID) :
    checkBCHAddress ecc sha256 (Base58.checkEncode sha256 h v) main = some true ↔
      (∃ c ∈ Base58.checkEncode sha256 h v, c ∉ bchBase32Encoder) ∨
      ∃ values, (Base58.checkEncode sha256 h v).mapM charsetRevAt = some values ∧
        verifyChecksum (if main then bchMainPrefix else bchTestPrefix) values = true := by
  refine ⟨fun hok => ?_, fun hc => checkBCHAddress_of_legacy_path ecc sha256 main hh hv
    (decodeAddress_of_legacy ecc sha256 main hh v hc)⟩
  by_contra hno
  push_neg at hno
  obtain ⟨hE, hver⟩ := hno
  obtain ⟨values, hm⟩ := mapM_some_of_forall fun c hc =>
    Option.isSome_iff_exists.mp (mem_bchBase32Encoder c (hE c hc)).1
  have hplen : (if main then bchMainPrefix else bchTestPrefix).length ≤ 11 := by
    cases main <;> decide
  have hlo := (checkEncode_shape sha256 hh v).1
  rw [checkBCHAddress_of_mismatch ecc sha256 main _ (by omega) hE
    (by rw [hm, Option.map_some', Bool.eq_false_iff.mpr (hver values hm)])] at hok
  cases hok

theorem checkBCHAddress_legacy_zero_hash :
    checkBCHAddress ⟨fun _ => .ok []⟩ Sha256.sha256
        (Base58.checkEncode Sha256.sha256 (List.replicate 20 0) 0x00) true = some true ↔
      (∃ c ∈ Base58.checkEncode Sha256.sha256 (List.replicate 20 0) 0x00, c ∉ bchBase32Encoder) ∨
      ∃ values, (Base58.checkEncode Sha256.sha256 (List.replicate 20 0) 0x00).mapM charsetRevAt =
        some values ∧ verifyChecksum bchMainPrefix values = true :=
  checkBCHAddress_legacy _ _ true (by simp) (.inl rfl)

set_option maxRecDepth 20000 in
/-- A main-network P2SH string, `32fnvtw9qttq395z8v23h3f9z9ur3nxav2`, spelled in the cash
alphabet: its cash checksum fails, so `DecodeAddress` returns the mismatch and the validator
refuses it. -/
theorem checkBCHAddress_rejects_legacy_p2sh : ¬ ∃ ecc : Ecc, checkBCHAddress ecc Sha256.sha256
    (Base58.checkEncode Sha256.sha256 [0x0a, 0xbc, 0xdc, 0xf0, 0x47, 0x9c, 0xe2, 0x15, 0x43, 0x7f,
      0x7e, 0xe2, 0x44, 0xbd, 0x3a, 0xd4, 0x92, 0x3c, 0x93, 0x55] 0x05) true = some true := by
  rintro ⟨ecc, hok⟩
  have hs : Base58.checkEncode Sha256.sha256 [0x0a, 0xbc, 0xdc, 0xf0, 0x47, 0x9c, 0xe2, 0x15, 0x43,
      0x7f, 0x7e, 0xe2, 0x44, 0xbd, 0x3a, 0xd4, 0x92, 0x3c, 0x93, 0x55] 0x05 =
      ascii "32fnvtw9qttq395z8v23h3f9z9ur3nxav2" := by
    decide
  rw [hs, checkBCHAddress_of_mismatch ecc Sha256.sha256 true _ (by decide) (by decide)
    (by decide)] at hok
  cases hok

/-- No string passes the cash attempt under both BCH prefixes: read whole, its data would
verify under two prefixes that leave different checksum states; read behind one prefix, it
holds a separator the other reading cannot. -/
theorem cash_main_test {s r₁ r₂ vs₁ vs₂ : List UInt8}
    (hor₁ : r₁ = s ∨ s = bchMainPrefix ++ ':'.toUInt8 :: r₁)
    (hm₁ : r₁.mapM charsetRevAt = some vs₁) (hv₁ : verifyChecksum bchMainPrefix vs₁ = true)
    (hor₂ : r₂ = s ∨ s = bchTestPrefix ++ ':'.toUInt8 :: r₂)
    (hm₂ : r₂.mapM charsetRevAt = some vs₂) (hv₂ : verifyChecksum bchTestPrefix vs₂ = true) :
    False := by
  have hc₁ : ':'.toUInt8 ∉ r₁ := not_mem_of_mapM_some hm₁ charsetRevAt_colon
  have hc₂ : ':'.toUInt8 ∉ r₂ := not_mem_of_mapM_some hm₂ charsetRevAt_colon
  have hsep (p r : List UInt8) : ':'.toUInt8 ∈ p ++ ':'.toUInt8 :: r :=
    List.mem_append_right _ (List.mem_cons_self _ _)
  rcases hor₁ with rfl | rfl <;> rcases hor₂ with h₂ | h₂
  · subst h₂
    rw [hm₁, Option.some.injEq] at hm₂
    subst hm₂
    exact verifyChecksum_two_prefixes expandPrefix_bitcoincash_bchtest vs₁ ⟨hv₁, hv₂⟩
  · exact hc₁ (h₂ ▸ hsep _ _)
  · exact hc₂ (h₂ ▸ hsep _ _)
  · exact absurd (append_cons_inj (by decide) (by decide) h₂).1 (by decide)

/-- A string that passes the cash attempt under a prefix of fewer than 23 characters is no
20-byte Base58Check string: read whole it has 42 characters and no leading `1`, read behind
the prefix it holds the separator. -/
theorem decodeLegacyAddress_of_cash {ecc : Ecc} {sha256 : Digest 32} {net : Net} {a : Address}
    {s rest values pre : List UInt8} (hpre : pre.length < 23)
    (hor : rest = s ∨ s = pre ++ ':'.toUInt8 :: rest) (hm : rest.mapM charsetRevAt = some values)
    (hl : values.length = 42) (hleg : decodeLegacyAddress ecc sha256 s net = some (.ok a)) :
    False := by
  have h42 : rest.length = 42 := (length_of_mapM_some hm).symm.trans hl
  rcases hor with rfl | rfl
  · obtain ⟨c, cs, rfl⟩ := List.exists_cons_of_length_eq_add_one h42
    obtain ⟨w, hw⟩ := exists_of_mapM_some hm (List.mem_cons_self c cs)
    have hlead : (c :: cs).head? ≠ some Base58.leadingChar := by
      intro hc
      rw [List.head?_cons, Option.some.injEq] at hc
      rw [hc, show charsetRevAt Base58.leadingChar = none by decide] at hw
      cases hw
    obtain ⟨e, he⟩ : ∃ e, decodeLegacyAddress ecc sha256 (c :: cs) net = some (.error e) :=
      decodeLegacyAddress_of_long h42 hlead
    rw [he] at hleg
    cases hleg
  · obtain ⟨e, he⟩ : ∃ e, decodeLegacyAddress ecc sha256 (pre ++ ':'.toUInt8 :: rest) net =
        some (.error e) :=
      decodeLegacyAddress_of_colon (by simp; omega) (List.mem_append_right _ (List.mem_cons_self _ _))
    rw [he] at hleg
    cases hleg

theorem isForNet_main_test (a : Address) :
    ¬ (a.isForNet .mainNet = true ∧ a.isForNet .testNet3 = true) := by
  rintro ⟨h₁, h₂⟩
  cases a with
  | pubKeyHash hash pfx =>
    change (pfx == bchMainPrefix) = true at h₁
    change (pfx == bchTestPrefix) = true at h₂
    rw [beq_iff_eq] at h₁ h₂
    exact absurd (h₁.symm.trans h₂) (by decide)
  | pubKey pubKeyFormat pubKeyHashID =>
    simp only [Address.isForNet, beq_iff_eq] at h₁ h₂
    exact absurd (h₁.symm.trans h₂) (by decide)
  | legacyPubKeyHash hash netID =>
    simp only [Address.isForNet, beq_iff_eq] at h₁ h₂
    exact absurd (h₁.symm.trans h₂) (by decide)
  | legacyScriptHash hash netID =>
    simp only [Address.isForNet, beq_iff_eq] at h₁ h₂
    exact absurd (h₁.symm.trans h₂) (by decide)

/-- No string but a serialized public key is a valid BCH address on both networks: the two
prefixes leave different checksum states, a cash data part is no 20-byte Base58Check string,
and the networks' legacy version bytes differ. -/
theorem checkBCHAddress_main_test (ecc : Ecc) (sha256 : Digest 32) (s : List UInt8)
    (hs : ¬ ((s.length = 66 ∨ s.length = 130) ∧ (hexDecodeString s).isOk = true)) :
    ¬ (checkBCHAddress ecc sha256 s true = some true ∧
      checkBCHAddress ecc sha256 s false = some true) := by
  rintro ⟨h₁, h₂⟩
  obtain ⟨a₁, hd₁, hf₁⟩ := checkBCHAddress_true h₁
  obtain ⟨a₂, hd₂, hf₂⟩ := checkBCHAddress_true h₂
  rcases decodeAddress_ok (prefixes_lookup_main_test true) hd₁ with
    ⟨r₁, vs₁, -, hor₁, hm₁, hv₁, hl₁⟩ | hl₁ <;>
  rcases decodeAddress_ok (prefixes_lookup_main_test false) hd₂ with
    ⟨r₂, vs₂, -, hor₂, hm₂, hv₂, hl₂⟩ | hl₂
  · exact cash_main_test hor₁ hm₁ hv₁ hor₂ hm₂ hv₂
  · exact decodeLegacyAddress_of_cash (by decide) hor₁ hm₁ hl₁ hl₂
  · exact decodeLegacyAddress_of_cash (by decide) hor₂ hm₂ hl₂ hl₁
  · rw [decodeLegacyAddress_net hs (if false then .mainNet else .testNet3), hl₂,
      Option.some.injEq, Except.ok.injEq] at hl₁
    subst hl₁
    exact isForNet_main_test _ ⟨hf₁, hf₂⟩

theorem checkBCHAddress_main_test_spec_address : ¬ (checkBCHAddress ⟨fun _ => .ok []⟩ Sha256.sha256
      (ascii "bitcoincash:qpcenuhjnwk0xw4st4x0pyn69vmra29nnvghrpm8jg") true = some true ∧
    checkBCHAddress ⟨fun _ => .ok []⟩ Sha256.sha256
      (ascii "bitcoincash:qpcenuhjnwk0xw4st4x0pyn69vmra29nnvghrpm8jg") false = some true) :=
  checkBCHAddress_main_test _ _ _ (by decide)

/-- `CheckBCHAddress` is sound: every string it takes is one the encoders write for the
selected network. It is the lowercase cash form of a 20-byte hash behind a version byte other
than `0x08`, with or without the network's prefix; `CheckEncode` of a 20-byte hash behind the
network's P2PKH or P2SH byte; or the hex of a serialized public key the parser takes. -/
theorem checkBCHAddress_sound (ecc : Ecc) (sha256 : Digest 32) (main : Bool) {s : List UInt8}
    (hs : checkBCHAddress ecc sha256 s main = some true) :
    (∃ h v groups enc, h.length = 20 ∧ v ≠ 0x08 ∧
      Bchutil.convertBits (v :: h) 8 5 true = .ok groups ∧
      AddressUtil.encode (if main then bchMainPrefix else bchTestPrefix) groups = some enc ∧
      (s = (if main then bchMainPrefix else bchTestPrefix) ++ ':'.toUInt8 :: enc ∨ s = enc)) ∨
    (∃ h v, h.length = 20 ∧
      (v = (if main then Net.mainNet else .testNet3).params.legacyPubKeyHashAddrID ∨
        v = (if main then Net.mainNet else .testNet3).params.legacyScriptHashAddrID) ∧
      s = Base58.checkEncode sha256 h v) ∨
    ((s.length = 130 ∨ s.length = 66) ∧
      ∃ b k, hexDecodeString s = .ok b ∧ ecc.parsePubKey b = .ok k) := by
  obtain ⟨a, hd, hf⟩ := checkBCHAddress_true hs
  rcases decodeAddress_canonical (prefixes_lookup_main_test main) hd with
    ⟨hash, v, groups, enc, rfl, hv, hpack, henc, hor⟩ | ⟨hash, v, ha, rfl⟩ |
      ⟨hl, fmt, b, k, rfl, hb, hk⟩
  · exact .inl ⟨hash.bytes, v, groups, enc, hash.length_bytes, hv, hpack, henc, hor⟩
  · refine .inr (.inl ⟨hash.bytes, v, hash.length_bytes, ?_, rfl⟩)
    rcases ha with ⟨rfl, -⟩ | ⟨rfl, -⟩
    · exact .inl (by simpa [Address.isForNet] using hf)
    · exact .inr (by simpa [Address.isForNet] using hf)
  · exact .inr (.inr ⟨hl, b, k, hb, hk⟩)

set_option maxRecDepth 10000 in
/-- The spec's main-network address is taken, as the lowercase cash form. -/
theorem checkBCHAddress_sound_spec_address :
    checkBCHAddress ⟨fun _ => .ok []⟩ Sha256.sha256
      (ascii "bitcoincash:qpcenuhjnwk0xw4st4x0pyn69vmra29nnvghrpm8jg") true = some true ∧
    ((∃ h v groups enc, h.length = 20 ∧ v ≠ 0x08 ∧
      Bchutil.convertBits (v :: h) 8 5 true = .ok groups ∧
      AddressUtil.encode bchMainPrefix groups = some enc ∧
      (ascii "bitcoincash:qpcenuhjnwk0xw4st4x0pyn69vmra29nnvghrpm8jg" =
        bchMainPrefix ++ ':'.toUInt8 :: enc ∨
        ascii "bitcoincash:qpcenuhjnwk0xw4st4x0pyn69vmra29nnvghrpm8jg" = enc)) ∨
    (∃ h v, h.length = 20 ∧ (v = Net.mainNet.params.legacyPubKeyHashAddrID ∨
        v = Net.mainNet.params.legacyScriptHashAddrID) ∧
      ascii "bitcoincash:qpcenuhjnwk0xw4st4x0pyn69vmra29nnvghrpm8jg" =
        Base58.checkEncode Sha256.sha256 h v) ∨
    (((ascii "bitcoincash:qpcenuhjnwk0xw4st4x0pyn69vmra29nnvghrpm8jg").length = 130 ∨
        (ascii "bitcoincash:qpcenuhjnwk0xw4st4x0pyn69vmra29nnvghrpm8jg").length = 66) ∧
      ∃ b k, hexDecodeString (ascii "bitcoincash:qpcenuhjnwk0xw4st4x0pyn69vmra29nnvghrpm8jg") =
        .ok b ∧ Ecc.parsePubKey ⟨fun _ => .ok []⟩ b = .ok k)) :=
  have h : checkBCHAddress ⟨fun _ => .ok []⟩ Sha256.sha256
      (ascii "bitcoincash:qpcenuhjnwk0xw4st4x0pyn69vmra29nnvghrpm8jg") true = some true := rfl
  ⟨h, checkBCHAddress_sound _ _ true h⟩

/-- `CashAddress` never fails on a Base58Check string: for every payload and every version
byte it returns a string, under the empty prefix when the byte is neither network's. -/
theorem cashAddress_checkEncode (sha256 : Digest 32) (h : List UInt8) (v : UInt8) :
    ∃ enc, cashAddress sha256 (Base58.checkEncode sha256 h v) = some (.ok ((if v = bchMainNet then
      bchMainPrefix else if v = bchTestNet then bchTestPrefix else []) ++ ascii ":" ++ enc)) := by
  obtain ⟨enc, he⟩ := Option.isSome_iff_exists.mp (checkEncodeCashAddress_isSome h
    (if v = bchMainNet then bchMainPrefix else if v = bchTestNet then bchTestPrefix else [])
    AddressUtil.addrTypePayToPubKeyHash)
  exact ⟨enc, by simp only [cashAddress, Base58.checkDecode_checkEncode, he, Option.map_some']⟩

/-- `CashAddress` carries a legacy P2PKH address of either network over to a cash address
that `CheckBCHAddress` takes on that network and that `DecodeAddress` reads as the same
hash. -/
theorem checkBCHAddress_cashAddress (ecc : Ecc) (sha256 : Digest 32) (main : Bool)
    {h : List UInt8} (hh : h.length = 20) :
    ∃ s, cashAddress sha256 (Base58.checkEncode sha256 h (if main then bchMainNet else bchTestNet)) =
        some (.ok s) ∧
      decodeAddress ecc sha256 s (if main then .mainNet else .testNet3) =
        some (.ok (.pubKeyHash ⟨h, hh⟩ (if main then bchMainPrefix else bchTestPrefix))) ∧
      checkBCHAddress ecc sha256 s main = some true := by
  have hpre := prefixes_lookup_main_test main
  obtain ⟨groups, enc, hpack, henc, hdec⟩ := decodeAddress_encode ecc sha256 hpre 0x00 hh
  have hpfx : (if (if main then bchMainNet else bchTestNet) = bchMainNet then bchMainPrefix
      else if (if main then bchMainNet else bchTestNet) = bchTestNet then bchTestPrefix else []) =
      if main then bchMainPrefix else bchTestPrefix := by
    cases main <;> decide
  have hversion : (AddressUtil.addrTypePayToPubKeyHash.toNat <<< 3).toUInt8 = 0x00 := by decide
  have hd := hdec _ (List.mem_cons_self _ _)
  rw [if_neg (show ¬ (0x00 : UInt8) = 0x08 by decide)] at hd
  have hcash : checkEncodeCashAddress h (if main then bchMainPrefix else bchTestPrefix)
      AddressUtil.addrTypePayToPubKeyHash = some enc :=
    (checkEncodeCashAddress_of_pack (t := AddressUtil.addrTypePayToPubKeyHash) (.inl rfl) hh
      (by rw [hversion]; exact hpack) _).trans henc
  refine ⟨_, ?_, hd, by simp [checkBCHAddress, hd, Address.isForNet, hpre]⟩
  simp only [cashAddress, Base58.checkDecode_checkEncode, hpfx, hcash, Option.map_some',
    append_ascii_colon]

/-- The zero hash on the main network. -/
theorem checkBCHAddress_cashAddress_zero_hash : (List.replicate 20 (0 : UInt8)).length = 20 ∧
    ∃ s, cashAddress Sha256.sha256
        (Base58.checkEncode Sha256.sha256 (List.replicate 20 0) bchMainNet) = some (.ok s) ∧
      decodeAddress ⟨fun _ => .ok []⟩ Sha256.sha256 s .mainNet =
        some (.ok (.pubKeyHash ⟨List.replicate 20 0, rfl⟩ bchMainPrefix)) ∧
      checkBCHAddress ⟨fun _ => .ok []⟩ Sha256.sha256 s true = some true :=
  ⟨rfl, checkBCHAddress_cashAddress _ _ true (h := List.replicate 20 0) rfl⟩

end AddressUtil
